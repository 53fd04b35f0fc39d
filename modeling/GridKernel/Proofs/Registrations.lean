import GridKernel.Proofs.Extents
import GridKernel.Proofs.SlotNames

/-! Registrations one after another. A march is changed in place, the lists of its entry point before
the flags of what is saved. A call is answered with what it registers and changes both, or it is
refused and changes neither. -/
namespace GridKernel.March

variable {m m₀ : March} {specs : Specs}

/-- Calls that change a march in place and may stop. -/
abbrev Session := ExceptT Fault (StateM March)

namespace Session

variable {α β : Type}

/-- What a computation gives on the march as it is. -/
def ask (f : March → Result α) : Session α := ExceptT.mk fun m => (f m, m)

/-- The answer of a call on a march, and the march that the call leaves behind. -/
def call (s : Session α) (m : March) : Result α × March := s.run.run m

theorem call_ask (f : March → Result α) : (ask f).call m = (f m, m) := rfl

theorem call_bind (s : Session α) (f : α → Session β) :
    (s >>= f).call m =
      match s.call m with
      | (.ok a, next) => (f a).call next
      | (.error e, next) => (.error e, next) := by
  unfold call
  rw [ExceptT.run_bind, StateT.run_bind]
  cases h : s.run.run m with
  | mk r next =>
    cases r with
    | ok a => rfl
    | error e => rfl

end Session

/-- The array that a registration asks for. -/
def arrayOf (m : March) (name : String) (shape : List UInt64) (element : ElementType) :
    GridArray :=
  let dims := if shape.length = m.rank + 1 then m.timeDim :: m.spaceDims else m.spaceDims
  ⟨name, element, dims, shape.map Expr.ofSize, dims.map fun _ => .none, .external⟩

/-- The space axes of a shape, each with its extent and the one that the march walks. -/
def walkedAxes (m : March) (shape : List UInt64) : List (Dimension × UInt64 × UInt64) :=
  m.spaceDims.zip ((shape.drop (shape.length - m.rank)).zip m.shape.reverse)

/-- Refuses a shape that does not fit the grid, or a ring that is too short. -/
def checkShape (m : March) (name : String) (shape : List UInt64) (save : Bool) : Result Unit := do
  if shape.length ≠ m.rank + 1 ∧ shape.length ≠ m.rank then
    refuse (.axisCount name shape.length m.rank)
  checkExtents name (m.walkedAxes shape)
  m.checkSlots name (!save && shape.length = m.rank + 1) (shape.headD 0)

/-- The array of a registration, when its shape and its name pass their checks. -/
def request (m : March) (name : String) (shape : List UInt64) (element : ElementType)
    (save : Bool) : Result GridArray := do
  m.checkShape name shape save
  let dims := if shape.length = m.rank + 1 then m.timeDim :: m.spaceDims else m.spaceDims
  (← GridArray.ofDims name dims element).setShape (shape.map Expr.ofSize)

theorem addArray_eq_request (name : String) (shape : List UInt64) (element : ElementType)
    (save : Bool) :
    m.addArray name shape element save = do
      let a ← m.request name shape element save
      let entry ← m.entry.addArray a
      return ({ m with entry, saved := m.saved ++ [(name, save)] }, a) := by
  unfold addArray request checkShape
  dsimp only
  split
  · rfl
  · simp only [bind_assoc, walkedAxes]

/-- The march with one more array, scalar or local scalar in its entry point. -/
def pushArray (m : March) (a : GridArray) : March :=
  { m with entry := { m.entry with arrays := m.entry.arrays ++ [a] } }

def pushScalar (m : March) (s : Scalar) : March :=
  { m with entry := { m.entry with scalars := m.entry.scalars ++ [s] } }

def pushLocal (m : March) (s : Scalar) : March :=
  { m with entry := { m.entry with locals := m.entry.locals ++ [s] } }

def pushSaved (m : March) (name : String) (save : Bool) : March :=
  { m with saved := m.saved ++ [(name, save)] }

namespace Session

/-- Registers an array: first its entry, then the flag under its name. -/
def registerArray (name : String) (shape : List UInt64) (element : ElementType) (save : Bool) :
    Session GridArray := do
  let a ← ask fun m => m.request name shape element save
  ask fun m => m.entry.claim a.name
  modify fun m => m.pushArray a
  modify fun m => m.pushSaved a.name save
  return a

/-- Registers a scalar in the list that `push` appends to. -/
def registerScalar (push : March → Scalar → March) (name : String) (element : ElementType) :
    Session Scalar := do
  let s : Scalar := ⟨← ask fun _ => Identifier.check name, element⟩
  ask fun m => m.entry.claim s.name
  modify fun m => push m s
  return s

end Session

namespace Registration

/-- A registration in place, answered with the entity that it registers. -/
def perform : Registration → Session Parameter
  | array name shape element save => .array <$> Session.registerArray name shape element save
  | scalar name element => .scalar <$> Session.registerScalar pushScalar name element
  | localScalar name element => .scalar <$> Session.registerScalar pushLocal name element

/-- A registration that gives the next march with the entity. -/
def transition (m : March) : Registration → Result (March × Parameter)
  | array name shape element save => Prod.map id .array <$> m.addArray name shape element save
  | scalar name element => Prod.map id .scalar <$> m.addScalar name element
  | localScalar name element => Prod.map id .scalar <$> m.addLocal name element

end Registration

/-- A change that is made as a whole or not at all. -/
def settle {α : Type} (m : March) : Result (March × α) → Result α × March
  | .ok (next, a) => (.ok a, next)
  | .error e => (.error e, m)

theorem call_map_of_settle {α β : Type} {s : Session α} {r : Result (March × α)}
    (h : s.call m = settle m r) (f : α → β) :
    (f <$> s).call m = settle m (Prod.map id f <$> r) := by
  rw [map_eq_pure_bind, Session.call_bind, h]
  cases r with
  | error e => rfl
  | ok p => rfl

theorem request_eq_ok {name : String} {shape : List UInt64} {element : ElementType} {save : Bool}
    {a : GridArray} (h : m.request name shape element save = .ok a) :
    a = m.arrayOf name shape element := by
  obtain ⟨_, -, h⟩ := bind_eq_ok.1 h
  obtain ⟨b, hb, h⟩ := bind_eq_ok.1 h
  rw [setShape_eq_ok h, ofDims_eq_ok hb]
  rfl

theorem call_registerArray (name : String) (shape : List UInt64) (element : ElementType)
    (save : Bool) :
    (Session.registerArray name shape element save).call m =
      settle m (m.addArray name shape element save) := by
  rw [addArray_eq_request]
  simp only [Session.registerArray, Session.call_bind, Session.call_ask]
  cases ha : m.request name shape element save with
  | error e => rfl
  | ok a =>
    obtain rfl := request_eq_ok ha
    simp only [ok_bind, EntryPoint.addArray]
    cases m.entry.claim (m.arrayOf name shape element).name with
    | error e => rfl
    | ok u => rfl

/-- A scalar is registered when its name is an identifier that is free. -/
theorem call_registerScalar (push : March → Scalar → March) (name : String)
    (element : ElementType) :
    (Session.registerScalar push name element).call m = settle m (do
      let n ← Identifier.check name
      m.entry.claim n
      return (push m ⟨n, element⟩, ⟨n, element⟩)) := by
  simp only [Session.registerScalar, Session.call_bind, Session.call_ask]
  cases Identifier.check name with
  | error e => rfl
  | ok n =>
    simp only [ok_bind]
    cases m.entry.claim n with
    | error e => rfl
    | ok u => rfl

theorem addScalar_eq (name : String) (element : ElementType) :
    m.addScalar name element = do
      let n ← Identifier.check name
      m.entry.claim n
      return (m.pushScalar ⟨n, element⟩, ⟨n, element⟩) := by
  simp only [addScalar, EntryPoint.addScalar, bind_assoc]
  rfl

theorem addLocal_eq (name : String) (element : ElementType) :
    m.addLocal name element = do
      let n ← Identifier.check name
      m.entry.claim n
      return (m.pushLocal ⟨n, element⟩, ⟨n, element⟩) := by
  simp only [addLocal, EntryPoint.addLocal, bind_assoc]
  rfl

/-- The steps of a registration in place make its whole change, or none. -/
theorem Registration.call_perform (m : March) (c : Registration) :
    c.perform.call m = settle m (c.transition m) := by
  cases c with
  | array name shape element save => exact call_map_of_settle (call_registerArray ..) _
  | scalar name element =>
    apply call_map_of_settle
    rw [call_registerScalar, addScalar_eq]
  | localScalar name element =>
    apply call_map_of_settle
    rw [call_registerScalar, addLocal_eq]

namespace Registration

/-- The entity that a registration asks for. -/
def asked (m : March) : Registration → Parameter
  | array name shape element _ => .array (m.arrayOf name shape element)
  | scalar name element => .scalar ⟨name, element⟩
  | localScalar name element => .scalar ⟨name, element⟩

/-- The march with a registration carried out. -/
def add (m : March) : Registration → March
  | array name shape element save => (m.pushArray (m.arrayOf name shape element)).pushSaved name save
  | scalar name element => m.pushScalar ⟨name, element⟩
  | localScalar name element => m.pushLocal ⟨name, element⟩

/-- The shape of an array is that of the grid. With a time axis in front the array is saved or keeps
one time level more than the order. -/
def Fits (m : March) : Registration → Prop
  | array _ shape _ save => shape = m.shape.reverse ∨
      ∃ slots, shape = slots :: m.shape.reverse ∧ (save = false → m.order.toNat < slots.toNat)
  | _ => True

structure Admissible (m : March) (c : Registration) : Prop where
  fits : c.Fits m
  valid : Identifier.isValid c.name
  fresh : c.name ∉ m.entry.registeredNames

end Registration

/-- Why a registration is refused. A cause is given only when those before it do not apply. -/
inductive Refusal (m : March) : Registration → Cause → Prop where
  | axisCount {name : String} {shape : List UInt64} {element : ElementType} {save : Bool}
    (hcount : shape.length ≠ m.rank + 1 ∧ shape.length ≠ m.rank) :
    Refusal m (.array name shape element save) (.axisCount name shape.length m.rank)
  | extentMismatch {name : String} {shape : List UInt64} {element : ElementType} {save : Bool}
    {d : Dimension} {extent walked : UInt64}
    (hcount : shape.length = m.rank + 1 ∨ shape.length = m.rank)
    (hfirst : (m.walkedAxes shape).find? (fun axis => axis.2.1 != axis.2.2) =
      some (d, extent, walked)) :
    Refusal m (.array name shape element save)
      (.extentMismatch name extent.toNat d.name walked.toNat)
  | shortRing {name : String} {slots : UInt64} {element : ElementType}
    (hslots : slots.toNat ≤ m.order.toNat) :
    Refusal m (.array name (slots :: m.shape.reverse) element false)
      (.shortRing name (m.order.toNat + 1))
  | badIdentifier {c : Registration} (hfits : c.Fits m) (hname : ¬ Identifier.isValid c.name) :
    Refusal m c (.badIdentifier c.name)
  | alreadyRegistered {c : Registration} (hfits : c.Fits m) (hname : Identifier.isValid c.name)
    (htaken : c.name ∈ m.entry.registeredNames) :
    Refusal m c (.alreadyRegistered c.name m.entry.name)

theorem Configured.length_shape (hm : Configured specs m) : m.shape.length = m.rank := by
  rw [March.rank, hm.length_spaceDims, hm.shape]

/-- The axes that an array is compared over pair the extents of the grid with themselves when the
array fits. -/
theorem walkedAxes_of_fits (hm : Configured specs m) {name : String} {shape : List UInt64}
    {element : ElementType} {save : Bool} (h : (Registration.array name shape element save).Fits m) :
    (shape.length = m.rank + 1 ∨ shape.length = m.rank) ∧
      shape.drop (shape.length - m.rank) = m.shape.reverse := by
  have hlength : m.shape.reverse.length = m.rank := by
    rw [List.length_reverse, hm.length_shape]
  rcases h with rfl | ⟨slots, rfl, -⟩
  · exact ⟨.inr hlength, by rw [hlength, Nat.sub_self, List.drop_zero]⟩
  · simp [hm.length_shape]

/-- A registration that is refused is not admissible. -/
theorem Refusal.not_admissible (hm : Configured specs m) {c : Registration} {cause : Cause}
    (h : Refusal m c cause) : ¬ c.Admissible m := by
  intro hc
  cases h with
  | axisCount hcount =>
    have hlength := (walkedAxes_of_fits hm hc.fits).1
    omega
  | extentMismatch hcount hfirst =>
    have haxis := List.find?_some hfirst
    have hmem := List.mem_of_find?_eq_some hfirst
    rw [walkedAxes, (walkedAxes_of_fits hm hc.fits).2] at hmem
    obtain ⟨k, hk, hpair⟩ := List.getElem_of_mem (List.of_mem_zip hmem).2
    rw [List.getElem_zip] at hpair
    obtain ⟨rfl, rfl⟩ := Prod.mk.inj hpair
    simp at haxis
  | shortRing hslots =>
    rcases hc.fits with h | ⟨slots, h, hring⟩
    · have hlength := congrArg List.length h
      simp at hlength
    · obtain ⟨rfl, -⟩ := List.cons.inj h
      have hlt := hring rfl
      omega
  | badIdentifier _ hname => exact hname hc.valid
  | alreadyRegistered _ _ htaken => exact hc.fresh htaken

theorem checkExtents_eq (name : String) (axes : List (Dimension × UInt64 × UInt64)) :
    checkExtents name axes =
      match axes.find? (fun axis => axis.2.1 != axis.2.2) with
      | none => .ok ()
      | some (d, extent, walked) =>
        refuse (.extentMismatch name extent.toNat d.name walked.toNat) := by
  induction axes with
  | nil => rfl
  | cons axis axes ih =>
    obtain ⟨d, extent, walked⟩ := axis
    by_cases heq : extent = walked <;> simp [checkExtents, heq, ih]

/-- A ring is refused exactly when it keeps no more time levels than the order. -/
theorem checkSlots_eq (horder : m.order.toNat + 1 < 2 ^ 64) (name : String) (ringed : Bool)
    (slots : UInt64) :
    m.checkSlots name ringed slots =
      if ringed ∧ slots.toNat ≤ m.order.toNat then refuse (.shortRing name (m.order.toNat + 1))
      else .ok () := by
  obtain ⟨needed, hneeded, hvalue⟩ := Word.exists_size horder
  have hshort : slots < needed ↔ slots.toNat ≤ m.order.toNat := by
    rw [UInt64.lt_iff_toNat_lt, hvalue]
    exact Nat.lt_succ_iff
  have hadd : Word.addSize m.order 1 = .ok needed := hneeded
  unfold checkSlots
  cases ringed with
  | false => simp
  | true => simp [hadd, hshort, hvalue]

/-- The axes of the grid, and time in front of them, have different names. -/
theorem nodup_dims (hm : Configured specs m) :
    ((m.timeDim :: m.spaceDims).map Dimension.name).Nodup := by
  have hnames : (axisNames.take specs.shape.length).Sublist axisNames := List.take_sublist _ _
  have hall : ("t" :: axisNames).Nodup := by decide
  have hdims : (m.timeDim :: m.spaceDims).map Dimension.name =
      "t" :: axisNames.take specs.shape.length := by
    simp [hm.timeDim, hm.spaceDims, gridDims, Function.comp_def]
  rw [hdims]
  exact (hnames.cons_cons "t").nodup hall

/-- A shape whose extents are those of the grid has at most a time axis in front. -/
theorem shape_cases (hm : Configured specs m) {shape : List UInt64}
    (hcount : shape.length = m.rank + 1 ∨ shape.length = m.rank)
    (hpassed : (m.walkedAxes shape).find? (fun axis => axis.2.1 != axis.2.2) = none) :
    shape = m.shape.reverse ∨ ∃ slots, shape = slots :: m.shape.reverse := by
  have hwalked : shape.drop (shape.length - m.rank) = m.shape.reverse := by
    have hchecked : checkExtents "" (m.walkedAxes shape) = .ok () := by
      rw [checkExtents_eq, hpassed]
    apply checkExtents_eq_ok _ _ hchecked
    · rw [List.length_drop, ← rank]
      omega
    · rw [List.length_reverse, hm.length_shape, rank]
  rcases hcount with hcount | hcount
  · right
    cases shape with
    | nil => cases hcount
    | cons slots extents => exact ⟨slots, by simpa [hcount] using hwalked⟩
  · left
    rwa [hcount, Nat.sub_self, List.drop_zero] at hwalked

/-- A shape passes its checks exactly when it fits. -/
theorem checkShape_cases (hm : Configured specs m) (horder : m.order.toNat + 1 < 2 ^ 64)
    (name : String) (shape : List UInt64) (element : ElementType) (save : Bool) :
    (Registration.array name shape element save).Fits m ∧ m.checkShape name shape save = .ok () ∨
      ∃ cause, Refusal m (.array name shape element save) cause ∧
        m.checkShape name shape save = refuse cause := by
  have hlength := hm.length_shape
  unfold checkShape
  by_cases hcount : shape.length ≠ m.rank + 1 ∧ shape.length ≠ m.rank
  · right
    exact ⟨_, .axisCount hcount, by rw [if_pos hcount]; rfl⟩
  have hcount' : shape.length = m.rank + 1 ∨ shape.length = m.rank := by omega
  rw [if_neg hcount, checkExtents_eq, checkSlots_eq horder]
  cases hfirst : (m.walkedAxes shape).find? (fun axis => axis.2.1 != axis.2.2) with
  | some axis =>
    right
    exact ⟨_, .extentMismatch hcount' hfirst, rfl⟩
  | none =>
    rcases shape_cases hm hcount' hfirst with rfl | ⟨slots, rfl⟩
    · left
      exact ⟨.inl rfl, by simp [hlength]⟩
    · by_cases hring : save = false ∧ slots.toNat ≤ m.order.toNat
      · right
        obtain ⟨rfl, hslots⟩ := hring
        exact ⟨_, .shortRing hslots, by simp [hlength, hslots]⟩
      · left
        have hlong : save = false → m.order.toNat < slots.toNat := by
          intro hsave
          exact Nat.lt_of_not_le fun hslots => hring ⟨hsave, hslots⟩
        exact ⟨.inr ⟨slots, rfl, hlong⟩, by simpa [hlength] using hlong⟩

/-- An array of the axes of the grid, with or without time, needs only an identifier. -/
theorem arrayOf_eq (hm : Configured specs m) {shape : List UInt64}
    (hcount : shape.length = m.rank + 1 ∨ shape.length = m.rank) (name : String)
    (element : ElementType) :
    (do (← GridArray.ofDims name
        (if shape.length = m.rank + 1 then m.timeDim :: m.spaceDims else m.spaceDims)
        element).setShape (shape.map Expr.ofSize)) =
      if Identifier.isValid name then .ok (m.arrayOf name shape element)
      else refuse (.badIdentifier name) := by
  have hdims : (if shape.length = m.rank + 1 then m.timeDim :: m.spaceDims
      else m.spaceDims).length = shape.length := by
    split
    · rw [List.length_cons, ← rank]
      omega
    · rw [← rank]
      omega
  have hnames : ((if shape.length = m.rank + 1 then m.timeDim :: m.spaceDims
      else m.spaceDims).map Dimension.name).Nodup := by
    split
    · exact nodup_dims hm
    · exact (List.nodup_cons.1 (nodup_dims hm)).2
  unfold GridArray.ofDims Identifier.check
  by_cases hname : Identifier.isValid name
  · rw [if_pos hname, if_pos hname, ok_bind, GridArray.named_of_nodup _ _ hnames, ok_bind,
      GridArray.setShape, if_pos (by rw [List.length_map, GridArray.rank, hdims])]
    rfl
  · rw [if_neg hname, if_neg hname]
    rfl

namespace Registration

/-- A name that fits is claimed when it is an identifier that is free. -/
theorem claimed_cases {c : Registration} (hfits : c.Fits m) {α : Type} (f : String → Result α) :
    c.Admissible m ∧
        (do let n ← Identifier.check c.name; m.entry.claim n; f n) = f c.name ∨
      ∃ cause, Refusal m c cause ∧
        (do let n ← Identifier.check c.name; m.entry.claim n; f n) = refuse cause := by
  unfold Identifier.check EntryPoint.claim
  by_cases hname : Identifier.isValid c.name
  · simp only [if_pos hname, ok_bind]
    by_cases htaken : c.name ∈ m.entry.registeredNames
    · exact .inr ⟨_, .alreadyRegistered hfits hname htaken, by rw [if_pos htaken]; rfl⟩
    · exact .inl ⟨⟨hfits, hname, htaken⟩, by rw [if_neg htaken]; rfl⟩
  · exact .inr ⟨_, .badIdentifier hfits hname, by rw [if_neg hname]; rfl⟩

/-- Every registration is either admissible and carried out, or refused for a cause. -/
theorem transition_cases (hm : Configured specs m) (horder : m.order.toNat + 1 < 2 ^ 64)
    (c : Registration) :
    c.Admissible m ∧ c.transition m = .ok (c.add m, c.asked m) ∨
      ∃ cause, Refusal m c cause ∧ c.transition m = refuse cause := by
  cases c with
  | array name shape element save =>
    rcases checkShape_cases hm horder name shape element save with
      ⟨hfits, hshape⟩ | ⟨cause, hcause, hshape⟩
    · have hcount := (walkedAxes_of_fits hm hfits).1
      have hrequest : m.request name shape element save = do
          let n ← Identifier.check name
          return m.arrayOf n shape element := by
        unfold request Identifier.check
        rw [hshape, ok_bind, arrayOf_eq hm hcount]
        split <;> rfl
      have htransition : (array name shape element save).transition m = do
          let n ← Identifier.check name
          m.entry.claim n
          return ((m.pushArray (m.arrayOf n shape element)).pushSaved name save,
            .array (m.arrayOf n shape element)) := by
        rw [transition, addArray_eq_request, hrequest]
        simp only [EntryPoint.addArray, bind_assoc, map_bind]
        rfl
      rw [htransition]
      exact claimed_cases hfits _
    · exact .inr ⟨cause, hcause, by rw [transition, addArray_eq_request, request, hshape]; rfl⟩
  | scalar name element =>
    rw [transition, addScalar_eq, map_bind]
    simp only [map_bind]
    exact claimed_cases (c := scalar name element) trivial _
  | localScalar name element =>
    rw [transition, addLocal_eq, map_bind]
    simp only [map_bind]
    exact claimed_cases (c := localScalar name element) trivial _

end Registration

/-- A registered march stays one when a registration is carried out. -/
theorem Registered.transition (hm : Registered specs m) {c : Registration} {next : March}
    {p : Parameter} (h : c.transition m = .ok (next, p)) : Registered specs next := by
  cases c with
  | array name shape element save =>
    obtain ⟨⟨next, a⟩, hadd, h⟩ := map_eq_ok.1 h
    obtain ⟨rfl, -⟩ := Prod.mk.inj h
    exact .array hm hadd
  | scalar name element =>
    obtain ⟨⟨next, s⟩, hadd, h⟩ := map_eq_ok.1 h
    obtain ⟨rfl, -⟩ := Prod.mk.inj h
    exact .scalar hm hadd
  | localScalar name element =>
    obtain ⟨⟨next, s⟩, hadd, h⟩ := map_eq_ok.1 h
    obtain ⟨rfl, -⟩ := Prod.mk.inj h
    exact .localScalar hm hadd

/-- A call is answered and carried out, or it is refused and leaves the march as it was. -/
theorem Registered.call_cases (hm : Registered specs m) (horder : specs.order.toNat < 2 ^ 63)
    (c : Registration) :
    c.Admissible m ∧ c.perform.call m = (.ok (c.asked m), c.add m) ∧ Registered specs (c.add m) ∨
      ¬ c.Admissible m ∧ ∃ cause, Refusal m c cause ∧
        c.perform.call m = (.error (.cause cause), m) := by
  have hconfigured := hm.invariant.1
  have horder : m.order.toNat + 1 < 2 ^ 64 := by
    rw [hconfigured.order]
    omega
  rw [c.call_perform]
  rcases c.transition_cases hconfigured horder with ⟨hc, h⟩ | ⟨cause, hcause, h⟩
  · exact .inl ⟨hc, by rw [h]; rfl, hm.transition h⟩
  · exact .inr ⟨hcause.not_admissible hconfigured, cause, hcause, by rw [h]; rfl⟩

namespace Registration

def array? (m : March) : Registration → Option GridArray
  | array name shape element _ => some (m.arrayOf name shape element)
  | _ => none

def scalar? : Registration → Option Scalar
  | scalar name element => some ⟨name, element⟩
  | _ => none

def local? : Registration → Option Scalar
  | localScalar name element => some ⟨name, element⟩
  | _ => none

/-- Whether the array of a name is saved. -/
def flag? : Registration → Option (String × Bool)
  | array name _ _ save => some (name, save)
  | _ => none

/-- The march with registrations carried out in order, nothing else changed. -/
def addAll (m : March) (done : List Registration) : March :=
  { m with
    entry := { m.entry with
      arrays := m.entry.arrays ++ done.filterMap (array? m)
      scalars := m.entry.scalars ++ done.filterMap scalar?
      locals := m.entry.locals ++ done.filterMap local? }
    saved := m.saved ++ done.filterMap flag? }

theorem addAll_nil : addAll m [] = m := by simp [addAll]

theorem addAll_cons (c : Registration) (done : List Registration) :
    addAll m (c :: done) = addAll (c.add m) done := by
  have harray : array? (c.add m) = array? m := by
    funext d
    cases c <;> cases d <;> rfl
  unfold addAll
  rw [harray]
  cases c <;> simp [add, array?, scalar?, local?, flag?, pushArray, pushScalar, pushLocal, pushSaved,
    List.filterMap_cons]

theorem asked_add (c d : Registration) : d.asked (c.add m) = d.asked m := by
  cases c <;> cases d <;> rfl

end Registration

/-- Calls one after another, each on the march that the call before it left behind. -/
def session (calls : List Registration) : StateM March (List (Result Parameter)) :=
  calls.mapM fun c => c.perform.run

/-- The calls that were answered with an entity. -/
def accepted (calls : List Registration) (answers : List (Result Parameter)) : List Registration :=
  ((calls.zip answers).filter (·.2.isOk)).map Prod.fst

theorem session_cons (c : Registration) (calls : List Registration) :
    (session (c :: calls)).run m =
      ((c.perform.call m).1 :: ((session calls).run (c.perform.call m).2).1,
        ((session calls).run (c.perform.call m).2).2) := by
  unfold session
  rw [List.mapM_cons, StateT.run_bind]
  rfl

/-- A session carries out the calls that it answers with an entity, and nothing else. -/
theorem Registered.session_eq (hm : Registered specs m) (horder : specs.order.toNat < 2 ^ 63)
    (calls : List Registration) {answers : List (Result Parameter)} {last : March}
    (h : (session calls).run m = (answers, last)) :
    Registered specs last ∧ last = Registration.addAll m (accepted calls answers) ∧
      List.Forall₂ (fun c answer => ∀ p, answer = .ok p → p = c.asked m) calls answers := by
  induction calls generalizing m answers with
  | nil =>
    obtain ⟨rfl, rfl⟩ := Prod.mk.inj h
    exact ⟨hm, Registration.addAll_nil.symm, .nil⟩
  | cons c calls ih =>
    rw [session_cons] at h
    rcases hm.call_cases horder c with ⟨-, hcall, hnext⟩ | ⟨-, cause, -, hcall⟩
    · rw [hcall] at h
      obtain ⟨rfl, rfl⟩ := Prod.mk.inj h
      obtain ⟨hlast, heq, hanswers⟩ := ih hnext rfl
      refine ⟨hlast, heq.trans (Registration.addAll_cons c _).symm, .cons ?_ ?_⟩
      · intro p hp
        exact (Except.ok.inj hp).symm
      · simp only [Registration.asked_add] at hanswers
        exact hanswers
    · rw [hcall] at h
      obtain ⟨rfl, rfl⟩ := Prod.mk.inj h
      obtain ⟨hlast, heq, hanswers⟩ := ih hm rfl
      refine ⟨hlast, heq, .cons ?_ hanswers⟩
      intro p hp
      cases hp

/-- Registrations with a new march keep the names of its entities apart. Its lists hold what the
answered calls asked for, in order, and its flags those of the arrays. Any further call is answered
exactly when it is admissible; a refused one gives its cause and leaves the march as it was. -/
theorem session_atomic (hstart : ofSpecs specs = .ok m₀) (horder : specs.order.toNat < 2 ^ 63)
    {calls : List Registration} {answers : List (Result Parameter)}
    (hsession : (session calls).run m₀ = (answers, m)) :
    m.entry.registeredNames.Nodup ∧ m.saved.map Prod.fst = m.entry.arrays.map GridArray.name ∧
      m = { m₀ with
        entry := {
          name := m₀.name
          arrays := (accepted calls answers).filterMap (Registration.array? m₀)
          scalars := (accepted calls answers).filterMap Registration.scalar?
          locals := (accepted calls answers).filterMap Registration.local?
          body? := none }
        saved := (accepted calls answers).filterMap Registration.flag? } ∧
      List.Forall₂ (fun c answer => ∀ p, answer = .ok p → p = c.asked m₀) calls answers ∧
      ∀ c : Registration, c.perform.call m = settle m (c.transition m) ∧
        (c.Admissible m ∧ c.perform.call m = (.ok (c.asked m₀), c.add m) ∨
          ¬ c.Admissible m ∧ ∃ cause, Refusal m c cause ∧
            c.perform.call m = (.error (.cause cause), m)) := by
  obtain ⟨hm, heq, hanswers⟩ := (Registered.start hstart).session_eq horder calls hsession
  obtain ⟨-, hentry, hsaved⟩ := ofSpecs_eq_ok hstart
  refine ⟨hm.names, hm.invariant.2.names_eq.symm, ?_, hanswers, ?_⟩
  · rw [heq, Registration.addAll, hentry, hsaved]
    rfl
  · intro c
    have hasked : c.asked m = c.asked m₀ := by
      rw [heq]
      cases c <;> rfl
    rw [← hasked]
    refine ⟨c.call_perform m, ?_⟩
    rcases hm.call_cases horder c with ⟨hc, hcall, -⟩ | hrefused
    · exact .inl ⟨hc, hcall⟩
    · exact .inr hrefused

/-- Registrations with a ring, of which the second repeats a name and the third is too short. -/
def ringCalls : List Registration :=
  [.array "u" [4] .float64 true, .scalar "u" .int32, .array "v" [1, 4] .float64 false,
    .array "v" [2, 4] .float64 false, .localScalar "n" .float64]

/-- Two of the calls are refused. -/
theorem exists_ringCalls :
    ∃ m₀ answers m, ofSpecs ringSpecs = .ok m₀ ∧ (session ringCalls).run m₀ = (answers, m) ∧
      accepted ringCalls answers = [.array "u" [4] .float64 true, .array "v" [2, 4] .float64 false,
        .localScalar "n" .float64] ∧
      (Registration.scalar "n" .int32).perform.call m =
        (.error (.cause (.alreadyRegistered "n" "march")), m) :=
  ⟨_, _, _, rfl, rfl, rfl, rfl⟩

theorem session_atomic_ring :
    ∃ m₀ answers m, ofSpecs ringSpecs = .ok m₀ ∧ (session ringCalls).run m₀ = (answers, m) ∧
      m.saved = [("u", true), ("v", false)] ∧ m.entry.arrays.map GridArray.name = ["u", "v"] ∧
      m.entry.registeredNames.Nodup ∧
      Refusal m (.scalar "n" .int32) (.alreadyRegistered "n" "march") := by
  obtain ⟨m₀, answers, m, hstart, hsession, haccepted, hrefused⟩ := exists_ringCalls
  obtain ⟨hnodup, hkeys, heq, -, hcalls⟩ := session_atomic hstart (by decide) hsession
  have hsaved : m.saved = [("u", true), ("v", false)] := by
    rw [heq, haccepted]
    rfl
  rcases (hcalls (.scalar "n" .int32)).2 with ⟨-, hcall⟩ | ⟨-, cause, hcause, hcall⟩
  · cases hrefused.symm.trans hcall
  · have hsame := (Prod.mk.inj (hrefused.symm.trans hcall)).1
    obtain rfl := Fault.cause.inj (Except.error.inj hsame)
    exact ⟨m₀, answers, m, hstart, hsession, hsaved, by rw [← hkeys, hsaved]; rfl, hnodup, hcause⟩

end GridKernel.March
