import GridKernel.Proofs.Rings
import GridKernel.Proofs.SlotUpdates

/-! Slots in built bodies. The assignments of a body have slots for all ringed arrays; the whole
body has them exactly when the tests were registered with slots. -/
namespace GridKernel

namespace Stmt

/-- A property holds of a statement and of all statements inside it. -/
def Everywhere (Q : Stmt → Prop) (s : Stmt) : Prop := ∀ x ∈ s.nodes, Q x

variable {Q : Stmt → Prop}

@[simp] theorem everywhere_assign {target value : Expr} :
    (assign target value).Everywhere Q ↔ Q (assign target value) := by
  simp [Everywhere, nodes]

@[simp] theorem everywhere_declare {s : Scalar} : (declare s).Everywhere Q ↔ Q (declare s) := by
  simp [Everywhere, nodes]

@[simp] theorem everywhere_loop {head : LoopHead} {body : Stmt} :
    (loop head body).Everywhere Q ↔ Q (loop head body) ∧ body.Everywhere Q := by
  simp [Everywhere, nodes]

@[simp] theorem everywhere_when {c : Expr} {body : Stmt} :
    (when c body).Everywhere Q ↔ Q (when c body) ∧ body.Everywhere Q := by
  simp [Everywhere, nodes]

@[simp] theorem everywhere_ifElse {c : Expr} {s t : Stmt} :
    (ifElse c s t).Everywhere Q ↔ Q (ifElse c s t) ∧ s.Everywhere Q ∧ t.Everywhere Q := by
  simp [Everywhere, nodes, or_imp, forall_and]

@[simp] theorem everywhere_block {ss : List Stmt} :
    (block ss).Everywhere Q ↔ Q (block ss) ∧ ∀ s ∈ ss, s.Everywhere Q := by
  simp only [Everywhere, nodes, List.mem_cons, mem_nodesAll, forall_eq_or_imp]
  constructor
  · rintro ⟨h, hall⟩
    exact ⟨h, fun s hs x hx => hall x ⟨s, hs, hx⟩⟩
  · rintro ⟨h, hall⟩
    exact ⟨h, fun x ⟨s, hs, hx⟩ => hall s hs x hx⟩

theorem everywhere_nest {s : Stmt} {heads : List LoopHead}
    (hloop : ∀ head ∈ heads, ∀ body, Q (loop head body)) :
    (s.nest heads).Everywhere Q ↔ s.Everywhere Q := by
  induction heads generalizing s with
  | nil => rfl
  | cons head heads ih =>
    have hnest : s.nest (head :: heads) = (loop head s).nest heads := rfl
    rw [hnest, ih fun head hh => hloop head (by simp [hh]), everywhere_loop]
    exact and_iff_right (hloop head (by simp) s)

end Stmt

namespace March

variable {m : March} {specs : Specs}

/-- An expression that refers to no array. -/
def Flat (e : Expr) : Prop := ∀ x ∈ e.nodes, ∀ a es, x ≠ .access a es

theorem Flat.allSlotted {e : Expr} (h : Flat e) : m.AllSlotted e := by
  intro x hx
  cases x with
  | access a es => exact absurd rfl (h _ hx a es)
  | _ => trivial

/-- The statements that the loop nest puts around those of a grid point. -/
inductive Frame : Stmt → Prop where
  | block (ss : List Stmt) : Frame (.block ss)
  | declare (s : Scalar) : Frame (.declare s)
  | advance (s : Scalar) {value : Expr} (hvalue : Flat value) : Frame (.assign (.scalar s) value)
  | loop {head : LoopHead} {body : Stmt} (hlower : Flat head.bounds.lower)
    (hupper : Flat head.bounds.upper) (hcompanions : head.companions = []) :
    Frame (.loop head body)

namespace Flat

theorem int (n : Int64) : Flat (.int n) := Expr.nodes_of_leaf rfl (by simp)

theorem scalar (s : Scalar) : Flat (.scalar s) := Expr.nodes_of_leaf rfl (by simp)

theorem dim (d : Dimension) : Flat (.dim d) := Expr.nodes_of_leaf rfl (by simp)

theorem binary (op : BinaryOp) {e f : Expr} (he : Flat e) (hf : Flat f) :
    Flat (.binary op e f) := by
  intro x hx
  rcases List.mem_cons.1 hx with rfl | hx
  · simp
  · rcases List.mem_append.1 hx with hx | hx
    · exact he x hx
    · exact hf x hx

end Flat

theorem flat_timeBounds {bounds : Bounds} (h : m.timeBounds = .ok bounds) :
    Flat bounds.lower ∧ Flat bounds.upper := by
  unfold timeBounds at h
  dsimp only at h
  split at h
  · obtain ⟨w, -, h⟩ := bind_eq_ok.1 h
    obtain rfl := Except.ok.inj h
    exact ⟨Flat.int _, Flat.int _⟩
  · obtain ⟨w, -, h⟩ := bind_eq_ok.1 h
    obtain rfl := Except.ok.inj h
    exact ⟨Flat.int _, Flat.int _⟩

theorem frame_spaceHeads (hm : Configured specs m) {head : LoopHead} (hhead : head ∈ m.spaceHeads)
    (body : Stmt) : Frame (.loop head body) := by
  obtain ⟨⟨d, bounds⟩, hp, rfl⟩ := List.mem_map.1 hhead
  have hbounds := (List.of_mem_zip hp).2
  rw [hm.spaceBounds] at hbounds
  obtain ⟨extent, -, rfl⟩ := List.mem_map.1 hbounds
  exact .loop (Flat.int _) (Flat.int _) rfl

theorem frame_advanceSlots {s : Stmt} (hs : s ∈ m.advanceSlots) :
    Frame s ∧ s.nodes = [s] := by
  obtain ⟨-, n, hn, rfl⟩ := mem_advanceSlots_iff.1 hs
  have hflat : ∀ e ∈ (m.advanceSlot n).exprs, Flat e := fun e he =>
    nodes_advanceSlot (by simp) (by simp) (by simp) (by simp) hn he
  exact ⟨.advance _ (hflat _ (by simp [advanceSlot, Stmt.exprs])), rfl⟩

/-- A property of all statements around those of a grid point holds everywhere in a loop nest when
it does at the grid point. -/
theorem everywhere_loopNest {Q : Stmt → Prop} (hm : Configured specs m)
    (hframe : ∀ s, Frame s → Q s) {point body : Stmt} (h : m.loopNest point = .ok body) :
    body.Everywhere Q ↔ point.Everywhere Q := by
  obtain ⟨bounds, hbounds, h⟩ := bind_eq_ok.1 h
  obtain rfl := Except.ok.inj h
  obtain ⟨hlower, hupper⟩ := flat_timeBounds hbounds
  have hnest : (point.nest m.spaceHeads).Everywhere Q ↔ point.Everywhere Q :=
    Stmt.everywhere_nest fun head hh body => hframe _ (frame_spaceHeads hm hh body)
  have hadvance : ∀ s ∈ m.advanceSlots, s.Everywhere Q := by
    intro s hs x hx
    obtain ⟨hs, hnodes⟩ := frame_advanceSlots hs
    rw [hnodes, List.mem_singleton] at hx
    exact hx ▸ hframe s hs
  simp only [Stmt.everywhere_block, List.mem_append, List.mem_map, List.mem_singleton]
  constructor
  · rintro ⟨-, h⟩
    have htime := (h _ (.inr rfl))
    simp only [Stmt.everywhere_loop, Stmt.everywhere_block, List.mem_append,
      List.mem_singleton] at htime
    exact hnest.1 (htime.2.2 _ (.inr rfl))
  · intro hpoint
    refine ⟨hframe _ (.block _), ?_⟩
    rintro s (⟨scalar, -, rfl⟩ | rfl)
    · exact Stmt.everywhere_declare.2 (hframe _ (.declare _))
    · refine Stmt.everywhere_loop.2 ⟨hframe _ (.loop hlower hupper rfl), ?_⟩
      refine Stmt.everywhere_block.2 ⟨hframe _ (.block _), fun s hs => ?_⟩
      rcases List.mem_append.1 hs with hs | hs
      · exact hadvance s hs
      · rw [List.mem_singleton.1 hs]
        exact hnest.2 hpoint

theorem isRinged_eq_false (h : m.hasRing = false) (name : String) : m.isRinged name = false := by
  unfold isRinged
  cases hfind : m.saved.find? (·.1 == name) with
  | none => rfl
  | some s =>
    have hnot := List.any_eq_false.1 h s (List.mem_of_find?_eq_some hfind)
    simpa using hnot

theorem hasRing_of_isRinged {name : String} (h : m.isRinged name) : m.hasRing := by
  cases hring : m.hasRing with
  | true => rfl
  | false =>
    rw [isRinged_eq_false hring] at h
    cases h

theorem toRing_slotted {e e' : Expr} (h : m.toRing e = .ok e') : m.AllSlotted e' := by
  unfold toRing at h
  split at h
  · exact toSlots_slotted h
  · rename_i hring
    intro x _
    cases x with
    | access a es =>
      intro hringed
      rw [isRinged_eq_false (by simpa using hring)] at hringed
      cases hringed
    | _ => trivial

/-- A resolved equation has slots on both sides. -/
theorem resolve_slotted {eqn : Equation} {s : Stmt} (h : m.resolve eqn = .ok s) :
    ∃ target value, s = .assign target value ∧ m.AllSlotted target ∧ m.AllSlotted value := by
  have hside : ∀ {e e' : Expr}, m.resolveExpr e = .ok e' → m.AllSlotted e' := by
    intro e e' he
    obtain ⟨f, hf, he⟩ := bind_eq_ok.1 he
    obtain rfl := Except.ok.inj he
    exact (allSlotted_replace m.toCounters_renamesAxes f).2 (toRing_slotted hf)
  obtain ⟨target, htarget, h⟩ := bind_eq_ok.1 h
  obtain ⟨value, hvalue, h⟩ := bind_eq_ok.1 h
  obtain rfl := Except.ok.inj h
  exact ⟨target, value, rfl, hside htarget, hside hvalue⟩

theorem allSlotted_equals {e f : Expr} :
    m.AllSlotted (e.equals f) ↔ m.AllSlotted e ∧ m.AllSlotted f := by
  simp [AllSlotted, Expr.equals, Expr.nodes, Slotted, or_imp, forall_and]

/-- The expressions that a statement holds itself have slots. -/
def HoldsSlots (m : March) (s : Stmt) : Prop := ∀ e ∈ s.exprs, m.AllSlotted e

/-- The sides of an assignment have slots. -/
def AssignsSlots (m : March) (s : Stmt) : Prop :=
  ∀ eqn, s.assignment? = some eqn → m.AllSlotted eqn.lhs ∧ m.AllSlotted eqn.rhs

@[simp] theorem holdsSlots_assign {target value : Expr} :
    m.HoldsSlots (.assign target value) ↔ m.AllSlotted target ∧ m.AllSlotted value := by
  simp [HoldsSlots, Stmt.exprs]

@[simp] theorem holdsSlots_when {c : Expr} {body : Stmt} :
    m.HoldsSlots (.when c body) ↔ m.AllSlotted c := by
  simp [HoldsSlots, Stmt.exprs]

@[simp] theorem holdsSlots_ifElse {c : Expr} {s t : Stmt} :
    m.HoldsSlots (.ifElse c s t) ↔ m.AllSlotted c := by
  simp [HoldsSlots, Stmt.exprs]

theorem HoldsSlots.assignsSlots {s : Stmt} (h : m.HoldsSlots s) : m.AssignsSlots s := by
  intro eqn heqn
  cases s with
  | assign target value =>
    obtain rfl := Option.some.inj heqn
    exact holdsSlots_assign.1 h
  | _ => cases heqn

/-- The statements around those of a grid point refer to no array. -/
theorem Frame.holdsSlots {s : Stmt} (h : Frame s) : m.HoldsSlots s := by
  cases h with
  | block ss => simp [HoldsSlots, Stmt.exprs]
  | declare s => simp [HoldsSlots, Stmt.exprs]
  | advance s hvalue => exact holdsSlots_assign.2 ⟨(Flat.scalar s).allSlotted, hvalue.allSlotted⟩
  | loop hlower hupper hcompanions =>
    simp [HoldsSlots, Stmt.exprs, hcompanions, hlower.allSlotted, hupper.allSlotted]

theorem resolved_slots {eqn : Equation} {s : Stmt} (h : m.resolve eqn = .ok s) :
    s.Everywhere m.HoldsSlots := by
  obtain ⟨target, value, rfl, htarget, hvalue⟩ := resolve_slotted h
  simp [htarget, hvalue]

theorem Everywhere.assignsSlots {s : Stmt} (h : s.Everywhere m.HoldsSlots) :
    s.Everywhere m.AssignsSlots := fun x hx => (h x hx).assignsSlots

/-- The test of a guarded assignment was registered with slots. -/
def TestsSlots (m : March) (g : Guarded) : Prop :=
  m.AllSlotted g.condition.lhs ∧ m.AllSlotted g.condition.rhs

/-- A guarded assignment has slots on the sides of its assignments, and everywhere when its test was
registered with slots. -/
theorem guarded_slots {g : Guarded} {s : Stmt} (h : m.guardedStmt g = .ok s) :
    s.Everywhere m.AssignsSlots ∧ (s.Everywhere m.HoldsSlots ↔ m.TestsSlots g) := by
  have htest : m.AllSlotted ((g.condition.lhs.replace m.toCounters).equals
      (g.condition.rhs.replace m.toCounters)) ↔ m.TestsSlots g := by
    rw [allSlotted_equals, allSlotted_replace m.toCounters_renamesAxes,
      allSlotted_replace m.toCounters_renamesAxes]
    rfl
  have hbranch : ∀ c body other, m.AssignsSlots (.when c body) ∧
      m.AssignsSlots (.ifElse c body other) := by simp [AssignsSlots, Stmt.assignment?]
  obtain ⟨thenBody, hthen, h⟩ := bind_eq_ok.1 h
  have hthenSlots := resolved_slots hthen
  split at h
  · obtain rfl := Except.ok.inj h
    rw [Stmt.everywhere_when, Stmt.everywhere_when, holdsSlots_when, htest]
    exact ⟨⟨(hbranch _ _ thenBody).1, Everywhere.assignsSlots hthenSlots⟩, and_iff_left hthenSlots⟩
  · obtain ⟨elseBody, helse, h⟩ := bind_eq_ok.1 h
    obtain rfl := Except.ok.inj h
    have helseSlots := resolved_slots helse
    rw [Stmt.everywhere_ifElse, Stmt.everywhere_ifElse, holdsSlots_ifElse, htest]
    exact ⟨⟨(hbranch _ _ _).2, Everywhere.assignsSlots hthenSlots,
      Everywhere.assignsSlots helseSlots⟩, and_iff_left ⟨hthenSlots, helseSlots⟩⟩

theorem guards_slots {gs : List Guarded} {ss : List Stmt} (h : gs.mapM m.guardedStmt = .ok ss) :
    (∀ s ∈ ss, s.Everywhere m.AssignsSlots) ∧
      ((∀ s ∈ ss, s.Everywhere m.HoldsSlots) ↔ ∀ g ∈ gs, m.TestsSlots g) := by
  have hall := (mapM_eq_ok.1 h).imp fun _ _ hs => guarded_slots hs
  refine ⟨fun s hs => ?_, fun hholds g hg => ?_, fun htests s hs => ?_⟩
  · obtain ⟨g, -, hslots, -⟩ := forall₂_mem_right hall hs
    exact hslots
  · obtain ⟨s, hs, -, hiff⟩ := forall₂_mem_left hall hg
    exact hiff.1 (hholds s hs)
  · obtain ⟨g, hg, -, hiff⟩ := forall₂_mem_right hall hs
    exact hiff.2 (htests g hg)

/-- The assignments of a built body have slots; the whole body has them exactly when the tests of
all guarded assignments were registered with slots. -/
theorem slotted_iff_tests (hm : Registered specs m) {symbols : List String}
    {equations : List Equation} {rows : List (List Expr)}
    (hsource : m.source? = some (.equations symbols equations rows)) {e : EntryPoint}
    (he : m.entryPoint = .ok e) :
    ∃ body, e.body? = some body ∧ body.Everywhere m.AssignsSlots ∧
      (body.Everywhere m.HoldsSlots ↔ ∀ g ∈ m.before ++ m.after, m.TestsSlots g) := by
  have hconfigured := hm.invariant.1
  unfold entryPoint at he
  rw [hsource] at he
  obtain ⟨body, hbody, he⟩ := bind_eq_ok.1 he
  obtain rfl := Except.ok.inj he
  refine ⟨body, rfl, ?_⟩
  unfold build at hbody
  split at hbody
  · cases hbody
  obtain ⟨before, hbefore, hbody⟩ := bind_eq_ok.1 hbody
  obtain ⟨updates, hupdates, hbody⟩ := bind_eq_ok.1 hbody
  obtain ⟨after, hafter, hbody⟩ := bind_eq_ok.1 hbody
  have hupdateSlots : ∀ s ∈ updates, s.Everywhere m.HoldsSlots := by
    intro s hs
    obtain ⟨⟨eqn, row⟩, -, hp⟩ := forall₂_mem_right (mapM_eq_ok.1 hupdates) hs
    dsimp only [instantiate] at hp
    split at hp
    · exact resolved_slots hp
    · cases hp
  obtain ⟨hbeforeAssigns, hbeforeIff⟩ := guards_slots hbefore
  obtain ⟨hafterAssigns, hafterIff⟩ := guards_slots hafter
  have hblockHolds : ∀ ss, m.HoldsSlots (.block ss) := by simp [HoldsSlots, Stmt.exprs]
  have hblockAssigns : ∀ ss, m.AssignsSlots (.block ss) := fun ss => (hblockHolds ss).assignsSlots
  rw [everywhere_loopNest hconfigured (fun s hs => hs.holdsSlots) hbody,
    everywhere_loopNest hconfigured (fun s hs => hs.holdsSlots.assignsSlots) hbody,
    Stmt.everywhere_block, Stmt.everywhere_block]
  simp only [List.mem_append, or_imp, forall_and, ← hbeforeIff, ← hafterIff]
  refine ⟨⟨hblockAssigns _, ⟨hbeforeAssigns, fun s hs => ?_⟩, hafterAssigns⟩, ?_⟩
  · exact Everywhere.assignsSlots (hupdateSlots s hs)
  · constructor
    · rintro ⟨-, ⟨hb, -⟩, ha⟩
      exact ⟨hb, ha⟩
    · rintro ⟨hb, ha⟩
      exact ⟨hblockHolds _, ⟨hb, hupdateSlots⟩, ha⟩

def ringSpecs : Specs := { name := "march", steps := 3, shape := [4], order := 1 }

/-- A line of cells with two time levels. -/
def ringLine : GridArray :=
  ⟨"v", .float64, [⟨"t", .time⟩, ⟨"x", .spatial⟩], [.int 2, .int 4], [.none, .none], .external⟩

/-- A march with a ring of two levels. -/
theorem exists_ring : ∃ m, Registered ringSpecs m ∧ m.isRinged ringLine.name ∧ m.order = 1 ∧
    m.forward :=
  ⟨_, .array (.start rfl) (rfl : addArray _ "v" [2, 4] .float64 false = .ok _), rfl, rfl, rfl⟩

/-- The current level of a ringed line. -/
def ringLevel : Expr := .access ringLine [.dim ⟨"t", .time⟩, .dim ⟨"x", .spatial⟩]

def ringTest : Guarded := ⟨⟨ringLevel, .int 0⟩, ⟨ringLevel, .int 1⟩, none⟩

/-- A march with a ring and a test at the current level. -/
theorem exists_ringTest :
    ∃ m e, Registered ringSpecs m ∧ m.source? = some (.equations [] [] []) ∧ m.before = [ringTest] ∧
      m.isRinged "v" ∧ m.entryPoint = .ok e := by
  have hm : Registered ringSpecs _ := .source (.equations [] [] []) (.guarded ringTest true
    (.array (.start rfl) (rfl : addArray _ "v" [2, 4] .float64 false = .ok _)))
  exact ⟨_, _, hm, rfl, rfl, rfl, rfl⟩

theorem slotted_iff_tests_level :
    ∃ m e body, Registered ringSpecs m ∧ m.entryPoint = .ok e ∧ e.body? = some body ∧
      body.Everywhere m.AssignsSlots ∧ ¬ body.Everywhere m.HoldsSlots := by
  obtain ⟨m, e, hm, hsource, hbefore, hring, he⟩ := exists_ringTest
  obtain ⟨body, hbody, hassigns, hiff⟩ := slotted_iff_tests hm hsource he
  refine ⟨m, e, body, hm, he, hbody, hassigns, fun hholds => ?_⟩
  have htest := (hiff.1 hholds ringTest (by simp [hbefore])).1
  have hnode : ringLevel ∈ ringTest.condition.lhs.nodes := by
    simp [ringTest, ringLevel, Expr.nodes]
  obtain ⟨k, -, hk⟩ := htest ringLevel hnode hring 0 _ _ rfl rfl rfl
  cases hk

end March
end GridKernel
