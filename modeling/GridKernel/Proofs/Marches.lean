import Mathlib.Data.List.Nodup
import GridKernel.March.Nest
import GridKernel.Proofs.EntryPoints

/-! Registered marches. Whatever is registered with a march, its axes and loops stay those of its
configuration, and every registered array spans the grid. -/
namespace GridKernel.March

/-- The marches that a configuration and any registrations lead to. -/
inductive Registered (specs : Specs) : March → Prop where
  | start {m : March} (h : ofSpecs specs = .ok m) : Registered specs m
  | array {m m' : March} {a : GridArray} {name : String} {shape : List UInt64}
    {element : ElementType} {save : Bool} (hm : Registered specs m)
    (h : m.addArray name shape element save = .ok (m', a)) : Registered specs m'
  | scalar {m m' : March} {s : Scalar} {name : String} {element : ElementType}
    (hm : Registered specs m) (h : m.addScalar name element = .ok (m', s)) : Registered specs m'
  | localScalar {m m' : March} {s : Scalar} {name : String} {element : ElementType}
    (hm : Registered specs m) (h : m.addLocal name element = .ok (m', s)) : Registered specs m'
  | guarded {m : March} (g : Guarded) (first : Bool) (hm : Registered specs m) :
    Registered specs (m.addGuarded g first)
  | source {m : March} (s : Source) (hm : Registered specs m) : Registered specs (m.withSource s)

def gridDims (rank : Nat) : List Dimension := (axisNames.take rank).map (⟨·, .spatial⟩)

def gridCounters (rank : Nat) : List Dimension :=
  (List.range rank).map fun k => ⟨s!"i{k + 1}", .spatial⟩

/-- The bounds of the loops over the cells at least a border away from the ends of the grid. -/
def gridBounds (specs : Specs) : List Bounds :=
  specs.shape.reverse.map fun extent => ⟨.ofSize specs.border, .ofSize (extent - specs.border), 1⟩

/-- The axes and loops of a march are those of its configuration. -/
structure Configured (specs : Specs) (m : March) : Prop where
  rank : 0 < specs.shape.length ∧ specs.shape.length ≤ maxRank
  border : ∀ extent ∈ specs.shape, 2 * specs.border.toNat ≤ extent.toNat
  timeDim : m.timeDim = ⟨"t", .time⟩
  spaceDims : m.spaceDims = gridDims specs.shape.length
  spaceCounters : m.spaceCounters = gridCounters specs.shape.length
  timeCounter : m.timeCounter = ⟨s!"i{specs.shape.length + 1}", .time⟩
  spaceBounds : m.spaceBounds = gridBounds specs
  steps : m.steps = specs.steps
  forward : m.forward = specs.forward
  order : m.order = specs.order
  shape : m.shape = specs.shape

/-- An array of a march spans the grid; with a time axis in front it has enough slots. -/
structure IsParameter (specs : Specs) (a : GridArray) (save : Bool) : Prop where
  halo : a.halo = a.dims.map fun _ => .none
  shape : (a.dims = gridDims specs.shape.length ∧
      a.shape = specs.shape.reverse.map Expr.ofSize) ∨
    ∃ slots : UInt64, a.dims = ⟨"t", .time⟩ :: gridDims specs.shape.length ∧
      a.shape = .ofSize slots :: specs.shape.reverse.map Expr.ofSize ∧
      (save = false → specs.order.toNat + 1 ≤ slots.toNat)

/-- The registered arrays of a march and which of them are saved. -/
structure Parameters (specs : Specs) (m : March) : Prop where
  arrays : List.Forall₂ (fun a s => a.name = s.1 ∧ IsParameter specs a s.2) m.entry.arrays m.saved
  names : (m.saved.map Prod.fst).Nodup

theorem tooSmall?_eq_none {border : UInt64} {shape : List UInt64}
    (h : tooSmall? border shape = .ok none) :
    ∀ extent ∈ shape, 2 * border.toNat ≤ extent.toNat := by
  induction shape with
  | nil => simp
  | cons extent rest ih =>
    unfold tooSmall? at h
    obtain ⟨w, hw, h⟩ := bind_eq_ok.1 h
    have hwidth : w.toNat = 2 * border.toNat := Word.size_eq_ok hw
    split at h
    · cases h
    · rename_i hle
      have hle : w.toNat ≤ extent.toNat := UInt64.le_iff_toNat_le.1 (UInt64.not_lt.1 hle)
      intro e he
      rcases List.mem_cons.1 he with rfl | he
      · omega
      · exact ih h e he

theorem spatial_eq_ok {name : String} {d : Dimension} (h : Dimension.spatial name = .ok d) :
    d = ⟨name, .spatial⟩ := by
  obtain ⟨n, hn, hd⟩ := bind_eq_ok.1 h
  obtain ⟨-, rfl⟩ := Identifier.isValid_of_check hn
  exact (Except.ok.inj hd).symm

theorem time_eq_ok {name : String} {d : Dimension} (h : Dimension.time name = .ok d) :
    d = ⟨name, .time⟩ := by
  obtain ⟨n, hn, hd⟩ := bind_eq_ok.1 h
  obtain ⟨-, rfl⟩ := Identifier.isValid_of_check hn
  exact (Except.ok.inj hd).symm

theorem mapM_spatial_eq_ok {α : Type} {f : α → String} {xs : List α} {ds : List Dimension}
    (h : xs.mapM (fun x => Dimension.spatial (f x)) = .ok ds) :
    ds = xs.map fun x => ⟨f x, .spatial⟩ := by
  have hds := (mapM_eq_ok.1 h).imp fun _ _ hd => spatial_eq_ok hd
  rw [← List.map_id ds, eq_comm, map_eq_map_iff_forall₂]
  exact hds.imp fun _ _ hd => hd.symm

/-- A configuration that is accepted sets up its axes and loops, with nothing registered. -/
theorem ofSpecs_eq_ok {specs : Specs} {m : March} (h : ofSpecs specs = .ok m) :
    Configured specs m ∧ m.entry = .empty m.name ∧ m.saved = [] := by
  unfold ofSpecs at h
  dsimp only at h
  split at h
  · cases h
  · rename_i hrank
    obtain ⟨small?, hsmall, h⟩ := bind_eq_ok.1 h
    cases small? with
    | some extent => cases h
    | none =>
      obtain ⟨name, -, h⟩ := bind_eq_ok.1 h
      obtain ⟨timeDim, htime, h⟩ := bind_eq_ok.1 h
      obtain ⟨spaceDims, hdims, h⟩ := bind_eq_ok.1 h
      obtain ⟨spaceCounters, hcounters, h⟩ := bind_eq_ok.1 h
      obtain ⟨timeCounter, htimeCounter, h⟩ := bind_eq_ok.1 h
      obtain rfl := Except.ok.inj h
      refine ⟨?_, rfl, rfl⟩
      exact
        { rank := by omega
          border := tooSmall?_eq_none hsmall
          timeDim := time_eq_ok htime
          spaceDims := mapM_spatial_eq_ok hdims
          spaceCounters := mapM_spatial_eq_ok hcounters
          timeCounter := time_eq_ok htimeCounter
          spaceBounds := rfl
          steps := rfl
          forward := rfl
          order := rfl
          shape := rfl }

theorem checkExtents_eq_ok {name : String} {ds : List Dimension} {extents walked : List UInt64}
    (hextents : extents.length = ds.length) (hwalked : walked.length = ds.length)
    (h : checkExtents name (ds.zip (extents.zip walked)) = .ok ()) : extents = walked := by
  induction ds generalizing extents walked with
  | nil => rw [List.length_eq_zero_iff.1 hextents, List.length_eq_zero_iff.1 hwalked]
  | cons d ds ih =>
    cases extents with
    | nil => cases hextents
    | cons extent extents =>
      cases walked with
      | nil => cases hwalked
      | cons w walked =>
        simp only [List.zip_cons_cons, checkExtents] at h
        split at h
        · rename_i heq
          rw [heq, ih (by simpa using hextents) (by simpa using hwalked) h]
        · cases h

theorem ofDims_eq_ok {name : String} {dims : List Dimension} {element : ElementType}
    {a : GridArray} (h : GridArray.ofDims name dims element = .ok a) :
    a = ⟨name, element, dims, dims.map Dimension.extent, dims.map fun _ => .none, .external⟩ := by
  unfold GridArray.ofDims GridArray.named at h
  obtain ⟨n, hn, ha⟩ := bind_eq_ok.1 h
  obtain ⟨-, rfl⟩ := Identifier.isValid_of_check hn
  split at ha
  · cases ha
  · exact (Except.ok.inj ha).symm

theorem setShape_eq_ok {a b : GridArray} {shape : List Expr} (h : a.setShape shape = .ok b) :
    b = { a with shape } := by
  unfold GridArray.setShape at h
  split at h
  · exact (Except.ok.inj h).symm
  · cases h

theorem Configured.length_spaceDims {specs : Specs} {m : March} (h : Configured specs m) :
    m.spaceDims.length = specs.shape.length := by
  have hrank := h.rank.2
  rw [h.spaceDims, gridDims, List.length_map, List.length_take, ← maxRank]
  omega

theorem checkSlots_eq_ok {m : March} {name : String} {slots : UInt64}
    (h : m.checkSlots name true slots = .ok ()) : m.order.toNat + 1 ≤ slots.toNat := by
  obtain ⟨needed, hneeded, h⟩ := bind_eq_ok.1 h
  have hvalue : needed.toNat = m.order.toNat + 1 := Word.size_eq_ok hneeded
  split at h
  · cases h
  · rename_i hlt
    have hle := UInt64.le_iff_toNat_le.1 (UInt64.not_lt.1 hlt)
    omega

/-- The array that a registration makes spans the grid. -/
theorem addArray_eq_ok {specs : Specs} {m m' : March} {a : GridArray} {name : String}
    {shape : List UInt64} {element : ElementType} {save : Bool} (hm : Configured specs m)
    (h : m.addArray name shape element save = .ok (m', a)) :
    a.name = name ∧ IsParameter specs a save ∧ name ∉ m.entry.registeredNames ∧
      m' = { m with
        entry := { m.entry with arrays := m.entry.arrays ++ [a] }
        saved := m.saved ++ [(name, save)] } := by
  have hrank : m.rank = specs.shape.length := hm.length_spaceDims
  unfold addArray at h
  dsimp only at h
  split at h
  · cases h
  · rename_i hcount
    obtain ⟨_, hextents, h⟩ := bind_eq_ok.1 h
    obtain ⟨_, hslots, h⟩ := bind_eq_ok.1 h
    obtain ⟨b, hb, h⟩ := bind_eq_ok.1 h
    obtain ⟨c, hc, h⟩ := bind_eq_ok.1 h
    obtain ⟨entry, hentry, h⟩ := bind_eq_ok.1 h
    obtain ⟨_, hclaim, hentry⟩ := bind_eq_ok.1 hentry
    obtain rfl := Except.ok.inj hentry
    obtain ⟨rfl, rfl⟩ := Prod.mk.inj (Except.ok.inj h)
    have hwalked := checkExtents_eq_ok
      (by rw [List.length_drop, ← rank, hrank]; omega)
      (by rw [List.length_reverse, hm.shape, hm.length_spaceDims]) hextents
    rw [hm.shape] at hwalked
    obtain rfl := ofDims_eq_ok hb
    obtain rfl := setShape_eq_ok hc
    refine ⟨rfl, ⟨rfl, ?_⟩, EntryPoint.claim_eq_ok.1 hclaim, rfl⟩
    by_cases htimed : shape.length = m.rank + 1
    · right
      cases shape with
      | nil => cases htimed
      | cons slots extents =>
        have hdrop : extents = specs.shape.reverse := by
          rw [← hwalked]
          simp [htimed]
        refine ⟨slots, ?_, by simp [hdrop], ?_⟩
        · simp only [if_pos htimed, hm.timeDim, hm.spaceDims]
        · intro hsave
          subst hsave
          simp only [htimed, decide_true, Bool.not_false, Bool.and_true] at hslots
          rw [← hm.order]
          exact checkSlots_eq_ok hslots
    · left
      have hdrop : shape = specs.shape.reverse := by
        rw [← hwalked]
        simp [show shape.length = m.rank by omega]
      exact ⟨(if_neg htimed).trans hm.spaceDims, by rw [hdrop]⟩

theorem Parameters.names_eq {specs : Specs} {m : March} (h : Parameters specs m) :
    m.entry.arrays.map GridArray.name = m.saved.map Prod.fst :=
  map_eq_map_iff_forall₂.2 (h.arrays.imp fun _ _ hs => hs.1)

/-- A registration keeps the axes and loops, and what is known of the registered arrays. -/
theorem Registered.step {specs : Specs} {m m' : March} {a : GridArray} {name : String}
    {shape : List UInt64} {element : ElementType} {save : Bool}
    (hm : Configured specs m) (hp : Parameters specs m)
    (h : m.addArray name shape element save = .ok (m', a)) :
    Configured specs m' ∧ Parameters specs m' := by
  obtain ⟨rfl, hparameter, hfresh, rfl⟩ := addArray_eq_ok hm h
  refine ⟨{ hm with }, ?_, ?_⟩
  · exact List.rel_append hp.arrays (.cons ⟨rfl, hparameter⟩ .nil)
  · rw [List.map_append, List.nodup_append]
    refine ⟨hp.names, by simp, ?_⟩
    rintro n hn _ hn' rfl
    rw [← hp.names_eq] at hn
    obtain rfl := List.mem_singleton.1 hn'
    exact hfresh (by simp [EntryPoint.registeredNames, hn])

/-- A scalar is registered under a valid name that it claims. -/
theorem registers_scalar (add : EntryPoint → Scalar → EntryPoint) {m m' : March} {s : Scalar}
    {name : String} {element : ElementType}
    (h : (do
      let s : Scalar := ⟨← Identifier.check name, element⟩
      let entry ← (do m.entry.claim s.name; return add m.entry s)
      return ({ m with entry := entry }, s)) = (.ok (m', s) : Result (March × Scalar))) :
    s.name = name ∧ name ∉ m.entry.registeredNames ∧ m' = { m with entry := add m.entry s } := by
  obtain ⟨n, hname, h⟩ := bind_eq_ok.1 h
  obtain ⟨entry, hentry, h⟩ := bind_eq_ok.1 h
  obtain ⟨_, hclaim, hentry⟩ := bind_eq_ok.1 hentry
  obtain rfl := Except.ok.inj hentry
  obtain ⟨rfl, rfl⟩ := Prod.mk.inj (Except.ok.inj h)
  obtain ⟨-, rfl⟩ := Identifier.isValid_of_check hname
  exact ⟨rfl, EntryPoint.claim_eq_ok.1 hclaim, rfl⟩

theorem addScalar_eq_ok {m m' : March} {s : Scalar} {name : String} {element : ElementType}
    (h : m.addScalar name element = .ok (m', s)) :
    s.name = name ∧ name ∉ m.entry.registeredNames ∧
      m' = { m with entry := { m.entry with scalars := m.entry.scalars ++ [s] } } :=
  registers_scalar (fun e s => { e with scalars := e.scalars ++ [s] }) h

theorem addLocal_eq_ok {m m' : March} {s : Scalar} {name : String} {element : ElementType}
    (h : m.addLocal name element = .ok (m', s)) :
    s.name = name ∧ name ∉ m.entry.registeredNames ∧
      m' = { m with entry := { m.entry with locals := m.entry.locals ++ [s] } } :=
  registers_scalar (fun e s => { e with locals := e.locals ++ [s] }) h

/-- Every registered march has the axes and loops of its configuration. -/
theorem Registered.invariant {specs : Specs} {m : March} (h : Registered specs m) :
    Configured specs m ∧ Parameters specs m := by
  induction h with
  | start h =>
    obtain ⟨hm, hentry, hsaved⟩ := ofSpecs_eq_ok h
    exact ⟨hm, by rw [hentry, hsaved]; exact .nil, by simp [hsaved]⟩
  | array _ h ih => exact Registered.step ih.1 ih.2 h
  | scalar _ h ih =>
    obtain ⟨-, -, rfl⟩ := addScalar_eq_ok h
    exact ⟨{ ih.1 with }, { ih.2 with }⟩
  | localScalar _ h ih =>
    obtain ⟨-, -, rfl⟩ := addLocal_eq_ok h
    exact ⟨{ ih.1 with }, { ih.2 with }⟩
  | guarded g first _ ih =>
    unfold addGuarded
    split
    · exact ⟨{ ih.1 with }, { ih.2 with }⟩
    · exact ⟨{ ih.1 with }, { ih.2 with }⟩
  | source s _ ih => exact ⟨{ ih.1 with }, { ih.2 with }⟩

/-- No name is registered twice. -/
theorem Registered.names {specs : Specs} {m : March} (h : Registered specs m) :
    m.entry.registeredNames.Nodup := by
  induction h with
  | start h =>
    obtain ⟨-, hentry, -⟩ := ofSpecs_eq_ok h
    rw [hentry]
    exact List.nodup_nil
  | array hm h ih =>
    obtain ⟨rfl, -, hfresh, rfl⟩ := addArray_eq_ok hm.invariant.1 h
    exact (EntryPoint.perm_addArray _ _).nodup_iff.2 (List.nodup_cons.2 ⟨hfresh, ih⟩)
  | scalar _ h ih =>
    obtain ⟨rfl, hfresh, rfl⟩ := addScalar_eq_ok h
    exact (EntryPoint.perm_addScalar _ _).nodup_iff.2 (List.nodup_cons.2 ⟨hfresh, ih⟩)
  | localScalar _ h ih =>
    obtain ⟨rfl, hfresh, rfl⟩ := addLocal_eq_ok h
    exact (EntryPoint.perm_addLocal _ _).nodup_iff.2 (List.nodup_cons.2 ⟨hfresh, ih⟩)
  | guarded g first _ ih =>
    unfold addGuarded
    split <;> exact ih
  | source s _ ih => exact ih

/-- A name is ringed when an array of that name is registered and not saved. -/
theorem Parameters.isRinged_iff {specs : Specs} {m : March} (h : Parameters specs m)
    {name : String} : m.isRinged name ↔ (name, false) ∈ m.saved := by
  unfold isRinged
  cases hfind : m.saved.find? (·.1 == name) with
  | none =>
    have hnone := List.find?_eq_none.1 hfind (name, false)
    simpa using hnone
  | some s =>
    have hname : s.1 = name := by simpa using List.find?_some hfind
    have hs := List.mem_of_find?_eq_some hfind
    constructor
    · intro hsaved
      have heq : s = (name, false) := Prod.ext hname (by simpa using hsaved)
      rwa [← heq]
    · intro hmem
      have heq := List.inj_on_of_nodup_map h.names hs hmem hname
      simp [heq]

/-- A ringed array has enough slots. -/
theorem Parameters.ringed {specs : Specs} {m : March} (h : Parameters specs m) {a : GridArray}
    (ha : a ∈ m.entry.arrays) (hring : m.isRinged a.name) : IsParameter specs a false := by
  obtain ⟨s, hs, hname, hparameter⟩ := forall₂_mem_left h.arrays ha
  have hsaved := List.inj_on_of_nodup_map h.names hs (h.isRinged_iff.1 hring) hname.symm
  rwa [hsaved] at hparameter

end GridKernel.March
