import GridKernel.Proofs.Cells
import GridKernel.Proofs.EntryPoints
import GridKernel.Proofs.Levels

/-! Well-formed expressions. References to levels that a ring keeps, at offsets along the axes of at
most the border, are resolved to indices that stay within the extents of every array of a march. -/
namespace GridKernel.March

open Machine

variable {m : March} {specs : Specs}

/-- An index on an axis of the grid is the axis plus a literal of magnitude at most the border. -/
def Specs.Near (specs : Specs) (e : Expr) (d : Dimension) : Prop :=
  ∃ s, e.offset? = .ok (some (d, s)) ∧ s.toInt.natAbs ≤ specs.border.toNat

/-- The indices of a reference are near a grid point, at a level that a ring keeps. -/
inductive Reference (specs : Specs) (m : March) : List Dimension → List Expr → Prop where
  | spatial {es : List Expr} (h : List.Forall₂ specs.Near es m.spaceDims) :
    Reference specs m m.spaceDims es
  | timed {e : Expr} {k : Int64} {es : List Expr} (he : e.offset? = .ok (some (m.timeDim, k)))
    (hk : m.InRing k) (h : List.Forall₂ specs.Near es m.spaceDims) :
    Reference specs m (m.timeDim :: m.spaceDims) (e :: es)

/-- The registered scalars, value parameters and locals. -/
def valued (m : March) : List Scalar := m.entry.scalars ++ m.entry.locals

/-- Only numbers, registered scalars, axes and references near a grid point stand in an expression.
-/
inductive WellFormed (specs : Specs) (m : March) : Expr → Prop where
  | int (n : Int64) : WellFormed specs m (.int n)
  | float (x : Binary64) : WellFormed specs m (.float x)
  | scalar {s : Scalar} (hs : s ∈ m.valued) : WellFormed specs m (.scalar s)
  | time : WellFormed specs m (.dim m.timeDim)
  | space {d : Dimension} (hd : d ∈ m.spaceDims) : WellFormed specs m (.dim d)
  | neg {e : Expr} (he : WellFormed specs m e) : WellFormed specs m (.neg e)
  | binary {l r : Expr} (op : BinaryOp) (hl : WellFormed specs m l) (hr : WellFormed specs m r) :
    WellFormed specs m (.binary op l r)
  | access {a : GridArray} {es : List Expr} (ha : a ∈ m.entry.arrays)
    (hes : Reference specs m a.dims es) : WellFormed specs m (.access a es)

/-- An assignment sets a registered scalar or a cell near a grid point. -/
structure WellFormedEquation (specs : Specs) (m : March) (eqn : Equation) : Prop where
  target : WellFormed specs m eqn.lhs
  place : (∃ s, eqn.lhs = .scalar s) ∨ ∃ a es, eqn.lhs = .access a es
  value : WellFormed specs m eqn.rhs

/-- A guarded assignment tests no array. -/
structure WellFormedGuard (specs : Specs) (m : March) (g : Guarded) : Prop where
  left : WellFormed specs m g.condition.lhs ∧ Flat g.condition.lhs
  right : WellFormed specs m g.condition.rhs ∧ Flat g.condition.rhs
  thenAssign : WellFormedEquation specs m g.thenAssign
  elseAssign : ∀ eqn, g.elseAssign? = some eqn → WellFormedEquation specs m eqn

/-- Every equation is well formed with its row of values for the symbols, and every guarded
assignment is. -/
structure WellFormedSource (specs : Specs) (m : March) (symbols : List String)
    (equations : List Equation) (rows : List (List Expr)) : Prop where
  count : equations.length = rows.length
  widths : ∀ row ∈ rows, row.length = symbols.length
  updates : ∀ p ∈ equations.zip rows,
    WellFormedEquation specs m (p.1.substitute (symbols.zip p.2))
  guards : ∀ g ∈ m.before ++ m.after, WellFormedGuard specs m g

/-- A march of exact extents whose arrays have no time axis or keep their levels in rings, with no
slot's name among those registered. -/
structure Cyclic (specs : Specs) (m : March) : Prop where
  steps : specs.steps.toNat + specs.order.toNat < 2 ^ 53
  grid : ∀ extent ∈ specs.shape, extent.toNat < 2 ^ 53
  extents : ∀ a ∈ m.entry.arrays, ∀ e ∈ a.shape, ∃ n : UInt64, e = .ofSize n ∧ n.toNat < 2 ^ 53
  ringed : ∀ a ∈ m.entry.arrays, m.timeDim ∈ a.dims → m.isRinged a.name
  names : ∀ name ∈ m.entry.registeredNames, m.OffSlots name

theorem Cyclic.exact (h : Cyclic specs m) (hm : Configured specs m) :
    m.steps.toNat + m.order.toNat < 2 ^ 53 := by
  rw [hm.steps, hm.order]
  exact h.steps

section Mentions

theorem knows_of_offset? {u : Entities} {e : Expr} {d : Dimension} {k : Int64}
    (h : e.offset? = .ok (some (d, k))) : ∀ x ∈ e.nodes, u.Knows x :=
  Expr.nodes_of_offset? (fun _ => trivial) (fun _ => trivial) (fun _ _ _ => trivial) h

theorem Reference.knows {u : Entities} {ds : List Dimension} {es : List Expr}
    (h : Reference specs m ds es) : ∀ x ∈ Expr.nodesAll es, u.Knows x := by
  have hnear : ∀ {es}, List.Forall₂ specs.Near es m.spaceDims → ∀ e ∈ es, ∀ x ∈ e.nodes,
      u.Knows x := by
    intro es hes e he
    obtain ⟨d, -, s, hoffset, -⟩ := forall₂_mem_left hes he
    exact knows_of_offset? hoffset
  intro x hx
  obtain ⟨e, he, hnode⟩ := Expr.mem_nodesAll.1 hx
  clear hx
  cases h with
  | spatial hes => exact hnear hes e he x hnode
  | timed htime hk hes =>
    rcases List.mem_cons.1 he with rfl | he
    · exact knows_of_offset? htime x hnode
    · exact hnear hes e he x hnode

/-- What the statements of a march may refer to: everything registered, and the slots. -/
def entities (m : March) : Entities := m.entry.entities m.slotScalars

/-- A well-formed expression mentions registered arrays and scalars only. -/
theorem WellFormed.knows {e : Expr} (h : WellFormed specs m e) :
    ∀ x ∈ e.nodes, m.entities.Knows x := by
  induction h with
  | int n => exact Expr.nodes_of_leaf rfl trivial
  | float y => exact Expr.nodes_of_leaf rfl trivial
  | scalar hs => exact Expr.nodes_of_leaf rfl (List.mem_append_left _ hs)
  | time => exact Expr.nodes_of_leaf rfl trivial
  | space hd => exact Expr.nodes_of_leaf rfl trivial
  | neg _ ih =>
    intro x hx
    rcases List.mem_cons.1 hx with rfl | hx
    · trivial
    · exact ih x hx
  | binary op _ _ ihl ihr => exact Expr.nodes_of_binary trivial ihl ihr
  | access ha hes =>
    intro x hx
    rcases List.mem_cons.1 hx with rfl | hx
    · exact ha
    · exact hes.knows x hx

theorem headsOnly_knows (m : March) : m.HeadsOnly m.entities.Knows where
  access _ _ _ h := h
  neg _ := trivial
  binary _ _ _ := trivial
  dim _ := trivial
  slot _ h := List.mem_append_right _ h

/-- A resolved expression mentions registered arrays and scalars and the slots only. -/
theorem WellFormed.knows_resolved {e e' : Expr} (h : WellFormed specs m e)
    (he : m.resolveExpr e = .ok e') : ∀ x ∈ e'.nodes, m.entities.Knows x :=
  nodes_resolveExpr m.headsOnly_knows he h.knows

end Mentions

variable {R : Type} [Arithmetic R]

/-- A buffer of the declared shape of an array. -/
structure Declares (a : GridArray) (b : Buffer R) : Prop where
  full : b.Full
  shape : b.dims.map Expr.ofSize = a.shape

/-- The machine binds all registered arrays to buffers of their shapes, and some scalars. -/
structure Supplied (m : March) (scalars : List Scalar) (M : Machine R) : Prop where
  arrays : ∀ a ∈ m.entry.arrays, ∃ b, M.arrays[a.name]? = some b ∧ Declares a b
  scalars : ∀ s ∈ scalars, ∃ x, M.scalars[s.name]? = some x

/-- The machine is at a grid point of a step, with everything registered bound. -/
structure Ready (specs : Specs) (m : March) (T : Int) (p : List Int64) (M : Machine R) : Prop where
  during : m.During T M
  supplied : m.Supplied m.valued M
  here : At M m.spaceCounters p
  inside : p ∈ specs.points

theorem ofSize_inj {k n : UInt64} (h : Expr.ofSize k = .ofSize n) : k = n := by
  have hwords : k.toInt64 = n.toInt64 := Expr.int.inj h
  exact congrArg Int64.toUInt64 hwords

omit [Arithmetic R] in
/-- The extents of a buffer of the declared shape are those that the array was registered with. -/
theorem Declares.dims_eq {a : GridArray} {b : Buffer R} {dims : List UInt64} (h : Declares a b)
    (hshape : a.shape = dims.map Expr.ofSize) : b.dims = dims := by
  have hmap := h.shape.trans hshape
  exact List.map_injective_iff.2 (fun _ _ => ofSize_inj) hmap

/-- Indices within the extents are evaluated to a multi-index in bounds. -/
theorem evalIndices_inBounds {M : Machine R} {es : List Expr} {dims : List UInt64}
    (h : List.Forall₂ (fun e (n : UInt64) => ∃ i, M.Evaluates e i ∧ 0 ≤ i ∧ i < n.toNat) es dims) :
    ∃ is, M.evalIndices es = .ok is ∧ Buffer.InBounds dims is := by
  induction h with
  | nil => exact ⟨[], rfl, .nil⟩
  | cons he _ ih =>
    obtain ⟨i, hi, hlow, hhigh⟩ := he
    obtain ⟨is, his, hbounds⟩ := ih
    have hvalue := toInt_ofInt hi.bounded
    refine ⟨Int64.ofInt i :: is, ?_, .cons ⟨by omega, by omega⟩ hbounds⟩
    rw [evalIndices_eq_ok] at his ⊢
    exact .cons hi.evalIndex his

variable [ExactIntegers R]

/-- Indices near a grid point evaluate to indices within the extents of the grid. -/
theorem evaluates_near (hm : Configured specs m)
    (hgrid : ∀ extent ∈ specs.shape, extent.toNat < 2 ^ 53) {M : Machine R} {p : List Int64}
    (hp : p ∈ specs.points) (hat : At M m.spaceCounters p) {es : List Expr}
    (hes : List.Forall₂ specs.Near es m.spaceDims) :
    List.Forall₂ (fun e (n : UInt64) => ∃ i, M.Evaluates (e.replace m.toCounters) i ∧ 0 ≤ i ∧
      i < n.toNat) es specs.shape.reverse := by
  have hpoint := (Specs.mem_points hgrid).1 hp
  have hreverse : ∀ extent ∈ specs.shape.reverse, extent.toNat < 2 ^ 53 :=
    fun extent he => hgrid extent (List.mem_reverse.1 he)
  have hinside := ((List.forall₂_and_left _ _).2 ⟨hreverse, hpoint.flip⟩).flip
  have hcounters := forall₂_trans (replace_spaceDims hm)
    (hat.evaluates (Specs.index_bounded hgrid hp))
  refine (forall₂_trans hes (forall₂_trans hcounters hinside)).imp ?_
  rintro e n ⟨d, ⟨s, hoffset, hs⟩, i, ⟨c, hc, hi⟩, hn, hlow, hhigh⟩
  have hreplaced := Expr.offset?_replace m.toCounters_renamesAxes hc hoffset
  exact ⟨i.toInt + s.toInt, .offset hreplaced hi (by omega) (by omega), by omega, by omega⟩

omit R [Arithmetic R] [ExactIntegers R] in
theorem toSlotsAll_near {es : List Expr} (hes : List.Forall₂ specs.Near es m.spaceDims) :
    m.toSlotsAll es = .ok es := by
  apply toSlotsAll_of_flat
  intro e he
  obtain ⟨d, -, s, hoffset, -⟩ := forall₂_mem_left hes he
  exact flat_of_offset? hoffset

omit R [Arithmetic R] [ExactIntegers R] in
/-- An array without a time axis has the extents of the grid. -/
theorem shape_of_spatial (hm : Configured specs m) {a : GridArray} {save : Bool}
    (ha : IsParameter specs a save) (hdims : a.dims = m.spaceDims) :
    a.shape = specs.shape.reverse.map Expr.ofSize := by
  rcases ha.shape with ⟨-, hshape⟩ | ⟨slots, htimed, -, -⟩
  · exact hshape
  · have hlengths := congrArg List.length (hdims.symm.trans htimed)
    rw [hm.spaceDims, List.length_cons] at hlengths
    omega

omit R [Arithmetic R] [ExactIntegers R] in
/-- A ringed array with a time axis has a slot for every level of the ring, then the extents of the
grid. -/
theorem shape_of_timed (hm : Configured specs m) {a : GridArray} (ha : IsParameter specs a false)
    (hdims : a.dims = m.timeDim :: m.spaceDims) : ∃ slots : UInt64,
      a.shape = (slots :: specs.shape.reverse).map Expr.ofSize ∧
        m.order.toNat + 1 ≤ slots.toNat := by
  rcases ha.shape with ⟨hspatial, -⟩ | ⟨slots, -, hshape, hslots⟩
  · have hlengths := congrArg List.length (hdims.symm.trans hspatial)
    rw [hm.spaceDims, List.length_cons] at hlengths
    omega
  · exact ⟨slots, hshape, by rw [hm.order]; exact hslots rfl⟩

/-- A reference near a grid point is resolved to a multi-index in bounds of every buffer of the
declared shape of its array. -/
theorem Reference.resolved (hm : Registered specs m) (hc : Cyclic specs m) {a : GridArray}
    (ha : a ∈ m.entry.arrays) {es : List Expr} (h : Reference specs m a.dims es) :
    ∃ fs, m.resolveExpr (.access a es) = .ok (.access a fs) ∧
      ∀ T p (M : Machine R), Ready specs m T p M → ∀ b : Buffer R, Declares a b →
        ∃ is, M.evalIndices fs = .ok is ∧ Buffer.InBounds b.dims is := by
  obtain ⟨hconfigured, hparameters⟩ := hm.invariant
  have hexact := hc.exact hconfigured
  have hspatial := isTime_spaceDims hconfigured
  rw [resolveExpr_access]
  generalize hdims : a.dims = ds at h
  cases h with
  | spatial hes =>
    refine ⟨Expr.replaceAll m.toCounters es, ?_, fun T p M hready b hb => ?_⟩
    · rw [slotIndices_spatial _ hspatial hes.length_eq, toSlotsAll_near hes]
      rfl
    · obtain ⟨save, -, -, hparameter⟩ := forall₂_mem_left hparameters.arrays ha
      rw [hb.dims_eq (shape_of_spatial hconfigured hparameter hdims)]
      apply evalIndices_inBounds
      rw [Expr.replaceAll_eq_map, List.forall₂_map_left_iff]
      exact evaluates_near hconfigured hc.grid hready.inside hready.here hes
  | @timed e k es htime hk hes =>
    have hringed : m.isRinged a.name := hc.ringed a ha (by simp [hdims])
    refine ⟨Expr.replaceAll m.toCounters (m.levelIndex true e k :: es), ?_,
      fun T p M hready b hb => ?_⟩
    · rw [hringed, slotIndices_timed hconfigured (by omega) true m.spaceDims htime hk,
        slotIndices_spatial _ hspatial hes.length_eq, toSlotsAll_near hes]
      rfl
    · obtain ⟨slots, hshape, hslots⟩ :=
        shape_of_timed hconfigured (hparameters.ringed ha hringed) hdims
      rw [hb.dims_eq hshape]
      apply evalIndices_inBounds
      have hrow := hready.during.evaluates_row hexact
        (fun _ : true = true => hasRing_of_isRinged hringed) htime hk
      have hlow := m.ringSlot_nonneg (T + k.toInt)
      have hhigh := m.ringSlot_lt (T + k.toInt)
      refine .cons ⟨_, hrow, hlow, ?_⟩ ?_
      · show m.ringSlot (T + k.toInt) < slots.toNat
        omega
      · rw [Expr.replaceAll_eq_map, List.forall₂_map_left_iff]
        exact evaluates_near hconfigured hc.grid hready.inside hready.here hes

omit [ExactIntegers R] in
theorem eval_dim {M : Machine R} {d : Dimension} {i : Int64} (h : M.indices[d.name]? = some i) :
    ∃ x, M.eval (.dim d) = .ok x := by
  rw [eval, h]
  exact ⟨_, rfl⟩

/-- A well-formed expression is resolved, and has a value at every grid point. -/
theorem WellFormed.resolved (hm : Registered specs m) (hc : Cyclic specs m) {e : Expr}
    (h : WellFormed specs m e) : ∃ e', m.resolveExpr e = .ok e' ∧
      ∀ T p (M : Machine R), Ready specs m T p M → ∃ x, M.eval e' = .ok x := by
  have hconfigured := hm.invariant.1
  have hr := m.toCounters_renamesAxes
  induction h with
  | int n =>
    refine ⟨_, resolveExpr_flat (.int n), fun T p M _ => ?_⟩
    simp [Expr.replace, Expr.find?_eq_none hr, eval]
  | float y =>
    refine ⟨_, resolveExpr_flat (Expr.nodes_of_leaf rfl (by simp)), fun T p M _ => ?_⟩
    simp [Expr.replace, Expr.find?_eq_none hr, eval]
  | @scalar s hs =>
    refine ⟨_, resolveExpr_flat (.scalar s), fun T p M hready => ?_⟩
    obtain ⟨x, hx⟩ := hready.supplied.scalars s hs
    refine ⟨x, ?_⟩
    rw [(Expr.replace_eq_scalar hr).2 rfl, eval, hx]
    rfl
  | time =>
    refine ⟨_, resolveExpr_flat (.dim m.timeDim), fun T p M hready => ?_⟩
    rw [replace_timeDim]
    exact eval_dim hready.during.time
  | @space d hd =>
    refine ⟨_, resolveExpr_flat (.dim d), fun T p M hready => ?_⟩
    obtain ⟨i, -, c, hc, hi⟩ :=
      forall₂_mem_left (forall₂_trans (replace_spaceDims hconfigured) hready.here) hd
    rw [hc]
    exact eval_dim hi
  | neg _ ih =>
    obtain ⟨e', he', heval⟩ := ih
    refine ⟨.neg e', by rw [resolveExpr_neg, he']; rfl, fun T p M hready => ?_⟩
    obtain ⟨x, hx⟩ := heval T p M hready
    exact ⟨_, by rw [eval, hx]; rfl⟩
  | binary op _ _ ihl ihr =>
    obtain ⟨l', hl', hevall⟩ := ihl
    obtain ⟨r', hr', hevalr⟩ := ihr
    refine ⟨.binary op l' r', by rw [resolveExpr_binary, hl', hr']; rfl, fun T p M hready => ?_⟩
    obtain ⟨x, hx⟩ := hevall T p M hready
    obtain ⟨y, hy⟩ := hevalr T p M hready
    exact ⟨_, by rw [eval, hx, hy]; rfl⟩
  | @access a es ha hes =>
    obtain ⟨fs, hfs, hindices⟩ := hes.resolved (R := R) hm hc ha
    refine ⟨.access a fs, hfs, fun T p M hready => ?_⟩
    obtain ⟨b, hb, hdeclares⟩ := hready.supplied.arrays a ha
    obtain ⟨is, his, hbounds⟩ := hindices T p M hready b hdeclares
    obtain ⟨x, hx⟩ := hdeclares.full.get? hbounds
    exact ⟨x, by simp [eval, his, array, hb, bound, hx]⟩

end GridKernel.March
