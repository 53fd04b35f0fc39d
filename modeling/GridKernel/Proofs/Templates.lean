import GridKernel.Proofs.Reorder
import GridKernel.Proofs.Windows

/-! Stencil templates. A template reads earlier levels of the array that it is put in for, and other
operands that are the same for every array. Where two arrays have the same earlier levels, it has
the same value for both. -/
namespace GridKernel

/-- The right side of a stencil update, with the array it is for left open. -/
inductive Template where
  /-- An operand that is the same for every array. -/
  | operand (e : Expr)
  /-- A reference to the array at a time index and an index for each axis of the grid. -/
  | level (time : Expr) (space : List Expr)
  | neg (operand : Template)
  | binary (op : BinaryOp) (left right : Template)

/-- A template put in for an array. -/
def Template.expr (f : GridArray) : Template → Expr
  | operand e => e
  | level time space => .access f (time :: space)
  | neg E => .neg (E.expr f)
  | binary op l r => .binary op (l.expr f) (r.expr f)

namespace March

open Machine

variable {m : March} {u v : GridArray}

/-- The update of an array at the current time and point by a template. -/
def update (m : March) (E : Template) (f : GridArray) : Equation :=
  ⟨.access f (.dim m.timeDim :: m.spaceDims.map .dim), E.expr f⟩

/-- The copy of a field with a ring, or the one with all levels. -/
def copy (u v : GridArray) (ringed : Bool) : GridArray := if ringed then v else u

def IsCopy (u v : GridArray) (name : String) : Prop := name = u.name ∨ name = v.name

/-- A node that refers to neither of two arrays. -/
def Outside (u v : GridArray) : Expr → Prop
  | .dim _ => True
  | .access a _ => ¬ IsCopy u v a.name
  | _ => True

/-- An expression mentions neither of two arrays. -/
def Avoids (u v : GridArray) (e : Expr) : Prop := ∀ x ∈ e.nodes, Outside u v x

/-- A template reads earlier levels of its own array only; nothing else in it mentions either of two
arrays. -/
def Reads (m : March) (u v : GridArray) : Template → Prop
  | .operand e => Avoids u v e
  | .level time space => (∃ k, time.offset? = .ok (some (m.timeDim, k)) ∧ m.Past 0 k.toInt) ∧
      ∀ e ∈ space, Avoids u v e
  | .neg E => m.Reads u v E
  | .binary _ l r => m.Reads u v l ∧ m.Reads u v r

/-- Two copies of a field, `u` with all its levels saved and `v` with a ring. -/
structure Copies (m : March) (u v : GridArray) : Prop where
  registered : u ∈ m.entry.arrays ∧ v ∈ m.entry.arrays
  timed : u.dims = m.timeDim :: m.spaceDims ∧ v.dims = m.timeDim :: m.spaceDims
  saved : m.isRinged u.name = false
  ringed : m.isRinged v.name = true

namespace Copies

variable (h : m.Copies u v)
include h

theorem hasRing : m.hasRing := hasRing_of_isRinged h.ringed

theorem isRinged_copy (ringed : Bool) : m.isRinged (copy u v ringed).name = ringed := by
  cases ringed with
  | true => exact h.ringed
  | false => exact h.saved

theorem dims_copy (ringed : Bool) : (copy u v ringed).dims = m.timeDim :: m.spaceDims := by
  cases ringed with
  | true => exact h.timed.2
  | false => exact h.timed.1

theorem copy_inj {b c : Bool} (hname : (copy u v b).name = (copy u v c).name) : b = c := by
  rw [← h.isRinged_copy b, hname, h.isRinged_copy c]

end Copies

theorem isCopy_copy (u v : GridArray) (ringed : Bool) : IsCopy u v (copy u v ringed).name := by
  cases ringed with
  | true => exact .inr rfl
  | false => exact .inl rfl

theorem Avoids.readsOutside {e : Expr} (h : Avoids u v e) :
    e.ReadsOutside (IsCopy u v) fun _ => True := by
  intro x hx
  have houtside := h x hx
  cases x <;> exact houtside

theorem headsOnly_outside (m : March) (u v : GridArray) : m.HeadsOnly (Outside u v) where
  access _ _ _ h := h
  neg _ := trivial
  binary _ _ _ := trivial
  dim _ := trivial
  slot _ _ := trivial

/-- The indices of a resolved reference to an earlier level. -/
theorem resolved_level {specs : Specs} (hm : Configured specs m) (horder : m.order.toNat < 2 ^ 53)
    (h : m.Copies u v) (ringed : Bool) {time : Expr} {space : List Expr} {k : Int64}
    (htime : time.offset? = .ok (some (m.timeDim, k))) (hk : m.InRing k) {e : Expr}
    (he : m.resolveExpr (.access (copy u v ringed) (time :: space)) = .ok e) :
    ∃ rest, m.slotIndices ringed m.spaceDims space = .ok rest ∧
      m.slotIndices ringed (m.timeDim :: m.spaceDims) (time :: space) =
        .ok (m.levelIndex ringed time k :: rest) ∧
      e = .access (copy u v ringed)
        (Expr.replaceAll m.toCounters (m.levelIndex ringed time k :: rest)) := by
  have hslots : m.slotIndices ringed (m.timeDim :: m.spaceDims) (time :: space) = _ :=
    slotIndices_timed hm horder ringed m.spaceDims htime hk
  rw [resolveExpr_access, h.isRinged_copy, h.dims_copy] at he
  obtain ⟨es, hes, he⟩ := bind_eq_ok.1 he
  rw [hes] at hslots
  obtain ⟨rest, hrest, hcons⟩ := bind_eq_ok.1 hslots.symm
  obtain rfl := Except.ok.inj hcons
  exact ⟨rest, hrest, hes, (Except.ok.inj he).symm⟩

variable {R : Type} [Arithmetic R]

/-- The cells of two copies of a field at the level of a time and a grid point. -/
def Touched (m : March) (u v : GridArray) (T : Int) (p : List Int64) (name : String)
    (is : List Int64) : Prop :=
  ∃ ringed, name = (copy u v ringed).name ∧ is = Int64.ofInt (m.row ringed T) :: p

theorem Touched.isCopy {T : Int} {p : List Int64} {name : String} {is : List Int64}
    (h : m.Touched u v T p name is) : IsCopy u v name := by
  obtain ⟨ringed, rfl, -⟩ := h
  exact isCopy_copy u v ringed

/-- A row that an array keeps a level in is within range. -/
theorem row_bounded {T : Int} (ringed : Bool) (hexact : m.steps.toNat + m.order.toNat < 2 ^ 53)
    (hT : -(m.order.toNat : Int) ≤ T ∧ T < (m.steps.toNat : Int) + m.order.toNat) :
    (m.row ringed T).natAbs ≤ 2 ^ 53 := by
  have hlow := m.ringSlot_nonneg T
  have hhigh := m.ringSlot_lt T
  unfold row
  split <;> omega

/-- An earlier level is kept in another row than the current one. -/
theorem Past.row_ne {T T' : Int} (h : m.Past T T') (ringed : Bool) :
    m.row ringed T' ≠ m.row ringed T := by
  unfold row
  split
  · exact h.ringSlot_ne
  · exact h.ne

theorem ofInt_inj {a b : Int} (ha : a.natAbs ≤ 2 ^ 53) (hb : b.natAbs ≤ 2 ^ 53)
    (h : Int64.ofInt a = Int64.ofInt b) : a = b := by
  have hints := congrArg Int64.toInt h
  rwa [toInt_ofInt ha, toInt_ofInt hb] at hints

/-- No cell of an earlier level is touched. -/
theorem not_touched (h : m.Copies u v) (hexact : m.steps.toNat + m.order.toNat < 2 ^ 53)
    {T T' : Int} (hT : -(m.order.toNat : Int) ≤ T ∧ T < (m.steps.toNat : Int) + m.order.toNat)
    (hT' : -(m.order.toNat : Int) ≤ T' ∧ T' < (m.steps.toNat : Int) + m.order.toNat)
    (hpast : m.Past T T') (ringed : Bool) (p js : List Int64) :
    ¬ m.Touched u v T p (copy u v ringed).name (Int64.ofInt (m.row ringed T') :: js) := by
  rintro ⟨other, hname, his⟩
  obtain rfl := h.copy_inj hname
  have hrows := ofInt_inj (row_bounded ringed hexact hT') (row_bounded ringed hexact hT)
    (List.cons.inj his).1
  exact hpast.row_ne ringed hrows

theorem evalIndices_cons {M : Machine R} {e : Expr} {es : List Expr} {n : Int} {is : List Int64}
    (he : M.Evaluates e n) :
    M.evalIndices (e :: es) = .ok is ↔
      ∃ js, is = Int64.ofInt n :: js ∧ M.evalIndices es = .ok js := by
  simp only [evalIndices_eq_ok, List.forall₂_cons_left_iff, he.evalIndex, Except.ok.injEq]
  constructor
  · rintro ⟨i, js, rfl, hjs, rfl⟩
    exact ⟨js, rfl, hjs⟩
  · rintro ⟨js, rfl, hjs⟩
    exact ⟨_, js, rfl, hjs, rfl⟩

/-- Two copies of a field have the same value at the level of a time and a grid point. -/
def SameLevel (m : March) (u v : GridArray) (M : Machine R) (T : Int) (p : List Int64) : Prop :=
  M.cell? v.name (Int64.ofInt (m.ringSlot T) :: p) = M.cell? u.name (Int64.ofInt T :: p)

section Values

variable [ExactIntegers R] {specs : Specs} (hm : Configured specs m)
  (hexact : m.steps.toNat + m.order.toNat < 2 ^ 53) (hc : m.Copies u v) {T : Int}
include hm hexact hc

/-- A template that has a value has had it before the cells of the current level were set. -/
theorem eval_unchanged {p : List Int64} {M₁ M : Machine R} (hduring : m.During T M₁)
    (hchanges : M₁.ChangesOnly (m.Touched u v T p) M) (hindices : M.indices = M₁.indices)
    {E : Template} (hE : m.Reads u v E) {ringed : Bool} {e : Expr}
    (he : m.resolveExpr (E.expr (copy u v ringed)) = .ok e) {x : R} (hx : M.eval e = .ok x) :
    M₁.eval e = .ok x := by
  have hQ := headsOnly_outside m u v
  have hresembles : M₁.Resembles (IsCopy u v)
      (fun name is => ¬ m.Touched u v T p name is) M :=
    Resembles.mono hchanges (fun name ⟨is, his⟩ => his.isCopy) fun _ _ => id
  have hsame : ∀ name : String, True → M₁.indices[name]? = M.indices[name]? :=
    fun name _ => by rw [hindices]
  induction E generalizing e x with
  | operand f =>
    have houtside : Avoids u v e := nodes_resolveExpr hQ he hE
    rwa [hresembles.eval houtside.readsOutside hsame]
  | level time space =>
    obtain ⟨⟨k, htime, hpast⟩, hspace⟩ := hE
    obtain ⟨rest, -, hslots, rfl⟩ := resolved_level hm (by omega) hc ringed htime hpast.inRing he
    -- the indices have the same values, and the level is not the one whose cells were set
    have hnodes : ∀ x ∈ Expr.nodesAll (time :: space), Outside u v x := by
      intro x hx
      rcases List.mem_append.1 hx with hx | hx
      · exact Expr.nodes_of_offset? (fun _ => trivial) (fun _ => trivial) (fun _ _ _ => trivial)
          htime x hx
      · obtain ⟨f, hf, hx⟩ := Expr.mem_nodesAll.1 hx
        exact hspace f hf x hx
    have houtside := hQ.replaceAll m.toCounters_renamesAxes
      (nodes_slotIndices hQ hc.hasRing hslots hnodes)
    have havoids : ∀ f ∈ Expr.replaceAll m.toCounters (m.levelIndex ringed time k :: rest),
        Avoids u v f := fun f hf x hx => houtside x (Expr.mem_nodesAll.2 ⟨f, hf, hx⟩)
    obtain ⟨is, his, hcell⟩ := eval_access_eq_ok.1 hx
    rw [← hresembles.evalIndices (fun f hf => (havoids f hf).readsOutside) hsame] at his
    have hrow :=
      hduring.evaluates_row hexact (fun _ : ringed = true => hc.hasRing) htime hpast.inRing
    obtain ⟨js, rfl, -⟩ := (evalIndices_cons hrow).1 his
    have huntouched := not_touched hc hexact (T := T) hduring.time_bounded
      (hduring.level_bounded hpast.inRing) (hpast.add T) ringed p js
    rw [hresembles.cells _ _ huntouched] at hcell
    exact eval_access_eq_ok.2 ⟨_, his, hcell⟩
  | neg E ih =>
    obtain ⟨f, hf, rfl⟩ := resolveExpr_neg_eq_ok.1 he
    obtain ⟨y, hy, rfl⟩ := map_eq_ok.1 hx
    rw [eval, ih hE hf hy]
    rfl
  | binary op l r ihl ihr =>
    obtain ⟨f, g, hf, hg, rfl⟩ := resolveExpr_binary_eq_ok.1 he
    obtain ⟨y, z, hy, hz, rfl⟩ := eval_binary_eq_ok.1 hx
    exact eval_binary_eq_ok.2 ⟨y, z, ihl hE.1 hf hy, ihr hE.2 hg hz, rfl⟩

omit [Arithmetic R] [ExactIntegers R] hm hexact hc in
/-- The axes behind a time axis that a cell of an array is read at are as many as the buffer has. -/
theorem length_of_cell? {M : Machine R} {name : String} {rank : Nat}
    (hrank : ∀ b, M.arrays[name]? = some b → b.dims.length = rank + 1) {i : Int64}
    {js : List Int64} {x : R} (h : M.cell? name (i :: js) = some x) : js.length = rank := by
  obtain ⟨b, hb, hx⟩ := cell?_eq_some.1 h
  have hbounds : Buffer.InBounds b.dims (i :: js) := by
    by_contra hout
    rw [Buffer.get?_eq_none hout] at hx
    cases hx
  have hlength := hbounds.length_eq
  rw [hrank b hb, List.length_cons] at hlength
  omega

/-- Where two copies of a field have the same earlier levels, a template has the same value for
both. -/
theorem eval_agrees {M : Machine R} (hduring : m.During T M)
    (hlevels : ∀ T', m.Past T T' → ∀ p, m.SameLevel u v M T' p)
    (hrank : ∀ b, M.arrays[u.name]? = some b → b.dims.length = m.spaceDims.length + 1)
    {E : Template} (hE : m.Reads u v E) {e f : Expr} (he : m.resolveExpr (E.expr u) = .ok e)
    (hf : m.resolveExpr (E.expr v) = .ok f) {x y : R} (hx : M.eval e = .ok x)
    (hy : M.eval f = .ok y) : x = y := by
  induction E generalizing e f x y with
  | operand g =>
    obtain rfl := Except.ok.inj (he.symm.trans hf)
    exact Except.ok.inj (hx.symm.trans hy)
  | level time space =>
    obtain ⟨⟨k, htime, hpast⟩, -⟩ := hE
    have hk := hpast.inRing
    obtain ⟨rest, hrest, -, rfl⟩ := resolved_level hm (by omega) hc false htime hk he
    obtain ⟨rest', hrest', -, rfl⟩ := resolved_level hm (by omega) hc true htime hk hf
    have hrow := fun ringed : Bool =>
      hduring.evaluates_row hexact (fun _ : ringed = true => hc.hasRing) htime hk
    obtain ⟨is, his, hcell⟩ := eval_access_eq_ok.1 hx
    obtain ⟨js, rfl, hjs⟩ := (evalIndices_cons (hrow false)).1 his
    obtain ⟨is', his', hcell'⟩ := eval_access_eq_ok.1 hy
    obtain ⟨js', rfl, hjs'⟩ := (evalIndices_cons (hrow true)).1 his'
    -- the reference has an index for each axis of the grid, so the slots change nothing behind it
    have hlength : space.length = m.spaceDims.length := by
      have hjsLength := (evalIndices_eq_ok.1 hjs).length_eq
      have hrestLength : rest.length = space.length := length_toSlotsAll hrest
      rw [Expr.replaceAll_eq_map, List.length_map, length_of_cell? hrank hcell] at hjsLength
      omega
    have hspatial := isTime_spaceDims hm
    rw [slotIndices_spatial _ hspatial hlength] at hrest hrest'
    obtain rfl := Except.ok.inj (hrest.symm.trans hrest')
    obtain rfl := Except.ok.inj (hjs.symm.trans hjs')
    have hsame := hlevels _ (hpast.add T) js
    exact Option.some.inj (hcell.symm.trans (hsame.symm.trans hcell'))
  | neg E ih =>
    obtain ⟨g, hg, rfl⟩ := resolveExpr_neg_eq_ok.1 he
    obtain ⟨g', hg', rfl⟩ := resolveExpr_neg_eq_ok.1 hf
    obtain ⟨x₁, hx₁, rfl⟩ := map_eq_ok.1 hx
    obtain ⟨y₁, hy₁, rfl⟩ := map_eq_ok.1 hy
    rw [ih hE hg hg' hx₁ hy₁]
  | binary op l r ihl ihr =>
    obtain ⟨g, h, hg, hh, rfl⟩ := resolveExpr_binary_eq_ok.1 he
    obtain ⟨g', h', hg', hh', rfl⟩ := resolveExpr_binary_eq_ok.1 hf
    obtain ⟨x₁, x₂, hx₁, hx₂, rfl⟩ := eval_binary_eq_ok.1 hx
    obtain ⟨y₁, y₂, hy₁, hy₂, rfl⟩ := eval_binary_eq_ok.1 hy
    rw [ihl hE.1 hg hg' hx₁ hy₁, ihr hE.2 hh hh' hx₂ hy₂]

/-- An update sets the cell at the level of the time and the grid point of a step. -/
theorem resolved_target (hgrid : ∀ extent ∈ specs.shape, extent.toNat < 2 ^ 53) (ringed : Bool) :
    ∃ es, m.resolveExpr (.access (copy u v ringed) (.dim m.timeDim :: m.spaceDims.map .dim)) =
        .ok (.access (copy u v ringed) es) ∧
      ∀ (M : Machine R) p, m.During T M → p ∈ specs.points → At M m.spaceCounters p →
        M.evalIndices es = .ok (Int64.ofInt (m.row ringed T) :: p) := by
  have hcounters : Expr.replaceAll m.toCounters (m.spaceDims.map .dim) =
      m.spaceCounters.map .dim := by
    rw [Expr.replaceAll_eq_map, List.map_map, map_eq_map_iff_forall₂]
    exact replace_spaceDims hm
  have htime : (Expr.dim m.timeDim).offset? = .ok (some (m.timeDim, 0)) := rfl
  have hflat : ∀ e ∈ m.spaceDims.map Expr.dim, Flat e := by
    intro e he
    obtain ⟨d, -, rfl⟩ := List.mem_map.1 he
    exact .dim d
  refine ⟨(m.levelIndex ringed (.dim m.timeDim) 0).replace m.toCounters ::
    m.spaceCounters.map .dim, ?_, fun M p hduring hp hat => ?_⟩
  · rw [resolveExpr_access, hc.isRinged_copy, hc.dims_copy,
      slotIndices_timed hm (by omega) ringed m.spaceDims htime m.inRing_zero,
      slotIndices_spatial ringed (isTime_spaceDims hm) (by simp), toSlotsAll_of_flat hflat,
      ← hcounters]
    rfl
  · have hrow := hduring.evaluates_row hexact (fun _ : ringed = true => hc.hasRing) htime
      m.inRing_zero
    have hzero : (0 : Int64).toInt = 0 := rfl
    rw [hzero, Int.add_zero] at hrow
    refine (evalIndices_cons hrow).2 ⟨p, rfl, ?_⟩
    rw [evalIndices_eq_ok, List.forall₂_map_left_iff]
    refine (hat.evaluates (Specs.index_bounded hgrid hp)).imp fun d i hi => ?_
    rw [hi.evalIndex, Int64.ofInt_toInt]

end Values

end March
end GridKernel
