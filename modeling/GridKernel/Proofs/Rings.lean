import GridKernel.Proofs.Extents
import GridKernel.Proofs.Marches
import GridKernel.Proofs.Uses

/-! Slots in the statements of a march. Fitting an equation to the ring leaves no time index on a
ringed array but the scalar of a slot; a test keeps the indices that it was registered with. -/
namespace GridKernel

/-- Axes are replaced by axes, and nothing else is replaced. -/
def Replacements.RenamesAxes (r : Replacements) : Prop :=
  ∀ e v, r.find? e = some v → ∃ d c, e = .dim d ∧ v = .dim c

namespace Expr

variable {r : Replacements}

section

variable (hr : r.RenamesAxes)
include hr

theorem find?_eq_none {e : Expr} (he : ∀ d, e ≠ .dim d) : r.find? e = none := by
  cases hfind : r.find? e with
  | none => rfl
  | some v =>
    obtain ⟨d, c, hd, -⟩ := hr e v hfind
    exact absurd hd (he d)

theorem replace_access (a : GridArray) (es : List Expr) :
    (access a es).replace r = access a (replaceAll r es) := by
  rw [replace, find?_eq_none hr (by simp), Option.getD_none]

theorem replace_neg (e : Expr) : (neg e).replace r = neg (e.replace r) := by
  rw [replace, find?_eq_none hr (by simp), Option.getD_none]

theorem replace_binary (op : BinaryOp) (e f : Expr) :
    (binary op e f).replace r = binary op (e.replace r) (f.replace r) := by
  rw [replace, find?_eq_none hr (by simp), Option.getD_none]

theorem replace_dim (d : Dimension) : ∃ c, (dim d).replace r = dim c := by
  have hreplace : (dim d).replace r = (r.find? (dim d)).getD (dim d) := rfl
  rw [hreplace]
  cases hfind : r.find? (dim d) with
  | none => exact ⟨d, rfl⟩
  | some v =>
    obtain ⟨-, c, -, rfl⟩ := hr _ _ hfind
    exact ⟨c, rfl⟩

omit hr in
theorem replaceAll_eq_map (es : List Expr) : replaceAll r es = es.map (replace r) := by
  induction es with
  | nil => rfl
  | cons e es ih => rw [replaceAll, ih, List.map_cons]

theorem replace_eq_scalar {e : Expr} {s : Scalar} : e.replace r = scalar s ↔ e = scalar s := by
  cases e with
  | dim d =>
    obtain ⟨c, hc⟩ := replace_dim hr d
    simp [hc]
  | access a es => simp [replace_access hr]
  | neg e => simp [replace_neg hr]
  | binary op e f => simp [replace_binary hr]
  | _ => simp [replace, find?_eq_none hr]

end

mutual

/-- The nodes of an expression with renamed axes are its nodes with renamed axes. -/
theorem nodes_replace (hr : r.RenamesAxes) :
    (e : Expr) → (e.replace r).nodes = e.nodes.map (replace r)
  | .int n => by simp [replace, find?_eq_none hr, nodes]
  | .float x => by simp [replace, find?_eq_none hr, nodes]
  | .symbol n => by simp [replace, find?_eq_none hr, nodes]
  | .scalar s => by simp [replace, find?_eq_none hr, nodes]
  | .size n => by simp [replace, find?_eq_none hr, nodes]
  | .dim d => by
    obtain ⟨c, hc⟩ := replace_dim hr d
    have hnodes : ∀ d, nodes (dim d) = [dim d] := fun _ => rfl
    rw [hc, hnodes, hnodes, List.map_singleton, hc]
  | .access a es => by
    rw [replace_access hr, nodes, nodes, List.map_cons, replace_access hr, nodesAll_replace hr es]
  | .neg e => by
    rw [replace_neg hr, nodes, nodes, List.map_cons, replace_neg hr, nodes_replace hr e]
  | .binary op e f => by
    rw [replace_binary hr, nodes, nodes, List.map_cons, replace_binary hr, List.map_append,
      nodes_replace hr e, nodes_replace hr f]
termination_by structural e => e

theorem nodesAll_replace (hr : r.RenamesAxes) :
    (es : List Expr) → nodesAll (replaceAll r es) = (nodesAll es).map (replace r)
  | [] => rfl
  | e :: es => by
    rw [replaceAll, nodesAll, nodesAll, List.map_append, nodes_replace hr e, nodesAll_replace hr es]
termination_by structural es => es

end

end Expr

namespace March

variable {m : March}

theorem find?_append (r s : Replacements) (e : Expr) :
    (r ++ s).find? e = (s.find? e).or (r.find? e) := by
  induction r with
  | nil => simp [Replacements.find?]
  | cons p r ih =>
    obtain ⟨key, value⟩ := p
    rw [List.cons_append, Replacements.find?, Replacements.find?, ih, Option.or_assoc]

theorem same_dim {d : Dimension} {e : Expr} (h : (Expr.dim d).same e) :
    ∃ d', e = .dim d' ∧ d.same d' := by
  cases e with
  | dim d' => exact ⟨d', rfl, by simpa [Expr.same] using h⟩
  | _ => simp [Expr.same] at h

/-- Axes are replaced by loop counters. -/
theorem toCounters_renamesAxes (m : March) : m.toCounters.RenamesAxes := by
  have hpairs : ∀ r : Replacements, (∀ p ∈ r, ∃ d c, p = (.dim d, .dim c)) → r.RenamesAxes := by
    intro r hr e v hfind
    induction r with
    | nil => cases hfind
    | cons p r ih =>
      obtain ⟨d, c, rfl⟩ := hr p (by simp)
      rw [Replacements.find?] at hfind
      rcases Option.or_eq_some_iff.1 hfind with hrest | ⟨-, hfirst⟩
      · exact ih (fun p hp => hr p (by simp [hp])) hrest
      · obtain ⟨hsame, hv⟩ := Option.ite_none_right_eq_some.1 hfirst
        obtain ⟨d', rfl, -⟩ := same_dim hsame
        exact ⟨d', c, rfl, (Option.some.inj hv).symm⟩
  apply hpairs
  intro p hp
  rcases List.mem_append.1 hp with hp | hp
  · obtain ⟨q, -, rfl⟩ := List.mem_map.1 hp
    exact ⟨q.1, q.2, rfl⟩
  · exact ⟨m.timeDim, m.timeCounter, List.mem_singleton.1 hp⟩

/-- An index on a time axis of a ringed array is the scalar of a slot. -/
def IsSlot (m : March) (e : Expr) : Prop := ∃ k ≤ m.order.toNat, e = .scalar (slotScalar k)

/-- A reference to a ringed array has the scalar of a slot on its time axis. -/
def Slotted (m : March) : Expr → Prop
  | .access a es => m.isRinged a.name → ∀ (i : Nat) d e, a.dims[i]? = some d → d.isTime →
      es[i]? = some e → m.IsSlot e
  | _ => True

/-- All references in an expression have slots. -/
def AllSlotted (m : March) (e : Expr) : Prop := ∀ x ∈ e.nodes, m.Slotted x

theorem slotted_replace {r : Replacements} (hr : r.RenamesAxes) (e : Expr) :
    m.Slotted (e.replace r) ↔ m.Slotted e := by
  cases e with
  | access a es =>
    rw [Expr.replace_access hr, Expr.replaceAll_eq_map]
    have hslot : ∀ e, m.IsSlot (e.replace r) ↔ m.IsSlot e := by
      intro e
      simp only [IsSlot, Expr.replace_eq_scalar hr]
    constructor
    · intro h hring i d e hd htime he
      exact (hslot e).1 (h hring i d _ hd htime (by rw [List.getElem?_map, he]; rfl))
    · intro h hring i d e hd htime he
      rw [List.getElem?_map] at he
      obtain ⟨e', he', rfl⟩ := Option.map_eq_some_iff.1 he
      exact (hslot e').2 (h hring i d e' hd htime he')
  | dim d =>
    obtain ⟨c, hc⟩ := Expr.replace_dim hr d
    simp [hc, Slotted]
  | neg e => simp [Expr.replace_neg hr, Slotted]
  | binary op e f => simp [Expr.replace_binary hr, Slotted]
  | _ => simp [Expr.replace, Expr.find?_eq_none hr, Slotted]

/-- Putting counters for axes neither adds nor removes a slot. -/
theorem allSlotted_replace {r : Replacements} (hr : r.RenamesAxes) (e : Expr) :
    m.AllSlotted (e.replace r) ↔ m.AllSlotted e := by
  unfold AllSlotted
  rw [Expr.nodes_replace hr]
  simp only [List.mem_map, forall_exists_index, and_imp, forall_apply_eq_imp_iff₂,
    slotted_replace hr]

/-- The slot of a time index is the scalar of one of the slots. -/
theorem slotAt_isSlot {e e' : Expr} (h : m.slotAt e = .ok e') : m.IsSlot e' := by
  unfold slotAt at h
  obtain ⟨offset?, -, h⟩ := bind_eq_ok.1 h
  cases offset? with
  | none => cases h
  | some p =>
    obtain ⟨d, offset⟩ := p
    dsimp only at h
    split at h
    · cases h
    · obtain ⟨slot, -, h⟩ := bind_eq_ok.1 h
      split at h
      · rename_i hslot
        obtain rfl := Except.ok.inj h
        refine ⟨slot.toInt.toNat, ?_, rfl⟩
        have hlow := Int64.le_iff_toInt_le.1 hslot.1
        have hhigh := Int64.le_iff_toInt_le.1 hslot.2
        have horder := Word.toInt_toInt64_le m.order
        have hzero : (0 : Int64).toInt = 0 := rfl
        omega
      · obtain ⟨_, -, h⟩ := bind_eq_ok.1 h
        cases h

/-- An expression is the scalar of a slot, or one of the given expressions with slots put in. -/
def SlottedFrom (m : March) (xs : List Expr) (x' : Expr) : Prop :=
  m.IsSlot x' ∨ ∃ x ∈ xs, m.toSlots x = .ok x'

theorem SlottedFrom.mono {xs ys : List Expr} {x' : Expr} (h : m.SlottedFrom xs x')
    (hsub : ∀ x ∈ xs, x ∈ ys) : m.SlottedFrom ys x' :=
  h.imp_right fun ⟨x, hx, hslots⟩ => ⟨x, hsub x hx, hslots⟩

mutual

/-- The nodes of an expression with slots are slots, or nodes of the expression with slots. -/
theorem node_of_toSlots : (e : Expr) → {e' x' : Expr} → m.toSlots e = .ok e' → x' ∈ e'.nodes →
    m.SlottedFrom e.nodes x'
  | .access a es, e', x', h, hx => by
    have hself := h
    unfold toSlots at h
    split at h
    · obtain ⟨es', hes', h⟩ := bind_eq_ok.1 h
      obtain rfl := Except.ok.inj h
      rcases List.mem_cons.1 hx with rfl | hx
      · exact .inr ⟨_, by simp [Expr.nodes], hself⟩
      · exact (node_of_ringIndices a.dims es hes' hx).mono fun x hx => by simp [Expr.nodes, hx]
    · obtain ⟨es', hes', h⟩ := bind_eq_ok.1 h
      obtain rfl := Except.ok.inj h
      rcases List.mem_cons.1 hx with rfl | hx
      · exact .inr ⟨_, by simp [Expr.nodes], hself⟩
      · exact (node_of_toSlotsAll es hes' hx).mono fun x hx => by simp [Expr.nodes, hx]
  | .neg e, e', x', h, hx => by
    have hself := h
    obtain ⟨f, hf, h⟩ := bind_eq_ok.1 h
    obtain rfl := Except.ok.inj h
    rcases List.mem_cons.1 hx with rfl | hx
    · exact .inr ⟨_, by simp [Expr.nodes], hself⟩
    · exact (node_of_toSlots e hf hx).mono fun x hx => by simp [Expr.nodes, hx]
  | .binary op l r, e', x', h, hx => by
    have hself := h
    obtain ⟨l', hl, h⟩ := bind_eq_ok.1 h
    obtain ⟨r', hr, h⟩ := bind_eq_ok.1 h
    obtain rfl := Except.ok.inj h
    rcases List.mem_cons.1 hx with rfl | hx
    · exact .inr ⟨_, by simp [Expr.nodes], hself⟩
    · rcases List.mem_append.1 hx with hx | hx
      · exact (node_of_toSlots l hl hx).mono fun x hx => by simp [Expr.nodes, hx]
      · exact (node_of_toSlots r hr hx).mono fun x hx => by simp [Expr.nodes, hx]
  | .int _, _, x', h, hx | .float _, _, x', h, hx | .symbol _, _, x', h, hx
  | .scalar _, _, x', h, hx | .dim _, _, x', h, hx | .size _, _, x', h, hx => by
    obtain rfl := Except.ok.inj h
    exact .inr ⟨x', hx, by rw [List.mem_singleton.1 hx]; rfl⟩
termination_by structural e => e

theorem node_of_toSlotsAll : (es : List Expr) → {es' : List Expr} → {x' : Expr} →
    m.toSlotsAll es = .ok es' → x' ∈ Expr.nodesAll es' → m.SlottedFrom (Expr.nodesAll es) x'
  | [], es', x', h, hx => by
    obtain rfl := Except.ok.inj h
    cases hx
  | e :: es, es', x', h, hx => by
    obtain ⟨f, hf, h⟩ := bind_eq_ok.1 h
    obtain ⟨fs, hfs, h⟩ := bind_eq_ok.1 h
    obtain rfl := Except.ok.inj h
    rcases List.mem_append.1 hx with hx | hx
    · exact (node_of_toSlots e hf hx).mono fun x hx => by simp [Expr.nodesAll, hx]
    · exact (node_of_toSlotsAll es hfs hx).mono fun x hx => by simp [Expr.nodesAll, hx]
termination_by structural es => es

theorem node_of_ringIndices : (ds : List Dimension) → (es : List Expr) → {es' : List Expr} →
    {x' : Expr} → m.ringIndices ds es = .ok es' → x' ∈ Expr.nodesAll es' →
    m.SlottedFrom (Expr.nodesAll es) x'
  | _, [], es', x', h, hx => by
    obtain rfl := Except.ok.inj h
    cases hx
  | [], _ :: _, es', x', h, hx => by
    obtain rfl := Except.ok.inj h
    cases hx
  | d :: ds, e :: es, es', x', h, hx => by
    obtain ⟨f, hf, h⟩ := bind_eq_ok.1 h
    obtain ⟨fs, hfs, h⟩ := bind_eq_ok.1 h
    obtain rfl := Except.ok.inj h
    rcases List.mem_append.1 hx with hx | hx
    · split at hf
      · obtain ⟨j, hj, rfl⟩ := slotAt_isSlot hf
        exact .inl ⟨j, hj, List.mem_singleton.1 hx⟩
      · exact (node_of_toSlots e hf hx).mono fun x hx => by simp [Expr.nodesAll, hx]
    · exact (node_of_ringIndices ds es hfs hx).mono fun x hx => by simp [Expr.nodesAll, hx]
termination_by structural _ es => es

end

/-- The index on every time axis of a ringed array becomes a slot. -/
theorem ringIndices_isSlot {ds : List Dimension} {es es' : List Expr}
    (h : m.ringIndices ds es = .ok es') {i : Nat} {d : Dimension} {e : Expr}
    (hd : ds[i]? = some d) (htime : d.isTime) (he : es'[i]? = some e) : m.IsSlot e := by
  induction es generalizing ds es' i with
  | nil =>
    obtain rfl := Except.ok.inj h
    cases he
  | cons f es ih =>
    cases ds with
    | nil => cases hd
    | cons d' ds =>
      obtain ⟨f', hf, h⟩ := bind_eq_ok.1 h
      obtain ⟨fs, hfs, h⟩ := bind_eq_ok.1 h
      obtain rfl := Except.ok.inj h
      cases i with
      | zero =>
        obtain rfl := Option.some.inj hd
        obtain rfl := Option.some.inj he
        rw [if_pos htime] at hf
        exact slotAt_isSlot hf
      | succ i => exact ih hfs hd he

theorem slotted_of_toSlots {e e' : Expr} (h : m.toSlots e = .ok e') : m.Slotted e' := by
  cases e with
  | access a es =>
    unfold toSlots at h
    split at h
    · obtain ⟨es', hes, h⟩ := bind_eq_ok.1 h
      obtain rfl := Except.ok.inj h
      exact fun _ _ _ _ hd htime he => ringIndices_isSlot hes hd htime he
    · rename_i hring
      obtain ⟨es', -, h⟩ := bind_eq_ok.1 h
      obtain rfl := Except.ok.inj h
      exact fun hring' => absurd hring' hring
  | neg e =>
    obtain ⟨f, -, h⟩ := bind_eq_ok.1 h
    obtain rfl := Except.ok.inj h
    trivial
  | binary op l r =>
    obtain ⟨l', -, h⟩ := bind_eq_ok.1 h
    obtain ⟨r', -, h⟩ := bind_eq_ok.1 h
    obtain rfl := Except.ok.inj h
    trivial
  | _ =>
    obtain rfl := Except.ok.inj h
    trivial

/-- All references have slots once they have been put in. -/
theorem toSlots_slotted {e e' : Expr} (h : m.toSlots e = .ok e') : m.AllSlotted e' := by
  intro x' hx'
  rcases node_of_toSlots e h hx' with ⟨k, -, rfl⟩ | ⟨x, -, hx⟩
  · trivial
  · exact slotted_of_toSlots hx

end March
end GridKernel
