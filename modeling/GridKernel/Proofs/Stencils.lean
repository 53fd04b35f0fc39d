import GridKernel.Proofs.MarchRuns

/-! Stencils. An index at a constant offset from an axis keeps its offset when the axis is replaced
by a loop counter. Resolving an expression keeps what its operands refer to, and puts the slot of a
level for an offset from the current time. -/
namespace GridKernel

namespace Expr

variable {e : Expr} {d c : Dimension} {k : Int64} {r : Replacements}

/-- The forms of an index at a constant offset from an axis. -/
theorem offset?_cases (h : e.offset? = .ok (some (d, k))) :
    (e = .dim d ∧ k = 0) ∨ e = .binary .add (.dim d) (.int k) ∨
      e = .binary .add (.int k) (.dim d) ∨
        ∃ j, e = .binary .sub (.dim d) (.int j) ∧ Word.neg j = .ok k := by
  unfold offset? at h
  split at h
  · obtain ⟨rfl, rfl⟩ := Prod.mk.inj (Option.some.inj (Except.ok.inj h))
    exact .inl ⟨rfl, rfl⟩
  · obtain ⟨rfl, rfl⟩ := Prod.mk.inj (Option.some.inj (Except.ok.inj h))
    exact .inr (.inl rfl)
  · obtain ⟨rfl, rfl⟩ := Prod.mk.inj (Option.some.inj (Except.ok.inj h))
    exact .inr (.inr (.inl rfl))
  · obtain ⟨w, hw, h⟩ := bind_eq_ok.1 h
    obtain ⟨rfl, rfl⟩ := Prod.mk.inj (Option.some.inj (Except.ok.inj h))
    exact .inr (.inr (.inr ⟨_, rfl, hw⟩))
  · cases h

theorem nodes_of_offset? {P : Expr → Prop} (hint : ∀ k, P (.int k)) (hdim : ∀ d, P (.dim d))
    (hbinary : ∀ op l r, P (.binary op l r)) (h : e.offset? = .ok (some (d, k))) :
    ∀ x ∈ e.nodes, P x := by
  have hnode : ∀ x ∈ (Expr.dim d).nodes, P x := nodes_of_leaf rfl (hdim d)
  rcases offset?_cases h with ⟨rfl, rfl⟩ | rfl | rfl | ⟨j, rfl, -⟩
  · exact hnode
  · exact nodes_of_binary (hbinary _ _ _) hnode (nodes_of_leaf rfl (hint k))
  · exact nodes_of_binary (hbinary _ _ _) (nodes_of_leaf rfl (hint k)) hnode
  · exact nodes_of_binary (hbinary _ _ _) hnode (nodes_of_leaf rfl (hint j))

/-- An index at an offset from an axis is at that offset from the counter of the axis. -/
theorem offset?_replace (hr : r.RenamesAxes) (hd : (dim d).replace r = .dim c)
    (h : e.offset? = .ok (some (d, k))) : (e.replace r).offset? = .ok (some (c, k)) := by
  have hint : ∀ j, (int j).replace r = .int j := fun j => by
    simp [replace, find?_eq_none hr]
  rcases offset?_cases h with ⟨rfl, rfl⟩ | rfl | rfl | ⟨j, rfl, hj⟩
  · rw [hd]
    rfl
  · rw [replace_binary hr, hd, hint]
    rfl
  · rw [replace_binary hr, hd, hint]
    rfl
  · rw [replace_binary hr, hd, hint, offset?, hj]
    rfl

end Expr

namespace Machine

variable {R : Type} [Arithmetic R] [ExactIntegers R] {M : Machine R}

/-- An index at an offset from an axis has the index of the axis plus the offset as its value. -/
theorem Evaluates.offset {e : Expr} {d : Dimension} {k : Int64} {i : Int}
    (h : e.offset? = .ok (some (d, k))) (hd : M.Evaluates (.dim d) i)
    (hk : k.toInt.natAbs ≤ 2 ^ 53) (hsum : (i + k.toInt).natAbs ≤ 2 ^ 53) :
    M.Evaluates e (i + k.toInt) := by
  rcases Expr.offset?_cases h with ⟨rfl, rfl⟩ | rfl | rfl | ⟨j, rfl, hj⟩
  · have hzero : (0 : Int64).toInt = 0 := rfl
    rwa [hzero, Int.add_zero]
  · exact hd.add (.int hk) hsum
  · rw [Int.add_comm] at hsum ⊢
    exact (Evaluates.int hk).add hd hsum
  · have hneg := Word.neg_eq_ok hj
    have hsub := hd.sub (Evaluates.int (n := j) (by omega)) (by omega)
    rwa [hneg, ← Int.sub_eq_add_neg]

end Machine

namespace March

open Machine

variable {m : March} {specs : Specs}

/-- The axes of the grid are replaced by their loop counters. -/
theorem replace_spaceDims (hm : Configured specs m) :
    List.Forall₂ (fun d c => (Expr.dim d).replace m.toCounters = .dim c) m.spaceDims
      m.spaceCounters := by
  obtain ⟨hpos, hmax⟩ := hm.rank
  have hrank : specs.shape.length = 1 ∨ specs.shape.length = 2 ∨ specs.shape.length = 3 := by
    have hthree : maxRank = 3 := rfl
    omega
  unfold toCounters
  rw [hm.spaceDims, hm.spaceCounters, hm.timeDim, hm.timeCounter]
  rcases hrank with h | h | h <;> rw [h]
  · exact .cons rfl .nil
  · exact .cons rfl (.cons rfl .nil)
  · exact .cons rfl (.cons rfl (.cons rfl .nil))

/-- The time axis is replaced by the time counter. -/
theorem replace_timeDim (m : March) :
    (Expr.dim m.timeDim).replace m.toCounters = .dim m.timeCounter := by
  have hlast : m.toCounters.find? (.dim m.timeDim) = some (.dim m.timeCounter) := by
    rw [toCounters, find?_append]
    simp [Replacements.find?, Expr.same, m.timeDim.same_self]
  have hreplace : (Expr.dim m.timeDim).replace m.toCounters =
      (m.toCounters.find? (.dim m.timeDim)).getD (.dim m.timeDim) := rfl
  rw [hreplace, hlast, Option.getD_some]

/-- No reference to a ringed array has an index along time or past the axes of the array. -/
def Untimed (m : March) (e : Expr) : Prop :=
  ∀ a es, .access a es ∈ e.nodes → m.isRinged a.name →
    (∀ d ∈ a.dims, d.isTime = false) ∧ es.length ≤ a.dims.length

mutual

/-- Without a time index of a ringed array no index becomes a slot. -/
theorem toSlots_of_untimed : (e : Expr) → m.Untimed e → m.toSlots e = .ok e
  | .access a es, h => by
    have hes : ∀ e ∈ es, m.Untimed e := by
      intro e he b fs hb
      exact h b fs (List.mem_cons_of_mem _ (Expr.mem_nodesAll.2 ⟨e, he, hb⟩))
    rw [toSlots]
    split
    · rename_i hring
      obtain ⟨hspace, hlength⟩ := h a es (by simp [Expr.nodes]) hring
      rw [ringIndices_of_untimed a.dims hspace es hes hlength]
      rfl
    · rw [toSlotsAll_of_untimed es hes]
      rfl
  | .neg e, h => by
    rw [toSlots, toSlots_of_untimed e fun a es ha => h a es (by simp [Expr.nodes, ha])]
    rfl
  | .binary op l r, h => by
    rw [toSlots, toSlots_of_untimed l fun a es ha => h a es (by simp [Expr.nodes, ha]),
      toSlots_of_untimed r fun a es ha => h a es (by simp [Expr.nodes, ha])]
    rfl
  | .int _, _ | .float _, _ | .symbol _, _ | .scalar _, _ | .dim _, _ | .size _, _ => rfl
termination_by structural e => e

theorem toSlotsAll_of_untimed :
    (es : List Expr) → (∀ e ∈ es, m.Untimed e) → m.toSlotsAll es = .ok es
  | [], _ => rfl
  | e :: es, h => by
    rw [toSlotsAll, toSlots_of_untimed e (h e (by simp)),
      toSlotsAll_of_untimed es fun e he => h e (by simp [he])]
    rfl
termination_by structural es => es

theorem ringIndices_of_untimed (ds : List Dimension) (hds : ∀ d ∈ ds, d.isTime = false) :
    (es : List Expr) → (∀ e ∈ es, m.Untimed e) → es.length ≤ ds.length →
      m.ringIndices ds es = .ok es
  | [], _, _ => rfl
  | e :: es, h, hlength => by
    cases ds with
    | nil => cases hlength
    | cons d ds =>
      have hrest := ringIndices_of_untimed ds (fun d hd => hds d (by simp [hd])) es
        (fun e he => h e (by simp [he])) (Nat.le_of_succ_le_succ hlength)
      rw [ringIndices, hds d (by simp), hrest]
      simp only [Bool.false_eq_true, if_false, toSlots_of_untimed e (h e (by simp))]
      rfl
termination_by structural es => es

end

/-- Without rings no time index becomes a slot. -/
theorem toSlots_of_no_ring (hring : m.hasRing = false) (e : Expr) : m.toSlots e = .ok e := by
  apply toSlots_of_untimed
  intro a es _ ha
  rw [isRinged_eq_false hring] at ha
  cases ha

theorem toRing_eq (m : March) (e : Expr) : m.toRing e = m.toSlots e := by
  unfold toRing
  split
  · rfl
  · rename_i hring
    rw [toSlots_of_no_ring (by simpa using hring)]

theorem untimed_of_flat {e : Expr} (h : Flat e) : m.Untimed e :=
  fun a es ha _ => absurd rfl (h (.access a es) ha a es)

/-- An expression that refers to no array has no time index that becomes a slot. -/
theorem toSlots_of_flat (e : Expr) (h : Flat e) : m.toSlots e = .ok e :=
  toSlots_of_untimed e (untimed_of_flat h)

theorem toSlotsAll_of_flat {es : List Expr} (h : ∀ e ∈ es, Flat e) : m.toSlotsAll es = .ok es :=
  toSlotsAll_of_untimed es fun e he => untimed_of_flat (h e he)

/-- The indices on some axes of a reference, with the slots of a ring if the array has one. -/
def slotIndices (m : March) (ringed : Bool) (ds : List Dimension) (es : List Expr) :
    Result (List Expr) :=
  if ringed then m.ringIndices ds es else m.toSlotsAll es

theorem toSlots_access {a : GridArray} {es : List Expr} : m.toSlots (.access a es) = do
    return .access a (← m.slotIndices (m.isRinged a.name) a.dims es) := by
  rw [toSlots, slotIndices]
  split <;> rfl

theorem length_toSlotsAll {es es' : List Expr} (h : m.toSlotsAll es = .ok es') :
    es'.length = es.length := by
  induction es generalizing es' with
  | nil =>
    obtain rfl := Except.ok.inj h
    rfl
  | cons e es ih =>
    obtain ⟨f, -, h⟩ := bind_eq_ok.1 h
    obtain ⟨fs, hfs, h⟩ := bind_eq_ok.1 h
    obtain rfl := Except.ok.inj h
    rw [List.length_cons, List.length_cons, ih hfs]

/-- What a node has by its operator and its entity alone, slots included. -/
structure HeadsOnly (m : March) (Q : Expr → Prop) : Prop where
  access (a : GridArray) (es es' : List Expr) (h : Q (.access a es)) : Q (.access a es')
  neg (e : Expr) : Q (.neg e)
  binary (op : BinaryOp) (l r : Expr) : Q (.binary op l r)
  dim (d : Dimension) : Q (.dim d)
  slot (j : Nat) (h : slotScalar j ∈ m.slotScalars) : Q (.scalar (slotScalar j))

variable {Q : Expr → Prop}

theorem HeadsOnly.toSlots (hQ : m.HeadsOnly Q) {e e' : Expr} (h : m.toSlots e = .ok e')
    (he : Q e) : Q e' := by
  cases e with
  | access a es =>
    rw [toSlots_access] at h
    obtain ⟨es', -, h⟩ := bind_eq_ok.1 h
    obtain rfl := Except.ok.inj h
    exact hQ.access a es es' he
  | neg e =>
    obtain ⟨f, -, h⟩ := bind_eq_ok.1 h
    obtain rfl := Except.ok.inj h
    exact hQ.neg f
  | binary op l r =>
    obtain ⟨l', -, h⟩ := bind_eq_ok.1 h
    obtain ⟨r', -, h⟩ := bind_eq_ok.1 h
    obtain rfl := Except.ok.inj h
    exact hQ.binary op l' r'
  | _ =>
    obtain rfl := Except.ok.inj h
    exact he

theorem HeadsOnly.slottedFrom (hQ : m.HeadsOnly Q) (hring : m.hasRing) {xs : List Expr} {x' : Expr}
    (h : m.SlottedFrom xs x') (hxs : ∀ x ∈ xs, Q x) : Q x' := by
  rcases h with ⟨j, hj, rfl⟩ | ⟨x, hx, hslots⟩
  · exact hQ.slot j (mem_slotScalars hring hj)
  · exact hQ.toSlots hslots (hxs x hx)

theorem nodes_toSlots (hQ : m.HeadsOnly Q) (hring : m.hasRing) {e e' : Expr}
    (h : m.toSlots e = .ok e') (he : ∀ x ∈ e.nodes, Q x) : ∀ x ∈ e'.nodes, Q x :=
  fun _ hx => hQ.slottedFrom hring (node_of_toSlots e h hx) he

theorem nodes_slotIndices (hQ : m.HeadsOnly Q) (hring : m.hasRing) {ringed : Bool}
    {ds : List Dimension} {es es' : List Expr} (h : m.slotIndices ringed ds es = .ok es')
    (hes : ∀ x ∈ Expr.nodesAll es, Q x) : ∀ x ∈ Expr.nodesAll es', Q x := by
  intro x hx
  unfold slotIndices at h
  split at h
  · exact hQ.slottedFrom hring (node_of_ringIndices ds es h hx) hes
  · exact hQ.slottedFrom hring (node_of_toSlotsAll es h hx) hes

theorem HeadsOnly.replace (hQ : m.HeadsOnly Q) {r : Replacements} (hr : r.RenamesAxes) {e : Expr}
    (h : Q e) : Q (e.replace r) := by
  cases e with
  | access a es =>
    rw [Expr.replace_access hr]
    exact hQ.access a es _ h
  | neg e =>
    rw [Expr.replace_neg hr]
    exact hQ.neg _
  | binary op l r =>
    rw [Expr.replace_binary hr]
    exact hQ.binary op _ _
  | dim d =>
    obtain ⟨c, hc⟩ := Expr.replace_dim hr d
    rw [hc]
    exact hQ.dim c
  | _ => simpa [Expr.replace, Expr.find?_eq_none hr] using h

theorem HeadsOnly.replaceAll (hQ : m.HeadsOnly Q) {r : Replacements} (hr : r.RenamesAxes)
    {es : List Expr} (h : ∀ x ∈ Expr.nodesAll es, Q x) :
    ∀ x ∈ Expr.nodesAll (Expr.replaceAll r es), Q x := by
  rw [Expr.nodesAll_replace hr]
  intro x hx
  obtain ⟨y, hy, rfl⟩ := List.mem_map.1 hx
  exact hQ.replace hr (h y hy)

/-- What the nodes of an expression have by their heads, those of the resolved expression have. -/
theorem nodes_resolveExpr (hQ : m.HeadsOnly Q) {e e' : Expr}
    (h : m.resolveExpr e = .ok e') (he : ∀ x ∈ e.nodes, Q x) : ∀ x ∈ e'.nodes, Q x := by
  have hr := m.toCounters_renamesAxes
  obtain ⟨f, hf, h⟩ := bind_eq_ok.1 h
  obtain rfl := Except.ok.inj h
  have hslots : ∀ x ∈ f.nodes, Q x := by
    rw [toRing_eq] at hf
    cases hring : m.hasRing with
    | true => exact nodes_toSlots hQ hring hf he
    | false =>
      rw [toSlots_of_no_ring hring] at hf
      obtain rfl := Except.ok.inj hf
      exact he
  rw [Expr.nodes_replace hr]
  intro x hx
  obtain ⟨y, hy, rfl⟩ := List.mem_map.1 hx
  exact hQ.replace hr (hslots y hy)

end March
end GridKernel
