import GridKernel.March.Ring
import GridKernel.Proofs.Extents
import GridKernel.Proofs.Names

/-! Updates of slots. The statements at the top of a step set one slot scalar after another, each to
a remainder by the number of slots: the first of the time, every other of one past the scalar set
before it. -/
namespace GridKernel.March

variable {m : March}

theorem slotScalar_inj {i j : Nat} (h : (slotScalar i).name = (slotScalar j).name) : i = j := by
  have hnames : "t" ++ i.repr = "t" ++ j.repr := h
  exact Identifier.append_repr_inj hnames

theorem mem_slotScalars_iff {s : Scalar} :
    s ∈ m.slotScalars ↔ m.hasRing ∧ ∃ k ≤ m.order.toNat, s = slotScalar k := by
  unfold slotScalars
  split
  · rename_i hring
    simp only [hring, true_and, List.mem_map, List.mem_range, Nat.lt_succ_iff, @eq_comm _ s]
  · rename_i hring
    simp [hring]

theorem mem_slotScalars (hring : m.hasRing) {j : Nat} (hj : j ≤ m.order.toNat) :
    slotScalar j ∈ m.slotScalars :=
  mem_slotScalars_iff.2 ⟨hring, j, hj, rfl⟩

/-- The slot scalar that is set by a statement that advances the slots. -/
def nthSlot (m : March) (k : Nat) : Nat := if m.forward then k else m.order.toNat - k

theorem nthSlot_le {k : Nat} (hk : k ≤ m.order.toNat) : m.nthSlot k ≤ m.order.toNat := by
  unfold nthSlot
  split <;> omega

theorem nthSlot_nthSlot {j : Nat} (hj : j ≤ m.order.toNat) : m.nthSlot (m.nthSlot j) = j := by
  unfold nthSlot
  split
  · rfl
  · omega

/-- The statement that sets a slot from the one before it, the first of them from the time. -/
def advanceSlot (m : March) (k : Nat) : Stmt :=
  let level : Expr := if k = 0 then .dim m.timeCounter
    else .binary .add (.scalar (slotScalar (m.nthSlot (k - 1)))) (.int 1)
  .assign (.scalar (slotScalar (m.nthSlot k)))
    (level.rem (.int (Int64.ofNat (m.order.toNat + 1))))

theorem advanceSlots_eq (hring : m.hasRing) : m.advanceSlots =
    (List.range (m.order.toNat + 1)).map m.advanceSlot := by
  unfold advanceSlots
  rw [hring]
  cases hforward : m.forward with
  | true =>
    refine List.map_congr_left fun k _ => ?_
    simp only [advanceSlot, nthSlot, hforward, if_true]
  | false =>
    have hreverse : (List.range (m.order.toNat + 1)).reverse =
        (List.range (m.order.toNat + 1)).map fun k => m.order.toNat - k := by
      refine List.ext_getElem (by simp) fun k _ _ => ?_
      simp
    simp only [Bool.not_true, Bool.false_eq_true, if_false, hreverse, List.map_map]
    refine List.map_congr_left fun k hk => ?_
    have hk := List.mem_range.1 hk
    have hfirst : m.order.toNat - k = m.order.toNat ↔ k = 0 := by omega
    simp only [Function.comp_apply, advanceSlot, nthSlot, hforward, Bool.false_eq_true, if_false,
      hfirst]
    split
    · rfl
    · rw [show m.order.toNat - k + 1 = m.order.toNat - (k - 1) by omega]

theorem mem_advanceSlots_iff {s : Stmt} :
    s ∈ m.advanceSlots ↔ m.hasRing ∧ ∃ n ≤ m.order.toNat, s = m.advanceSlot n := by
  cases hring : m.hasRing with
  | false => simp [advanceSlots, hring]
  | true =>
    simp only [advanceSlots_eq hring, true_and, List.mem_map, List.mem_range, Nat.lt_succ_iff,
      @eq_comm _ s]

/-- What the remainder for a slot is taken of. -/
def dividend (m : March) (n : Nat) : Expr :=
  if n = 0 then .dim m.timeCounter
  else .binary .add (.scalar (slotScalar (m.nthSlot (n - 1)))) (.int 1)

/-- The number of slots. -/
def divisor (m : March) : Expr := .int (Int64.ofNat (m.order.toNat + 1))

theorem advanceSlot_eq (m : March) (n : Nat) : m.advanceSlot n =
    .assign (.scalar (slotScalar (m.nthSlot n))) (.binary .rem (m.dividend n) m.divisor) := rfl

/-- A property of the time counter, the slot scalars, literals and operators holds of all that a
statement that advances a slot mentions. -/
theorem nodes_advanceSlot {P : Expr → Prop} (hdim : P (.dim m.timeCounter))
    (hslot : ∀ j ≤ m.order.toNat, P (.scalar (slotScalar j))) (hint : ∀ k, P (.int k))
    (hbinary : ∀ op l r, P (.binary op l r)) {n : Nat} (hn : n ≤ m.order.toNat) {e : Expr}
    (he : e ∈ (m.advanceSlot n).exprs) : ∀ x ∈ e.nodes, P x := by
  have hscalar : ∀ j ≤ m.order.toNat, ∀ x ∈ (Expr.scalar (slotScalar (m.nthSlot j))).nodes, P x :=
    fun j hj => Expr.nodes_of_leaf rfl (hslot _ (nthSlot_le hj))
  have hliteral : ∀ k, ∀ x ∈ (Expr.int k).nodes, P x := fun k => Expr.nodes_of_leaf rfl (hint k)
  rw [advanceSlot_eq, Stmt.exprs, List.mem_pair] at he
  rcases he with rfl | rfl
  · exact hscalar n hn
  · refine Expr.nodes_of_binary (hbinary _ _ _) ?_ (hliteral _)
    unfold dividend
    split
    · exact Expr.nodes_of_leaf rfl hdim
    · exact Expr.nodes_of_binary (hbinary _ _ _) (hscalar _ (by omega)) (hliteral _)

/-- A statement that advances a slot takes one remainder. -/
theorem eq_of_rem_mem {n : Nat} {e l r : Expr} (he : e ∈ (m.advanceSlot n).exprs)
    (hrem : .binary .rem l r ∈ e.nodes) : l = m.dividend n ∧ r = m.divisor := by
  have hdividend : .binary .rem l r ∉ (m.dividend n).nodes := by
    unfold dividend
    split <;> simp [Expr.nodes]
  rw [advanceSlot_eq, Stmt.exprs, List.mem_pair] at he
  rcases he with rfl | rfl
  · simp [Expr.nodes] at hrem
  · simpa [Expr.nodes, hdividend, divisor] using hrem

end GridKernel.March
