import Mathlib.Data.List.Forall2
import Mathlib.Algebra.BigOperators.Group.List.Basic
import GridKernel.Machine.Buffer

/-! Cells of dense buffers. The multi-indices within the extents of a buffer address pairwise
different cells, so a store is seen at its own multi-index and at no other. -/
namespace GridKernel.Buffer

variable {R : Type}

/-- A multi-index has one entry per extent and every entry is within its extent. -/
def InBounds (dims : List UInt64) (indices : List Int64) : Prop :=
  List.Forall₂ (fun n i => 0 ≤ i.toInt ∧ i.toInt < n.toNat) dims indices

/-- The number of cells that extents span. -/
def volume (dims : List UInt64) : Nat := (dims.map UInt64.toNat).prod

/-- A buffer has exactly the cells that its extents span. -/
def Full (b : Buffer R) : Prop := b.cells.size = volume b.dims

@[simp] theorem volume_cons (n : UInt64) (ns : List UInt64) :
    volume (n :: ns) = n.toNat * volume ns := by simp [volume]

theorem offsetFrom_eq_none {block : Nat} {dims : List UInt64} {indices : List Int64}
    (h : ¬ InBounds dims indices) : offsetFrom block dims indices = none := by
  induction dims generalizing block indices with
  | nil =>
    cases indices with
    | nil => exact absurd .nil h
    | cons i is => rfl
  | cons n ns ih =>
    cases indices with
    | nil => rfl
    | cons i is =>
      unfold offsetFrom
      split
      · rename_i hi
        exact ih fun his => h (.cons hi his)
      · rfl

/-- The offset of a multi-index lies in the block of cells that the earlier entries select. -/
theorem offsetFrom_eq_some (block : Nat) {dims : List UInt64} {indices : List Int64}
    (h : InBounds dims indices) :
    ∃ k, offsetFrom block dims indices = some k ∧ block * volume dims ≤ k ∧
      k < (block + 1) * volume dims := by
  induction h generalizing block with
  | nil => exact ⟨block, rfl, by simp [volume], by simp [volume]⟩
  | @cons n i ns is hi his ih =>
    obtain ⟨k, hk, hlow, hhigh⟩ := ih (block * n.toNat + i.toInt.toNat)
    refine ⟨k, by simpa [offsetFrom, hi] using hk, ?_, ?_⟩
    · rw [volume_cons, ← Nat.mul_assoc]
      exact Nat.le_trans (Nat.mul_le_mul_right _ (Nat.le_add_right _ _)) hlow
    · rw [volume_cons, ← Nat.mul_assoc]
      refine Nat.lt_of_lt_of_le hhigh (Nat.mul_le_mul_right _ ?_)
      rw [Nat.add_mul, Nat.one_mul]
      omega

theorem block_entry_inj {n block block' i j : Nat} (hi : i < n) (hj : j < n)
    (h : block * n + i = block' * n + j) : block = block' ∧ i = j := by
  have hdiv (b k : Nat) (hk : k < n) : (b * n + k) / n = b := by
    rw [Nat.mul_comm, Nat.mul_add_div (by omega), Nat.div_eq_of_lt hk, Nat.add_zero]
  have hb : block = block' := by rw [← hdiv block i hi, h, hdiv block' j hj]
  subst hb
  exact ⟨rfl, by omega⟩

/-- The first entry of a multi-index selects a block, and the other entries a cell in it. -/
theorem offsetFrom_cons_eq_some {block k : Nat} {n : UInt64} {ns : List UInt64}
    {indices : List Int64} :
    offsetFrom block (n :: ns) indices = some k ↔
      ∃ i is, indices = i :: is ∧ (0 ≤ i.toInt ∧ i.toInt < n.toNat) ∧
        offsetFrom (block * n.toNat + i.toInt.toNat) ns is = some k := by
  cases indices with
  | nil => simp [offsetFrom]
  | cons i is => simp [offsetFrom, and_assoc]

/-- Multi-indices with the same offset are equal. -/
theorem offsetFrom_inj {block block' k : Nat} {dims : List UInt64} {is js : List Int64}
    (hi : offsetFrom block dims is = some k) (hj : offsetFrom block' dims js = some k) :
    block = block' ∧ is = js := by
  induction dims generalizing block block' is js with
  | nil => cases is <;> cases js <;> simp_all [offsetFrom]
  | cons n ns ih =>
    obtain ⟨i, is, rfl, hib, hi⟩ := offsetFrom_cons_eq_some.1 hi
    obtain ⟨j, js, rfl, hjb, hj⟩ := offsetFrom_cons_eq_some.1 hj
    obtain ⟨hblock, rfl⟩ := ih hi hj
    obtain ⟨rfl, hij⟩ := block_entry_inj (by omega) (by omega) hblock
    exact ⟨rfl, by rw [Int64.toInt_inj.1 (show i.toInt = j.toInt by omega)]⟩

theorem offset?_inj {b : Buffer R} {is js : List Int64} {k : Nat}
    (hi : b.offset? is = some k) (hj : b.offset? js = some k) : is = js :=
  (offsetFrom_inj hi hj).2

theorem Full.offset? {b : Buffer R} (hb : b.Full) {indices : List Int64}
    (h : InBounds b.dims indices) : ∃ k, b.offset? indices = some k ∧ k < b.cells.size := by
  obtain ⟨k, hk, -, hlt⟩ := offsetFrom_eq_some 0 h
  exact ⟨k, hk, by rw [hb]; simpa using hlt⟩

theorem get?_eq_none {b : Buffer R} {indices : List Int64} (h : ¬ InBounds b.dims indices) :
    b.get? indices = none := by
  simp [get?, offset?, offsetFrom_eq_none h]

theorem Full.get? {b : Buffer R} (hb : b.Full) {indices : List Int64}
    (h : InBounds b.dims indices) : ∃ value, b.get? indices = some value := by
  obtain ⟨k, hk, hlt⟩ := hb.offset? h
  exact ⟨b.cells[k], by simp [Buffer.get?, hk, hlt]⟩

theorem InBounds.set? {b : Buffer R} {indices : List Int64} (h : InBounds b.dims indices)
    (value : R) : ∃ c, b.set? indices value = some c := by
  obtain ⟨k, hk, -⟩ := offsetFrom_eq_some 0 h
  exact ⟨{ b with cells := b.cells.setIfInBounds k value }, by simp [Buffer.set?, offset?, hk]⟩

theorem Full.set? {b c : Buffer R} (hb : b.Full) {indices : List Int64} {value : R}
    (h : b.set? indices value = some c) : c.Full := by
  obtain ⟨k, -, rfl⟩ := Option.map_eq_some_iff.1 h
  simpa [Full] using hb

/-- A store changes the cell that it names and no other. -/
theorem Full.get?_set? {b c : Buffer R} (hb : b.Full) {is : List Int64} {value : R}
    (h : b.set? is value = some c) (js : List Int64) :
    c.get? js = if js = is then some value else b.get? js := by
  obtain ⟨k, hk, rfl⟩ := Option.map_eq_some_iff.1 h
  have hdims (l : List Int64) :
      Buffer.offset? { b with cells := b.cells.setIfInBounds k value } l = b.offset? l := rfl
  unfold Buffer.get?
  rw [hdims]
  cases hj : b.offset? js with
  | none =>
    have hne : js ≠ is := by
      rintro rfl
      simp [hj] at hk
    simp [hne]
  | some l =>
    by_cases hl : k = l
    · subst hl
      obtain rfl := offset?_inj hj hk
      have hin : InBounds b.dims js := by
        by_contra hout
        simp [Buffer.offset?, offsetFrom_eq_none hout] at hj
      obtain ⟨k', hk', hlt⟩ := hb.offset? hin
      obtain rfl := Option.some.inj (hk.symm.trans hk')
      simp [hlt]
    · have hne : js ≠ is := by
        rintro rfl
        exact hl (Option.some.inj (hk.symm.trans hj))
      simp [hne, hl]

end GridKernel.Buffer
