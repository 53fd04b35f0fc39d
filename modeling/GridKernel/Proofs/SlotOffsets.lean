import GridKernel.March.Ring
import GridKernel.Proofs.Results
import GridKernel.Proofs.Words

/-! Slots of offsets. An index at an offset from the current time becomes the slot of its level when
the ring keeps the level. Any other is refused where its slot is a signed word, and overflows where
it is not. -/
namespace GridKernel.March

variable {m : March}

/-- The ring keeps the level at an offset: one of the earlier levels of a forward march, or of the
later levels of a backward one. -/
def Kept (m : March) (o : Int) : Prop :=
  if m.forward then -(m.order.toNat : Int) ≤ o ∧ o ≤ 0 else 0 ≤ o ∧ o ≤ m.order.toNat

instance (m : March) (o : Int) : Decidable (m.Kept o) :=
  inferInstanceAs (Decidable (if m.forward then -(m.order.toNat : Int) ≤ o ∧ o ≤ 0
    else 0 ≤ o ∧ o ≤ m.order.toNat))

/-- The slot of an offset, counted exactly. -/
def slotNumber (m : March) (o : Int) : Int :=
  if m.forward then m.order.toNat + o else m.order.toNat - o

theorem kept_iff {o : Int} :
    m.Kept o ↔ 0 ≤ m.slotNumber o ∧ m.slotNumber o ≤ m.order.toNat := by
  unfold Kept slotNumber
  split <;> omega

theorem Kept.bounded {o : Int} (h : m.Kept o) : o.natAbs ≤ m.order.toNat := by
  unfold Kept at h
  split at h <;> omega

/-- How a time index fails that the ring does not keep. -/
def offRing (m : March) (o : Int) : Fault :=
  if Word.Fits o ∧ Word.Fits (m.slotNumber o) then .cause (.outsideRing o (m.order.toNat + 1))
  else .overflow

theorem slotOf_eq (horder : m.order.toNat < 2 ^ 62) (k : Int64) :
    m.slotOf k = Word.int (m.slotNumber k.toInt) := by
  have hword := Word.toInt_of_lt (n := m.order) (by omega)
  unfold slotOf slotNumber
  split
  · rw [Word.add, hword]
  · rw [Word.sub, hword]

/-- What becomes of an index that is read as an offset from the current time. -/
theorem slotAt_of_offset? (horder : m.order.toNat < 2 ^ 62) {e : Expr} {k : Int64}
    (he : e.offset? = .ok (some (m.timeDim, k))) :
    m.slotAt e = if m.Kept k.toInt then .ok (.scalar (slotScalar (m.slotNumber k.toInt).toNat))
      else .error (m.offRing k.toInt) := by
  have hkept := kept_iff (m := m) (o := k.toInt)
  have hword := Word.toInt_of_lt (n := m.order) (by omega)
  have hzero : (0 : Int64).toInt = 0 := rfl
  have hone : (1 : UInt64).toNat = 1 := rfl
  rw [slotAt, he]
  simp only [ok_bind, m.timeDim.same_self, Bool.not_true, Bool.false_eq_true, if_false,
    slotOf_eq horder]
  -- a slot that is no word is far outside the ring
  by_cases hslot : Word.Fits (m.slotNumber k.toInt)
  · obtain ⟨slot, hs, hvalue⟩ := Word.exists_int hslot
    have hin : 0 ≤ slot ∧ slot ≤ m.order.toInt64 ↔ m.Kept k.toInt := by
      rw [Int64.le_iff_toInt_le, Int64.le_iff_toInt_le, hvalue, hword, hzero, hkept]
    obtain ⟨count, hcount, hslots⟩ :
        ∃ n, Word.addSize m.order 1 = .ok n ∧ n.toNat = m.order.toNat + 1 :=
      Word.exists_size (by omega)
    rw [hs, ok_bind, hvalue]
    simp only [hin, hcount, ok_bind, hslots, offRing, Word.fits_toInt, hslot, and_self, if_true]
    rfl
  · have hnot : ¬ m.Kept k.toInt := by
      rw [hkept]
      unfold Word.Fits at hslot
      omega
    rw [Word.int_overflows.2 hslot, error_bind, if_neg hnot, offRing, if_neg fun h => hslot h.2]

/-- The slot of an offset from the current time. -/
def slotIndex (m : March) (k : Int64) : Int :=
  if m.forward then m.order.toNat + k.toInt else m.order.toNat - k.toInt

/-- The level at an offset from the current time is kept in the ring. -/
def InRing (m : March) (k : Int64) : Prop := 0 ≤ m.slotIndex k ∧ m.slotIndex k ≤ m.order.toNat

theorem inRing_iff {k : Int64} : m.InRing k ↔ m.Kept k.toInt := kept_iff.symm

theorem InRing.bounded {k : Int64} (hk : m.InRing k) : k.toInt.natAbs ≤ m.order.toNat :=
  (inRing_iff.1 hk).bounded

theorem inRing_zero (m : March) : m.InRing 0 := by
  have hzero : (0 : Int64).toInt = 0 := rfl
  rw [inRing_iff, Kept, hzero]
  split <;> omega

/-- A time index at an offset that the ring keeps becomes the slot of its level. -/
theorem slotAt_eq (horder : m.order.toNat < 2 ^ 53) {e : Expr} {k : Int64}
    (he : e.offset? = .ok (some (m.timeDim, k))) (hk : m.InRing k) :
    m.slotAt e = .ok (.scalar (slotScalar (m.slotIndex k).toNat)) := by
  rw [slotAt_of_offset? (by omega) he, if_pos (inRing_iff.1 hk)]
  rfl

/-- A time index that becomes a slot is at an offset that the ring keeps. -/
theorem inRing_of_slotAt (horder : m.order.toNat < 2 ^ 53) {e e' : Expr} {k : Int64}
    (he : e.offset? = .ok (some (m.timeDim, k))) (h : m.slotAt e = .ok e') : m.InRing k := by
  by_contra hk
  rw [slotAt_of_offset? (by omega) he, if_neg (mt inRing_iff.2 hk)] at h
  cases h

end GridKernel.March
