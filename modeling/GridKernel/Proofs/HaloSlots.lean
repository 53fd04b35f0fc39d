import GridKernel.Proofs.HaloOwner

/-! Messages between owners. A transfer buffer is sent by copying slot 0 of the sender's buffer into
slot 1 of the receiver's. -/
namespace GridKernel

namespace Buffer

variable {R : Type}

/-- The offset below a block is counted from the start of the block. -/
theorem offsetFrom_eq_map (block : Nat) (dims : List UInt64) (is : List Int64) :
    offsetFrom block dims is = (offsetFrom 0 dims is).map fun k => block * volume dims + k := by
  by_cases his : InBounds dims is
  · induction his generalizing block with
    | nil => simp [offsetFrom, volume]
    | @cons n i dims is hi _ ih =>
      simp only [offsetFrom, if_pos hi]
      rw [ih (block * n.toNat + i.toInt.toNat), ih (0 * n.toNat + i.toInt.toNat), Option.map_map]
      congr 1
      funext k
      simp only [Function.comp_apply, volume_cons, Nat.add_mul, Nat.zero_mul, Nat.mul_assoc]
      omega
  · rw [offsetFrom_eq_none his, offsetFrom_eq_none his]
    rfl

/-- The buffer after a message: its second half holds the first half of what was sent. -/
def receive (b sent : Buffer R) : Buffer R :=
  { b with
    cells := b.cells.extract 0 (b.cells.size / 2) ++ sent.cells.extract 0 (sent.cells.size / 2) }

section Slots

variable {b sent : Buffer R} {n : UInt64} {dims : List UInt64}

theorem Full.half (hb : b.Full) (hn : n.toNat = 2) (hdims : b.dims = n :: dims) :
    b.cells.size = 2 * volume dims := by
  rw [hb, hdims, volume_cons, hn]

/-- A cell of the first slot. -/
theorem get?_first (hn : n.toNat = 2) (hdims : b.dims = n :: dims) (is : List Int64) :
    b.get? (0 :: is) = (offsetFrom 0 dims is).bind fun k => b.cells[k]? := by
  have hzero : (0 : Int64).toInt = 0 := rfl
  simp [get?, offset?, hdims, offsetFrom, hzero, hn]

/-- A cell of the second slot. -/
theorem get?_second (hn : n.toNat = 2) (hdims : b.dims = n :: dims) (is : List Int64) :
    b.get? (1 :: is) = (offsetFrom 0 dims is).bind fun k => b.cells[volume dims + k]? := by
  have hone : (1 : Int64).toInt = 1 := rfl
  have hoffset : b.offset? (1 :: is) = offsetFrom 1 dims is := by
    simp [offset?, hdims, offsetFrom, hone, hn]
  rw [get?, hoffset, offsetFrom_eq_map, Option.bind_map, Nat.one_mul]
  rfl

variable (hb : b.Full) (hsent : sent.Full) (hn : n.toNat = 2) (hdims : b.dims = n :: dims)
  (hsame : sent.dims = b.dims)
include hb hsent hn hdims hsame

theorem Full.receive : (b.receive sent).Full := by
  have hsize := hb.half hn hdims
  have hsize' := hsent.half hn (hsame.trans hdims)
  have hhalf : 2 * volume dims / 2 = volume dims := by omega
  unfold Full Buffer.receive
  rw [hdims, volume_cons, hn, Array.size_append, Array.size_extract, Array.size_extract, hsize,
    hsize', hhalf]
  omega

/-- A message puts the sender's first slot in the second slot. -/
theorem get?_receive (is : List Int64) : (b.receive sent).get? (1 :: is) = sent.get? (0 :: is) := by
  have hsize := hb.half hn hdims
  have hsize' := hsent.half hn (hsame.trans hdims)
  rw [get?_first hn (hsame.trans hdims), get?_second (b := b.receive sent) hn hdims]
  by_cases his : InBounds dims is
  · obtain ⟨k, hk, -, hlt⟩ := offsetFrom_eq_some 0 his
    simp only [hk, Option.bind_some]
    rw [Buffer.receive, Array.getElem?_append_right (by rw [Array.size_extract]; omega)]
    rw [Array.size_extract, hsize, hsize', Array.getElem?_extract]
    have hlow : volume dims + k - (min (2 * volume dims / 2) (2 * volume dims) - 0) = k := by omega
    rw [hlow, if_pos (by omega), Nat.zero_add]
  · rw [offsetFrom_eq_none his]
    rfl

end Slots
end Buffer

namespace Machine

variable {R : Type} {m sender : Machine R} {name other : String} {b sent : Buffer R}

/-- The machine after it has received a transfer buffer of another one. -/
def receive (m : Machine R) (name : String) (sender : Machine R) (sent : String) : Machine R :=
  match m.arrays[name]?, sender.arrays[sent]? with
  | some b, some c => m.bindArray name (b.receive c)
  | _, _ => m

theorem Rebinds.receive (hb : m.arrays[name]? = some b)
    (hsent : sender.arrays[other]? = some sent) :
    m.Rebinds (m.receive name sender other) name (b.receive sent) := by
  unfold Machine.receive
  rw [hb, hsent]
  refine ⟨⟨rfl, rfl⟩, by simp, fun key hne => ?_⟩
  rw [arrays_bindArray, if_neg (Ne.symm hne)]

end Machine
end GridKernel
