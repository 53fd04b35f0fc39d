import GridKernel.Word

/-!
Dense buffers in row-major order. A multi-index addresses a cell when it has one entry per axis and
every entry is within its extent; the cell's offset is then the rank of the multi-index in
lexicographic order.
-/
namespace GridKernel

structure Buffer (R : Type) where
  dims : List UInt64
  cells : Array R
deriving Inhabited

namespace Buffer

variable {R : Type}

/-- The most cells that can be allocated. -/
def capacity : Nat := 2 ^ 60 - 1

/-- A buffer filled with one value. -/
def filled (dims : List UInt64) (value : R) : Result (Buffer R) := do
  let count ← Word.product dims
  if count.toNat ≤ capacity then return ⟨dims, Array.replicate count.toNat value⟩
  else .error .overflow

/-- A buffer over given cells, which have to fill it. -/
def ofCells (dims : List UInt64) (cells : Array R) : Result (Buffer R) := do
  let count ← Word.product dims
  if count.toNat = cells.size then return ⟨dims, cells⟩
  else refuse (.unfilled cells.size (dims.map UInt64.toNat))

/-- The offset of a multi-index below a block of earlier cells. -/
def offsetFrom (block : Nat) : List UInt64 → List Int64 → Option Nat
  | [], [] => some block
  | n :: ns, i :: is =>
    if 0 ≤ i.toInt ∧ i.toInt < n.toNat then offsetFrom (block * n.toNat + i.toInt.toNat) ns is
    else none
  | _, _ => none

def offset? (b : Buffer R) (indices : List Int64) : Option Nat := offsetFrom 0 b.dims indices

def get? (b : Buffer R) (indices : List Int64) : Option R :=
  (b.offset? indices).bind fun k => b.cells[k]?

def set? (b : Buffer R) (indices : List Int64) (value : R) : Option (Buffer R) :=
  (b.offset? indices).map fun k => { b with cells := b.cells.setIfInBounds k value }

@[simp] theorem dims_of_set? {b c : Buffer R} {indices : List Int64} {value : R}
    (h : b.set? indices value = some c) : c.dims = b.dims := by
  obtain ⟨k, -, rfl⟩ := Option.map_eq_some_iff.1 h
  rfl

end Buffer

end GridKernel
