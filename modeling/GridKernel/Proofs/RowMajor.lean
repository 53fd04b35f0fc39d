import Mathlib.Data.Set.Card
import GridKernel.Proofs.Overflows

/-! Row-major order. The offset of a multi-index is the number of multi-indices before it in
lexicographic order, so the cells of a buffer stand in that order, each under one multi-index. A
store in place finds its offset first, and without one it changes nothing. -/
namespace GridKernel.Buffer

variable {R : Type}

theorem offset?_eq_some_iff {b : Buffer R} {is : List Int64} :
    (∃ k, b.offset? is = some k) ↔ InBounds b.dims is := by
  constructor
  · rintro ⟨k, hk⟩
    by_contra hout
    rw [offset?, offsetFrom_eq_none hout] at hk
    cases hk
  · intro hin
    obtain ⟨k, hk, -⟩ := offsetFrom_eq_some 0 hin
    exact ⟨k, hk⟩

theorem block_entry_lt {n block block' i j : Nat} (hi : i < n) (hj : j < n) :
    block * n + i < block' * n + j ↔ block < block' ∨ block = block' ∧ i < j := by
  rcases Nat.lt_trichotomy block block' with hlt | rfl | hgt
  · have hle : (block + 1) * n ≤ block' * n := Nat.mul_le_mul_right n hlt
    rw [Nat.add_mul, Nat.one_mul] at hle
    simp only [hlt, true_or, iff_true]
    omega
  · simp
  · have hle : (block' + 1) * n ≤ block * n := Nat.mul_le_mul_right n hgt
    rw [Nat.add_mul, Nat.one_mul] at hle
    constructor
    · omega
    · omega

/-- Offsets are ordered as the blocks of cells, and within a block as the multi-indices. -/
theorem offsetFrom_lt_iff {dims : List UInt64} {block block' k l : Nat} {is js : List Int64}
    (hi : offsetFrom block dims is = some k) (hj : offsetFrom block' dims js = some l) :
    k < l ↔ block < block' ∨ block = block' ∧ is < js := by
  induction dims generalizing block block' is js with
  | nil => cases is <;> cases js <;> simp_all [offsetFrom]
  | cons n ns ih =>
    obtain ⟨i, is, rfl, hib, hi⟩ := offsetFrom_cons_eq_some.1 hi
    obtain ⟨j, js, rfl, hjb, hj⟩ := offsetFrom_cons_eq_some.1 hj
    have hi' : i.toInt.toNat < n.toNat := by omega
    have hj' : j.toInt.toNat < n.toNat := by omega
    have hless : i.toInt.toNat < j.toInt.toNat ↔ i < j := by
      rw [Int64.lt_iff_toInt_lt]
      omega
    have hsame : block * n.toNat + i.toInt.toNat = block' * n.toNat + j.toInt.toNat ↔
        block = block' ∧ i = j := by
      rw [← Int64.toInt_inj]
      constructor
      · intro heq
        obtain ⟨hblock, hij⟩ := block_entry_inj hi' hj' heq
        exact ⟨hblock, by omega⟩
      · rintro ⟨rfl, heq⟩
        rw [heq]
    rw [ih hi hj, block_entry_lt hi' hj', hsame, hless, List.cons_lt_cons_iff]
    tauto

theorem offset?_lt_iff {b : Buffer R} {is js : List Int64} {k l : Nat}
    (hi : b.offset? is = some k) (hj : b.offset? js = some l) : k < l ↔ is < js := by
  rw [offsetFrom_lt_iff hi hj]
  simp

/-- Every cell of a block that signed words can index has a multi-index. -/
theorem exists_offsetFrom (block : Nat) {dims : List UInt64} {k : Nat} (hk : k < volume dims)
    (hsize : volume dims < 2 ^ 63) :
    ∃ is, offsetFrom block dims is = some (block * volume dims + k) := by
  induction dims generalizing block k with
  | nil =>
    have hzero : k = 0 := by simpa [volume] using hk
    exact ⟨[], by simp [offsetFrom, volume, hzero]⟩
  | cons n ns ih =>
    rw [volume_cons] at hk hsize
    have hrows : 0 < volume ns := Nat.pos_of_mul_pos_left (Nat.zero_lt_of_lt hk)
    obtain ⟨entry, hentry⟩ : ∃ entry : Nat, k / volume ns = entry := ⟨_, rfl⟩
    have hfirst : entry < n.toNat := hentry ▸ (Nat.div_lt_iff_lt_mul hrows).2 hk
    have hcells : volume ns ≤ n.toNat * volume ns := Nat.le_mul_of_pos_left _ (by omega)
    have hextent : n.toNat ≤ n.toNat * volume ns := Nat.le_mul_of_pos_right _ hrows
    have hword : (Int64.ofInt entry).toInt = entry := Int64.toInt_ofInt_of_le (by omega) (by omega)
    obtain ⟨is, his⟩ := ih (block * n.toNat + entry) (Nat.mod_lt k hrows) (by omega)
    refine ⟨Int64.ofInt entry :: is, ?_⟩
    rw [offsetFrom, hword, if_pos (by omega), Int.toNat_natCast, his, volume_cons, Nat.add_mul,
      Nat.mul_assoc, Nat.add_assoc, Nat.mul_comm entry, ← hentry, Nat.div_add_mod]

/-- Buffers that were filled with one value or made over cells that fit in memory, with any stores
since. -/
inductive Made : Buffer R → Prop where
  | filled {dims : List UInt64} {value : R} {b : Buffer R} (h : filled dims value = .ok b) : Made b
  | ofCells {dims : List UInt64} {cells : Array R} {b : Buffer R} (hcells : cells.size ≤ capacity)
    (h : ofCells dims cells = .ok b) : Made b
  | stored {b c : Buffer R} {is : List Int64} {value : R} (hb : Made b)
    (h : b.set? is value = some c) : Made c

namespace Made

variable {b : Buffer R}

theorem allocated (hb : b.Made) : b.Allocated := by
  induction hb with
  | filled h => exact allocated_of_filled h
  | ofCells hcells h => exact allocated_of_ofCells h
  | stored hb h ih => exact ih.set? h

theorem size_le (hb : b.Made) : b.cells.size ≤ capacity := by
  induction hb with
  | @filled dims value b h =>
    unfold Buffer.filled at h
    obtain ⟨count, -, h⟩ := bind_eq_ok.1 h
    split at h
    · rename_i hcount
      obtain rfl := Except.ok.inj h
      simpa using hcount
    · cases h
  | @ofCells dims cells b hcells h =>
    unfold Buffer.ofCells at h
    obtain ⟨count, -, h⟩ := bind_eq_ok.1 h
    split at h
    · obtain rfl := Except.ok.inj h
      exact hcells
    · cases h
  | stored hb h ih =>
    obtain ⟨k, -, rfl⟩ := Option.map_eq_some_iff.1 h
    simpa using ih

theorem exists_offset? (hb : b.Made) {k : Nat} (hk : k < b.cells.size) :
    ∃ is, b.offset? is = some k := by
  have hsize := hb.size_le
  have hcapacity : capacity < 2 ^ 63 := by decide
  rw [hb.allocated.full] at hk hsize
  obtain ⟨is, his⟩ := exists_offsetFrom 0 hk (by omega)
  rw [Nat.zero_mul, Nat.zero_add] at his
  exact ⟨is, his⟩

/-- The offset of a multi-index counts the multi-indices before it. -/
theorem ncard_before (hb : b.Made) {is : List Int64} {k : Nat} (hk : b.offset? is = some k) :
    {js | InBounds b.dims js ∧ js < is}.ncard = k := by
  obtain ⟨-, -, -, hlt⟩ := hb.allocated.wordOffset is
  have hbefore : Set.BijOn (fun js => (b.offset? js).getD 0) {js | InBounds b.dims js ∧ js < is}
      (Set.Iio k) := by
    refine ⟨?_, ?_, ?_⟩
    · rintro js ⟨hin, hless⟩
      obtain ⟨l, hl⟩ := offset?_eq_some_iff.2 hin
      simpa [hl] using (offset?_lt_iff hl hk).2 hless
    · rintro js ⟨hjs, -⟩ js' ⟨hjs', -⟩ heq
      obtain ⟨l, hl⟩ := offset?_eq_some_iff.2 hjs
      obtain ⟨l', hl'⟩ := offset?_eq_some_iff.2 hjs'
      simp only [hl, hl', Option.getD_some] at heq
      exact offset?_inj hl (heq ▸ hl')
    · intro l hl
      obtain ⟨js, hjs⟩ := hb.exists_offset? (Nat.lt_trans hl (hlt k hk))
      exact ⟨js, ⟨offset?_eq_some_iff.1 ⟨l, hjs⟩, (offset?_lt_iff hjs hk).1 hl⟩, by simp [hjs]⟩
  rw [← hbefore.injOn.ncard_image, hbefore.image_eq, ← Finset.coe_range, Set.ncard_coe_finset,
    Finset.card_range]

end Made

/-- A store in place: the offset is found first, then the cell at it is set. -/
def store (is : List Int64) (value : R) : StateM (Buffer R) (Option Unit) := do
  match (← get).offset? is with
  | none => return none
  | some k =>
    modify fun b => { b with cells := b.cells.setIfInBounds k value }
    return some ()

/-- A store in place leaves the buffer that `set?` gives, and without one the buffer as it was. -/
theorem run_store (is : List Int64) (value : R) (b : Buffer R) :
    (store is value).run b =
      ((b.set? is value).map fun _ => (), (b.set? is value).getD b) := by
  unfold set?
  cases hk : b.offset? is with
  | none =>
    show (match b.offset? is with | none => _ | some k => _ : StateM (Buffer R) _).run b = _
    rw [hk]
    rfl
  | some k =>
    show (match b.offset? is with | none => _ | some k => _ : StateM (Buffer R) _).run b = _
    rw [hk]
    rfl

/-- The cells of a made buffer stand in row-major order. Exactly the multi-indices with one entry per
axis, each within its extent, have an offset. It is their rank in lexicographic order, so offsets
keep that order and every cell is at one of them, and it is the same when it is computed in words. A
store succeeds at those multi-indices only; it is then read back there and seen nowhere else, and
otherwise the buffer is as before. -/
theorem Made.rowMajor {b : Buffer R} (hb : b.Made) :
    (∀ is, (∃ k, b.offset? is = some k) ↔ InBounds b.dims is) ∧
    (∀ is k, b.offset? is = some k →
      k < b.cells.size ∧ {js | InBounds b.dims js ∧ js < is}.ncard = k) ∧
    (∀ is js k l, b.offset? is = some k → b.offset? js = some l → (k < l ↔ is < js)) ∧
    (∀ k < b.cells.size, ∃! is, b.offset? is = some k) ∧
    (∀ is, ∃ offset?, b.wordOffset is = .ok offset? ∧ offset?.map UInt64.toNat = b.offset? is) ∧
    ∀ is value,
      (InBounds b.dims is → ∃ c, (store is value).run b = (some (), c) ∧ c.Made ∧
        c.dims = b.dims ∧ ∀ js, c.get? js = if js = is then some value else b.get? js) ∧
      (¬ InBounds b.dims is → (store is value).run b = (none, b)) := by
  refine ⟨fun is => offset?_eq_some_iff, fun is k hk => ?_, fun is js k l hk hl => ?_,
    fun k hk => ?_, fun is => ?_, fun is value => ⟨fun hin => ?_, fun hout => ?_⟩⟩
  · obtain ⟨-, -, -, hlt⟩ := hb.allocated.wordOffset is
    exact ⟨hlt k hk, hb.ncard_before hk⟩
  · exact offset?_lt_iff hk hl
  · obtain ⟨is, his⟩ := hb.exists_offset? hk
    exact ⟨is, his, fun js hjs => offset?_inj hjs his⟩
  · obtain ⟨offset?, hword, hnat, -⟩ := hb.allocated.wordOffset is
    exact ⟨offset?, hword, hnat⟩
  · obtain ⟨c, hc⟩ := hin.set? value
    refine ⟨c, by rw [run_store, hc]; rfl, .stored hb hc, dims_of_set? hc, ?_⟩
    exact hb.allocated.full.get?_set? hc
  · have hnone : b.set? is value = none := by rw [set?, offset?, offsetFrom_eq_none hout]; rfl
    rw [run_store, hnone]
    rfl

/-- Two rows of three cells. -/
def rows : Buffer Int64 := ⟨[2, 3], #[0, 1, 2, 3, 4, 5]⟩

/-- Four multi-indices come before the middle of the second row, and a store there leaves the cell
before it alone. -/
theorem Made.rowMajor_rows :
    rows.Made ∧ {js | InBounds rows.dims js ∧ js < [1, 1]}.ncard = 4 ∧
      (∃! is, rows.offset? is = some 4) ∧
      (∃ c, (store [1, 1] 7).run rows = (some (), c) ∧ c.get? [1, 1] = some 7 ∧
        c.get? [1, 0] = some 3) ∧
      (store [0, -1] 7).run rows = (none, rows) := by
  have hrows : Buffer.ofCells [2, 3] #[0, 1, 2, 3, 4, 5] = .ok rows := rfl
  have hmade : rows.Made := .ofCells (by decide) hrows
  obtain ⟨hbounds, hrank, -, hcells, -, hstore⟩ := hmade.rowMajor
  have hmiddle : rows.offset? [1, 1] = some 4 := by decide
  have hin : InBounds rows.dims [1, 1] := (hbounds _).1 ⟨4, hmiddle⟩
  have hout : ¬ InBounds rows.dims [0, -1] := by
    rw [← hbounds, show rows.offset? [0, -1] = none by decide]
    simp
  obtain ⟨c, hrun, -, -, hread⟩ := (hstore [1, 1] 7).1 hin
  refine ⟨hmade, (hrank _ 4 hmiddle).2, hcells 4 (by decide), ⟨c, hrun, ?_, ?_⟩,
    (hstore [0, -1] 7).2 hout⟩
  · rw [hread, if_pos rfl]
  · rw [hread, if_neg (by decide)]
    decide

end GridKernel.Buffer
