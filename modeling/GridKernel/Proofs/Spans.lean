import GridKernel.Proofs.Cells
import GridKernel.Proofs.Integers

/-! Spans of multi-indices. A span of each axis selects a box of multi-indices; positions within the
box are counted from its first corner. -/
namespace GridKernel

/-- A run of consecutive indices along an axis. -/
structure Span where
  origin : Int
  extent : Nat

namespace Span

/-- As many indices from zero on. -/
def fromZero (s : Span) : Span := ⟨0, s.extent⟩

/-- A position has one entry per span and every entry is within its span. -/
def Within (spans : List Span) (ks : List Nat) : Prop :=
  List.Forall₂ (fun s k => k < s.extent) spans ks

/-- The multi-index at a position. -/
def index (spans : List Span) (ks : List Nat) : List Int64 :=
  List.zipWith (fun s (k : Nat) => Int64.ofInt (s.origin + k)) spans ks

/-- The spans lie within extents. -/
def Inside (dims : List UInt64) (spans : List Span) : Prop :=
  List.Forall₂ (fun (n : UInt64) s => 0 ≤ s.origin ∧ s.origin + (s.extent : Int) ≤ n.toNat)
    dims spans

/-- The indices of a span are exact integers. -/
def Exact (s : Span) : Prop := ∀ k : Nat, k < s.extent → (s.origin + (k : Int)).natAbs ≤ 2 ^ 53

theorem Exact.fromZero {s : Span} (h : s.extent ≤ 2 ^ 53) : s.fromZero.Exact := by
  intro k hk
  simp only [Span.fromZero] at hk ⊢
  omega

@[simp] theorem index_nil : index [] [] = [] := rfl

@[simp] theorem index_cons (s : Span) (spans : List Span) (k : Nat) (ks : List Nat) :
    index (s :: spans) (k :: ks) = Int64.ofInt (s.origin + k) :: index spans ks := rfl

theorem index_fromZero {spans : List Span} {ks : List Nat} (h : spans.length = ks.length) :
    index (spans.map fromZero) ks = ks.map fun (k : Nat) => Int64.ofInt k := by
  induction ks generalizing spans with
  | nil => simp [index]
  | cons k ks ih =>
    cases spans with
    | nil => cases h
    | cons s spans =>
      simp only [List.map_cons, index_cons, fromZero, Int.zero_add]
      rw [← ih (by simpa using h)]

theorem within_fromZero {spans : List Span} {ks : List Nat} :
    Within (spans.map fromZero) ks ↔ Within spans ks := List.forall₂_map_left_iff

theorem inside_fromZero {dims : List UInt64} {spans : List Span}
    (h : dims.map UInt64.toNat = spans.map extent) : Inside dims (spans.map fromZero) := by
  rw [Inside, List.forall₂_map_right_iff]
  refine (map_eq_map_iff_forall₂.1 h).imp ?_
  intro n s hn
  simp only [fromZero]
  omega

/-- Positions of the same multi-index are equal. -/
theorem index_inj {spans : List Span} (hexact : ∀ s ∈ spans, s.Exact) {ks ks' : List Nat}
    (h : Within spans ks) (h' : Within spans ks') (heq : index spans ks = index spans ks') :
    ks = ks' := by
  induction h generalizing ks' with
  | nil =>
    cases h'
    rfl
  | @cons s k spans ks hk _ ih =>
    cases h' with
    | @cons _ k' _ ks' hk' hks' =>
      rw [index_cons, index_cons] at heq
      obtain ⟨hhead, htail⟩ := List.cons.inj heq
      have hs := hexact s (by simp)
      have hints := congrArg Int64.toInt hhead
      rw [toInt_ofInt (hs k hk), toInt_ofInt (hs k' hk')] at hints
      have hkk : k = k' := by omega
      rw [hkk, ih (fun s hs => hexact s (by simp [hs])) hks' htail]

theorem Inside.inBounds {dims : List UInt64} {spans : List Span} (h : Inside dims spans)
    (hexact : ∀ s ∈ spans, s.Exact) {ks : List Nat} (hks : Within spans ks) :
    Buffer.InBounds dims (index spans ks) := by
  induction h generalizing ks with
  | nil =>
    cases hks
    exact .nil
  | @cons n s dims spans hs _ ih =>
    cases hks with
    | @cons _ k _ ks hk hks =>
      have hexact' := hexact s (by simp) k hk
      rw [index_cons]
      refine .cons ?_ (ih (fun s hs => hexact s (by simp [hs])) hks)
      rw [toInt_ofInt hexact']
      omega

/-- Some position of nonempty spans that leave the extents is out of bounds. -/
theorem exists_not_inBounds {dims : List UInt64} {spans : List Span}
    (hlength : dims.length = spans.length) (hexact : ∀ s ∈ spans, s.Exact)
    (hpos : ∀ s ∈ spans, 0 < s.extent) (h : ¬ Inside dims spans) :
    ∃ ks, Within spans ks ∧ ¬ Buffer.InBounds dims (index spans ks) := by
  induction dims generalizing spans with
  | nil =>
    cases spans with
    | nil => exact absurd List.Forall₂.nil h
    | cons s spans => cases hlength
  | cons n dims ih =>
    cases spans with
    | nil => cases hlength
    | cons s spans =>
      have hs := hexact s (by simp)
      have hs0 := hpos s (by simp)
      have hspans0 : ∀ s ∈ spans, 0 < s.extent := fun s hs => hpos s (by simp [hs])
      by_cases hin : 0 ≤ s.origin ∧ s.origin + s.extent ≤ n.toNat
      · have htail : ¬ Inside dims spans := fun htail => h (List.Forall₂.cons hin htail)
        obtain ⟨ks, hks, hout⟩ := ih (by simpa using hlength)
          (fun s hs => hexact s (by simp [hs])) hspans0 htail
        refine ⟨0 :: ks, .cons hs0 hks, fun hbounds => ?_⟩
        cases hbounds with
        | cons _ hbounds => exact hout hbounds
      · -- the first or the last index of the span leaves the extent
        obtain ⟨k, hk, hout⟩ : ∃ k < s.extent, ¬ (0 ≤ s.origin + k ∧ s.origin + k < n.toNat) := by
          by_cases hlow : 0 ≤ s.origin
          · exact ⟨s.extent - 1, by omega, by omega⟩
          · exact ⟨0, hs0, by omega⟩
        have hzeros : Within spans (spans.map fun _ => 0) := by
          rw [Within, List.forall₂_map_right_iff, List.forall₂_same]
          exact hspans0
        refine ⟨k :: spans.map fun _ => 0, .cons hk hzeros, fun hbounds => ?_⟩
        cases hbounds with
        | cons hhead _ =>
          rw [toInt_ofInt (hs k hk)] at hhead
          exact hout hhead

/-- Every multi-index within extents is a position counted from zero. -/
theorem exists_position {dims : List UInt64} {spans : List Span}
    (hdims : dims.map UInt64.toNat = spans.map extent) {is : List Int64}
    (h : Buffer.InBounds dims is) :
    ∃ ks, Within spans ks ∧ is = ks.map fun (k : Nat) => Int64.ofInt k := by
  induction h generalizing spans with
  | nil =>
    obtain rfl : spans = [] := by simpa using hdims.symm
    exact ⟨[], .nil, rfl⟩
  | @cons n i dims is hi _ ih =>
    cases spans with
    | nil => cases hdims
    | cons s spans =>
      obtain ⟨hn, hdims⟩ := List.cons.inj hdims
      obtain ⟨ks, hks, rfl⟩ := ih hdims
      refine ⟨i.toInt.toNat :: ks, .cons (by omega) hks, ?_⟩
      rw [List.map_cons, Int.toNat_of_nonneg hi.1, Int64.ofInt_toInt]

/-- The multi-indices at the positions of spans are those with every entry in its span. -/
theorem exists_index_iff {spans : List Span} (hexact : ∀ s ∈ spans, s.Exact) {is : List Int64} :
    (∃ ks, Within spans ks ∧ is = index spans ks) ↔
      List.Forall₂ (fun s (i : Int64) => s.origin ≤ i.toInt ∧ i.toInt < s.origin + (s.extent : Int))
        spans is := by
  constructor
  · rintro ⟨ks, hks, rfl⟩
    induction hks with
    | nil => exact .nil
    | @cons s k spans ks hk _ ih =>
      have hs := hexact s (by simp) k hk
      refine .cons ?_ (ih fun s hs => hexact s (by simp [hs]))
      rw [toInt_ofInt hs]
      omega
  · intro h
    induction h with
    | nil => exact ⟨[], .nil, rfl⟩
    | @cons s i spans is hi _ ih =>
      obtain ⟨ks, hks, rfl⟩ := ih fun s hs => hexact s (by simp [hs])
      refine ⟨(i.toInt - s.origin).toNat :: ks, .cons (by omega) hks, ?_⟩
      rw [index_cons, Int.toNat_of_nonneg (by omega), add_sub_cancel, Int64.ofInt_toInt]

end Span
end GridKernel
