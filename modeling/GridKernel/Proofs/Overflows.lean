import GridKernel.Proofs.Binary64Closeness
import GridKernel.Proofs.Cells
import GridKernel.Proofs.Faults
import GridKernel.Proofs.ListAccess
import GridKernel.Proofs.Loops

/-! Where words overflow. A run computes with words in four places: the allocated extents of the
arrays that it views, the companion indices of its loops, the counters of its loops and the offsets
of cells. The offsets always fit; the others stop a run exactly where their exact value is out of
range. -/
namespace GridKernel

namespace Expr

/-- Whether an extent and a width leave the words when they are added: two literals in their sum,
and any other extent at the one width whose magnitude is no signed word. -/
def WidthOverflows (width : UInt64) : Expr → Prop
  | int n => ¬ Word.Fits (n.toInt + width.toInt64.toInt)
  | _ => width.toNat = 2 ^ 63

theorem add_overflows {e : Expr} {width : UInt64} :
    e.add (.ofSize width) = .error .overflow ↔ e.WidthOverflows width := by
  have hword := Word.toInt_toInt64 width
  have hbound := width.toNat_lt
  have hother : (if width.toInt64 == 0 then .ok e
      else if width.toInt64 < 0 then do return binary .sub e (int (← Word.neg width.toInt64))
      else .ok (binary .add e (int width.toInt64)) : Result Expr) = .error .overflow ↔
      width.toNat = 2 ^ 63 := by
    split
    · rename_i hzero
      rw [eq_of_beq hzero, Int64.toInt_zero] at hword
      simp only [reduceCtorEq, false_iff]
      split at hword <;> omega
    · split
      · rename_i hneg
        rw [Int64.lt_iff_toInt_lt, Int64.toInt_zero] at hneg
        simp only [bind_eq_error, pure_eq_ok, reduceCtorEq, and_false, exists_false, or_false,
          Word.neg, Word.int_overflows, Word.Fits]
        split at hword <;> omega
      · rename_i hneg
        rw [Int64.lt_iff_toInt_lt, Int64.toInt_zero] at hneg
        simp only [reduceCtorEq, false_iff]
        split at hword <;> omega
  cases e with
  | int n =>
    rw [WidthOverflows, ofSize, add, map_eq_error, Word.add, Word.int_overflows]
  | _ => exact hother

end Expr

namespace GridArray

/-- The allocated extent along an axis leaves the words: the halo widths do not add up to a size, or
the domain and both widths do not add up to an extent. -/
def ExtentOverflows (a : GridArray) (axis : Nat) : Prop :=
  ∃ halo size, a.halo[axis]? = some halo ∧ a.shape[axis]? = some size ∧
    (2 ^ 64 ≤ halo.left.toNat + halo.right.toNat ∨
      halo.left.toNat + halo.right.toNat < 2 ^ 64 ∧ size.WidthOverflows (halo.left + halo.right))

theorem allocated_overflows {a : GridArray} {axis : Nat} :
    a.allocated axis = .error .overflow ↔ a.ExtentOverflows axis := by
  have hentry {α : Type} (xs : List α) : entryAt xs axis ≠ .error .overflow := by
    unfold entryAt
    split <;> simp
  have hwidth {left right width : UInt64} (h : Word.addSize left right = .ok width) :
      left + right = width ∧ left.toNat + right.toNat < 2 ^ 64 := by
    have hsum := Word.size_eq_ok h
    have hlt := width.toNat_lt
    refine ⟨?_, by omega⟩
    rw [← UInt64.toNat_inj, UInt64.toNat_add, Nat.mod_eq_of_lt (by omega), hsum]
  simp only [allocated, bind_eq_error, hentry, false_or, entryAt_eq_ok, Expr.add_overflows,
    ExtentOverflows]
  constructor
  · rintro ⟨halo, hhalo, size, hsize, h | ⟨width, hok, h⟩⟩
    · exact ⟨halo, size, hhalo, hsize, .inl (Word.size_overflows.1 h)⟩
    · obtain ⟨rfl, hlt⟩ := hwidth hok
      exact ⟨halo, size, hhalo, hsize, .inr ⟨hlt, h⟩⟩
  · rintro ⟨halo, size, hhalo, hsize, h | ⟨hlt, h⟩⟩
    · exact ⟨halo, hhalo, size, hsize, .inl (Word.size_overflows.2 h)⟩
    · have hok : Word.addSize halo.left halo.right = .ok (halo.left + halo.right) := by
        rw [Word.addSize, Word.size, if_pos hlt, UInt64.ofNat_add, UInt64.ofNat_toNat,
          UInt64.ofNat_toNat]
      exact ⟨halo, hhalo, size, hsize, .inr ⟨_, hok, h⟩⟩

end GridArray

namespace Buffer

variable {R : Type}

/-- The offset of a multi-index below a block of earlier cells, computed in words. -/
def wordOffsetFrom (block : UInt64) : List UInt64 → List Int64 → Result (Option UInt64)
  | [], [] => .ok (some block)
  | n :: ns, i :: is =>
    if 0 ≤ i.toInt ∧ i.toInt < n.toNat then do
      let rows ← Word.mulSize block n
      wordOffsetFrom (← Word.addSize rows i.toUInt64) ns is
    else .ok none
  | _, _ => .ok none

/-- The offset of a multi-index with one entry per axis, computed in words. -/
def wordOffset (b : Buffer R) (indices : List Int64) : Result (Option UInt64) :=
  if indices.length = b.dims.length then wordOffsetFrom 0 b.dims indices else .ok none

/-- The extents of a buffer multiply, in words, to the number of its cells. -/
def Allocated (b : Buffer R) : Prop :=
  ∃ count, Word.product b.dims = .ok count ∧ count.toNat = b.cells.size

theorem allocated_of_filled {dims : List UInt64} {value : R} {b : Buffer R}
    (h : filled dims value = .ok b) : b.Allocated := by
  unfold filled at h
  obtain ⟨count, hcount, h⟩ := bind_eq_ok.1 h
  split at h
  · obtain rfl := Except.ok.inj h
    exact ⟨count, hcount, by simp⟩
  · cases h

theorem allocated_of_ofCells {dims : List UInt64} {cells : Array R} {b : Buffer R}
    (h : ofCells dims cells = .ok b) : b.Allocated := by
  unfold ofCells at h
  obtain ⟨count, hcount, h⟩ := bind_eq_ok.1 h
  split at h
  · rename_i hsize
    obtain rfl := Except.ok.inj h
    exact ⟨count, hcount, hsize⟩
  · cases h

theorem Allocated.set? {b c : Buffer R} (hb : b.Allocated) {indices : List Int64} {value : R}
    (h : b.set? indices value = some c) : c.Allocated := by
  obtain ⟨k, -, rfl⟩ := Option.map_eq_some_iff.1 h
  obtain ⟨count, hcount, hsize⟩ := hb
  exact ⟨count, hcount, by simpa using hsize⟩

theorem volume_of_foldlM {dims : List UInt64} {block count : UInt64}
    (h : dims.foldlM Word.mulSize block = .ok count) : count.toNat = block.toNat * volume dims := by
  induction dims generalizing block with
  | nil =>
    obtain rfl := Except.ok.inj h
    simp [volume]
  | cons n ns ih =>
    rw [List.foldlM_cons] at h
    obtain ⟨rows, hrows, h⟩ := bind_eq_ok.1 h
    rw [ih h, Word.size_eq_ok hrows, volume_cons, Nat.mul_assoc]

theorem Allocated.full {b : Buffer R} (hb : b.Allocated) : b.Full := by
  obtain ⟨count, hcount, hsize⟩ := hb
  rw [Full, ← hsize, volume_of_foldlM hcount]
  exact Nat.one_mul _

/-- Below a product of extents that is a word, every step of an offset is one. -/
theorem wordOffsetFrom_eq {dims : List UInt64} {blocks block count : UInt64} (is : List Int64)
    (h : dims.foldlM Word.mulSize blocks = .ok count) (hlt : block < blocks) :
    ∃ offset?, wordOffsetFrom block dims is = .ok offset? ∧
      offset?.map UInt64.toNat = offsetFrom block.toNat dims is := by
  induction dims generalizing blocks block is with
  | nil =>
    cases is with
    | nil => exact ⟨some block, rfl, rfl⟩
    | cons i is => exact ⟨none, rfl, rfl⟩
  | cons n ns ih =>
    cases is with
    | nil => exact ⟨none, rfl, rfl⟩
    | cons i is =>
      unfold wordOffsetFrom offsetFrom
      split
      · rename_i hi
        rw [List.foldlM_cons] at h
        obtain ⟨rows, hrows, h⟩ := bind_eq_ok.1 h
        have hrows := Word.size_eq_ok hrows
        have hbound := rows.toNat_lt
        have hword := Word.toNat_toUInt64 hi.1
        have hbelow : block.toNat * n.toNat + i.toInt.toNat < rows.toNat := by
          have hle : (block.toNat + 1) * n.toNat ≤ blocks.toNat * n.toNat :=
            Nat.mul_le_mul_right _ hlt
          rw [Nat.add_mul, Nat.one_mul] at hle
          omega
        obtain ⟨start, hstart, hstartNat⟩ : ∃ w, Word.mulSize block n = .ok w ∧
            w.toNat = block.toNat * n.toNat := Word.exists_size (by omega)
        obtain ⟨next, hnext, hnextNat⟩ : ∃ w, Word.addSize start i.toUInt64 = .ok w ∧
            w.toNat = block.toNat * n.toNat + i.toInt.toNat := by
          rw [Word.addSize, hstartNat, hword]
          exact Word.exists_size (by omega)
        simp only [hstart, ok_bind, hnext]
        rw [← hnextNat]
        exact ih is h (UInt64.lt_iff_toNat_lt.2 (by omega))
      · exact ⟨none, rfl, rfl⟩

/-- **Offsets of cells are words.** -/
theorem Allocated.wordOffset {b : Buffer R} (hb : b.Allocated) (is : List Int64) :
    ∃ offset?, b.wordOffset is = .ok offset? ∧ offset?.map UInt64.toNat = b.offset? is ∧
      ∀ k, b.offset? is = some k → k < b.cells.size := by
  have hsize (k : Nat) (hk : b.offset? is = some k) : k < b.cells.size := by
    have hin : InBounds b.dims is := by
      by_contra hout
      simp [Buffer.offset?, offsetFrom_eq_none hout] at hk
    obtain ⟨k', hk', hlt⟩ := hb.full.offset? hin
    obtain rfl := Option.some.inj (hk.symm.trans hk')
    exact hlt
  obtain ⟨count, hcount, -⟩ := hb
  obtain ⟨offset?, hoffset, hnat⟩ := wordOffsetFrom_eq is hcount (by decide : (0 : UInt64) < 1)
  unfold Buffer.wordOffset
  split
  · exact ⟨offset?, hoffset, hnat, hsize⟩
  · rename_i hlength
    have hnone : b.offset? is = none :=
      offsetFrom_eq_none fun hin => hlength hin.length_eq.symm
    exact ⟨none, rfl, hnone.symm, hsize⟩

end Buffer

theorem Diagnosed.ne_overflow {α : Type} {r : Result α} (h : Diagnosed r) :
    r ≠ .error .overflow := by
  intro hoverflow
  obtain ⟨c, hc⟩ := h _ hoverflow
  cases hc

namespace Machine

variable {R : Type} [Arithmetic R]

/-- A view stops at the first extent that leaves the words, the extents before it having values. -/
def ViewOverflows (m : Machine R) (a : GridArray) : Prop :=
  ∃ axis < a.rank, a.ExtentOverflows axis ∧
    ∀ i < axis, ∃ e n, a.allocated i = .ok e ∧ m.evalIndex e = .ok n

theorem checkView_overflows {m : Machine R} {a : GridArray} :
    m.checkView a = .error .overflow ↔ m.ViewOverflows a := by
  have hindex (e : Expr) : m.evalIndex e ≠ .error .overflow := (diagnosed_evalIndex m e).ne_overflow
  have harray (b : Buffer R) (expected : List Int64) :
      (if b.dims.map Word.signed = expected then return ()
        else refuse (.boundShape a.name (b.dims.map UInt64.toNat) (expected.map Int64.toInt)) :
          Result Unit) ≠ .error .overflow := by
    split <;> simp [refuse]
  have hbound : m.array a.name ≠ .error .overflow := (diagnosed_bound _ _).ne_overflow
  simp only [checkView, bind_eq_error, harray, hbound, mapM_eq_error, and_false, exists_false,
    or_false, GridArray.allocated_overflows, hindex, bind_eq_ok]
  constructor
  · rintro ⟨before, axis, after, hrange, hbefore, h⟩
    obtain ⟨haxis, rfl⟩ := range_eq_append hrange
    refine ⟨axis, haxis, h, fun i hi => ?_⟩
    obtain ⟨n, e, he, hn⟩ := hbefore i (List.mem_range.2 hi)
    exact ⟨e, n, he, hn⟩
  · rintro ⟨axis, haxis, h, hbefore⟩
    have hrange : List.range a.rank =
        List.range axis ++ axis :: (List.range (a.rank - axis - 1)).map (axis + 1 + ·) := by
      rw [← List.singleton_append, ← List.append_assoc, ← List.range_succ, ← List.range_add]
      congr 1
      omega
    refine ⟨_, _, _, hrange, fun i hi => ?_, h⟩
    obtain ⟨e, n, he, hn⟩ := hbefore i (List.mem_range.1 hi)
    exact ⟨n, e, he, hn⟩

/-- The index of a companion leaves the words on a trip: its step times the trip does, or the sum of
that and its start. -/
def IndexOverflows (m : Machine R) (d : Dimension) (trip : Int64) : Prop :=
  ∃ parent start step first stride, d.role = .incremented parent start step ∧
    m.evalIndex start = .ok first ∧ m.evalIndex step = .ok stride ∧
    (¬ Word.Fits (stride.toInt * trip.toInt) ∨
      ¬ Word.Fits (first.toInt + stride.toInt * trip.toInt))

theorem companionIndex_overflows {m : Machine R} {d : Dimension} {trip : Int64} :
    m.companionIndex d trip = .error .overflow ↔ m.IndexOverflows d trip := by
  have hindex (e : Expr) : m.evalIndex e ≠ .error .overflow := (diagnosed_evalIndex m e).ne_overflow
  have hword (first stride : Int64) :
      (do Word.add first (← Word.mul stride trip) : Result Int64) = .error .overflow ↔
        ¬ Word.Fits (stride.toInt * trip.toInt) ∨
          ¬ Word.Fits (first.toInt + stride.toInt * trip.toInt) := by
    simp only [bind_eq_error, Word.mul, Word.add, Word.int_overflows]
    constructor
    · rintro (h | ⟨product, hproduct, h⟩)
      · exact .inl h
      · rw [Word.int_eq_ok hproduct] at h
        exact .inr h
    · intro h
      by_cases hproduct : Word.Fits (stride.toInt * trip.toInt)
      · have hok := Word.int_eq hproduct
        refine .inr ⟨_, hok, ?_⟩
        rw [Word.int_eq_ok hok]
        exact h.resolve_left (not_not_intro hproduct)
      · exact .inl hproduct
  unfold companionIndex IndexOverflows
  cases hrole : d.role with
  | incremented parent start step =>
    simp only [bind_eq_error (x := m.evalIndex start), bind_eq_error (x := m.evalIndex step), hindex,
      false_or, hword]
    constructor
    · rintro ⟨first, hfirst, stride, hstride, h⟩
      exact ⟨parent, start, step, first, stride, rfl, hfirst, hstride, h⟩
    · rintro ⟨_, _, _, first, stride, hroles, hfirst, hstride, h⟩
      obtain ⟨rfl, rfl, rfl⟩ := AxisRole.incremented.inj hroles
      exact ⟨first, hfirst, stride, hstride, h⟩
  | _ => simp

/-- Companions are bound in order, each in the machine that the earlier ones leave. -/
theorem bindCompanions_stops {ds : List Dimension} {trip : Int64} {m : Machine R} {e : Fault} :
    (bindCompanions trip ds m).fault? = some e ↔ ∃ before d after m', ds = before ++ d :: after ∧
      bindCompanions trip before m = .done m' ∧ m'.companionIndex d trip = .error e := by
  induction ds generalizing m with
  | nil => simp [bindCompanions]
  | cons d ds ih =>
    rw [bindCompanions, Outcome.attempt_stops]
    constructor
    · rintro (h | ⟨i, hi, h⟩)
      · exact ⟨[], d, ds, m, rfl, rfl, h⟩
      · obtain ⟨before, d', after, m', rfl, hbefore, h⟩ := ih.1 h
        exact ⟨d :: before, d', after, m', rfl, by rw [bindCompanions, hi]; exact hbefore, h⟩
    · rintro ⟨before, d', after, m', heq, hbefore, h⟩
      rcases List.cons_eq_append_iff.1 heq with ⟨rfl, heq⟩ | ⟨before, rfl, rfl⟩
      · obtain ⟨rfl, rfl⟩ := List.cons.inj heq
        obtain ⟨-, rfl⟩ := Outcome.eq_done.1 hbefore
        exact .inl h
      · rw [bindCompanions] at hbefore
        obtain ⟨i, hi, heq⟩ := Outcome.exists_attempt (Outcome.eq_done.1 hbefore).1
        rw [heq] at hbefore
        exact .inr ⟨i, hi, ih.2 ⟨before, d', after, m', rfl, hbefore, h⟩⟩

/-- The counters of a loop after a number of trips. -/
theorem Trips.counters {head : LoopHead} {body : Machine R → Outcome R} {k : Nat}
    {σ τ : TripState R} (h : Trips head body k σ τ) :
    τ.index.toInt = σ.index.toInt + k * head.bounds.step.toInt ∧
      τ.trip.toInt = σ.trip.toInt + k := by
  induction h with
  | zero σ => simp
  | @succ k σ τ υ first rest ih =>
    have hindex := Word.add_eq_ok first.index
    have htrip := Word.add_eq_ok first.trip
    rw [Int64.toInt_one] at htrip
    rw [ih.1, ih.2, hindex, htrip]
    push_cast
    constructor
    · ring
    · ring

/-- The index of a loop is between its bounds on every trip. -/
theorem fits_of_lt_tripCount {lower upper step : Int} (hlower : Word.Fits lower)
    (hupper : Word.Fits upper) (hstep : step ≠ 0) {k : Nat} (hk : k < tripCount lower upper step) :
    Word.Fits (lower + k * step) := by
  unfold Word.Fits at *
  have hscale {d width : Int} (hd : 0 < d) (h : k < ((width + d - 1) / d).toNat) :
      0 ≤ k * d ∧ k * d < width := by
    have hle : (k : Int) + 1 ≤ (width + d - 1) / d := by omega
    have hmul := (Int.le_ediv_iff_mul_le hd).1 hle
    rw [add_mul, one_mul] at hmul
    exact ⟨by positivity, by omega⟩
  unfold tripCount at hk
  split at hk
  · rename_i hpos
    obtain ⟨hlow, hhigh⟩ := hscale hpos hk
    constructor
    · omega
    · omega
  · have hneg : 0 < -step := by omega
    obtain ⟨hlow, hhigh⟩ := hscale hneg (by rwa [← sub_eq_add_neg])
    rw [mul_neg] at hlow hhigh
    constructor
    · omega
    · omega

/-- A companion of a loop leaves the words on a trip, the companions before it being bound. -/
def CompanionOverflows (head : LoopHead) (σ : TripState R) : Prop :=
  ∃ before d after m, head.companions = before ++ d :: after ∧
    bindCompanions σ.trip before (σ.machine.bindIndex head.dim.name σ.index) = .done m ∧
    m.IndexOverflows d σ.trip

/-- Where a statement itself leaves the words. A loop does when a companion index does; when the
index, advanced once more after the last trip, does; and when it has made 2^63 trips. -/
def StepOverflows : Stmt → Machine R → Prop
  | .view a, m => m.ViewOverflows a
  | .loop head body, m =>
    ∃ lower upper k σ, Starts head m lower upper ∧ Trips head (run body) k ⟨lower, 0, m⟩ σ ∧
      let count := tripCount lower.toInt upper.toInt head.bounds.step.toInt
      k < count ∧ (CompanionOverflows head σ ∨
        ((σ.enter head).andThen (run body)).fault? = none ∧
          (k + 1 = count ∧ ¬ Word.Fits (lower.toInt + count * head.bounds.step.toInt) ∨
            k + 1 = 2 ^ 63))
  | _, _ => False

theorem enter_overflows {head : LoopHead} {σ : TripState R} :
    (σ.enter head).fault? = some .overflow ↔ CompanionOverflows head σ := by
  simp only [TripState.enter, bindCompanions_stops, companionIndex_overflows, CompanionOverflows]

theorem Starts.step_ne_zero {head : LoopHead} {m : Machine R} {lower upper : Int64}
    (starts : Starts head m lower upper) : head.bounds.step.toInt ≠ 0 := by
  rw [← Int64.toInt_zero]
  exact mt Int64.toInt_inj.1 starts.step

/-- Only the last advance of an index can leave the words, since all indices of trips are between
the bounds of the loop. -/
theorem advance_overflows {head : LoopHead} {m : Machine R} {lower upper : Int64}
    (starts : Starts head m lower upper) {body : Machine R → Outcome R} {k : Nat} {σ : TripState R}
    (hσ : Trips head body k ⟨lower, 0, m⟩ σ)
    (hk : k < tripCount lower.toInt upper.toInt head.bounds.step.toInt) :
    Word.add σ.index head.bounds.step = .error .overflow ↔
      k + 1 = tripCount lower.toInt upper.toInt head.bounds.step.toInt ∧
        ¬ Word.Fits (lower.toInt + tripCount lower.toInt upper.toInt head.bounds.step.toInt *
          head.bounds.step.toInt) := by
  have hindex := hσ.counters.1
  have hnext : σ.index.toInt + head.bounds.step.toInt =
      lower.toInt + (k + 1 : Nat) * head.bounds.step.toInt := by
    rw [hindex]
    push_cast
    ring
  rw [Word.add, Word.int_overflows, hnext]
  rcases Nat.lt_or_eq_of_le hk with hlt | heq
  · have hfits := fits_of_lt_tripCount (Word.fits_toInt lower) (Word.fits_toInt upper)
      starts.step_ne_zero hlt
    simp only [hfits, not_true_eq_false, false_iff, not_and]
    omega
  · rw [← heq]
    simp

theorem stepStops_overflow {s : Stmt} {m : Machine R} :
    StepStops .overflow s m ↔ StepOverflows s m := by
  have heval (e : Expr) : m.eval e ≠ .error .overflow := (diagnosed_eval m e).ne_overflow
  have hindex (e : Expr) : m.evalIndex e ≠ .error .overflow := (diagnosed_evalIndex m e).ne_overflow
  cases s with
  | assign target value =>
    have hstore (x : R) : m.store target x ≠ .error .overflow :=
      (diagnosed_store m target x).ne_overflow
    simp [StepStops, StepOverflows, heval, hstore]
  | loop head body =>
    simp only [StepStops, StepOverflows, hindex, false_or, reduceCtorEq, and_false]
    constructor
    · rintro ⟨lower, hlower, upper, hupper, k, σ, hstep, hk, hσ, h⟩
      have starts : Starts head m lower upper := ⟨hlower, hupper, hstep⟩
      refine ⟨lower, upper, k, σ, starts, hσ, hk, ?_⟩
      rcases h with h | ⟨m', hm', h⟩
      · exact .inl (enter_overflows.1 h)
      · refine .inr ⟨(Outcome.eq_done.1 hm').1, ?_⟩
        rcases h with h | ⟨i, -, h⟩
        · exact .inl ((advance_overflows starts hσ hk).1 h)
        · have htrip := hσ.counters.2
          have hlt := σ.trip.toInt_lt
          rw [Word.add, Word.int_overflows, Word.Fits, Int64.toInt_one] at h
          simp only [Int64.toInt_zero, zero_add] at htrip
          exact .inr (by omega)
    · rintro ⟨lower, upper, k, σ, starts, hσ, hk, h⟩
      refine ⟨lower, starts.lower, upper, starts.upper, k, σ, starts.step, hk, hσ, ?_⟩
      rcases h with h | ⟨hnone, h⟩
      · exact .inl (enter_overflows.2 h)
      · refine .inr ⟨_, Outcome.eq_done.2 ⟨hnone, rfl⟩, ?_⟩
        rcases h with h | h
        · exact .inl ((advance_overflows starts hσ hk).2 h)
        · have htrip := hσ.counters.2
          simp only [Int64.toInt_zero, zero_add] at htrip
          have hover : Word.add σ.trip 1 = .error .overflow := by
            rw [Word.add, Word.int_overflows, Word.Fits, Int64.toInt_one]
            omega
          cases hadd : Word.add σ.index head.bounds.step with
          | ok i => exact .inr ⟨i, rfl, hover⟩
          | error e =>
            refine .inl (congrArg Except.error ?_)
            unfold Word.add Word.int at hadd
            split at hadd
            · cases hadd
            · exact (Except.error.inj hadd).symm
  | when c body => simp [StepStops, StepOverflows, heval]
  | ifElse c t e => simp [StepStops, StepOverflows, heval]
  | view a => exact checkView_overflows
  | _ => exact Iff.rfl

/-- The buffers of a machine are made as buffers are. -/
def Sound (m : Machine R) : Prop :=
  ∀ (name : String) (b : Buffer R), m.arrays[name]? = some b → b.Allocated

theorem stepKeeps_sound (s : Stmt) : StepKeeps (R := R) Sound s := by
  cases s with
  | assign target value =>
    intro m x m' hm hstore
    rcases store_cases hstore with ⟨a, es, is, b, c, -, -, hb, hc, rfl⟩ | ⟨t, -, rfl⟩
    · intro name d hd
      rw [arrays_bindArray] at hd
      split at hd
      · obtain rfl := Option.some.inj hd
        exact (hm _ b hb).set? hc
      · exact hm name d hd
    · exact hm
  | loop head body => exact fun name _ m i hm => hm
  | declare t => exact fun m hm => hm
  | _ => trivial

/-- **Where a run stops other than for a cause.** No run stops at an entry that a list does not
have, and a run overflows exactly where it reaches a view whose allocated extents leave the words or
a loop of which a companion index, the index advanced past the last trip, or the count of trips
does. In every machine that a run reaches, the offsets of cells are words within the buffers. -/
theorem run_stops_undiagnosed {s : Stmt} (hviews : s.ViewsAligned) {m : Machine R}
    (hm : m.Sound) :
    (run s m).fault? ≠ some .missing ∧
    ((run s m).fault? = some .overflow ↔ ∃ t m', Reaches s m t m' ∧ StepOverflows t m') ∧
    ∀ t m', Reaches s m t m' → ∀ (name : String) (b : Buffer R) is, m'.arrays[name]? = some b →
      ∃ offset?, b.wordOffset is = .ok offset? ∧ offset?.map UInt64.toNat = b.offset? is ∧
        ∀ k, b.offset? is = some k → k < b.cells.size := by
  refine ⟨withinLists_run s hviews m, ?_, fun t m' ht name b is hb => ?_⟩
  · simp only [run_stops, stepStops_overflow]
  · exact ((ht.keeps (fun x _ => stepKeeps_sound x) hm) name b hb).wordOffset is

/-- A loop of one trip whose step takes the index past the last word. -/
def wide : Stmt :=
  .loop ⟨⟨"x", .spatial⟩, ⟨.int 1, .int 2, 9223372036854775807⟩, [], .parallel⟩
    (.assign (.scalar ⟨"s", .float64⟩) (.int 1))

theorem run_stops_undiagnosed_wide :
    wide.ViewsAligned ∧ (run wide ({} : Machine Binary64)).fault? = some .overflow := by
  have hviews : wide.ViewsAligned := by
    intro a ha
    simp [wide, Stmt.nodes] at ha
  have hsound : ({} : Machine Binary64).Sound := by
    intro name b hb
    simp at hb
  have hone : ({} : Machine Binary64).evalIndex (.int 1) = .ok 1 :=
    (Evaluates.int (n := 1) (by decide)).evalIndex
  have htwo : ({} : Machine Binary64).evalIndex (.int 2) = .ok 2 :=
    (Evaluates.int (n := 2) (by decide)).evalIndex
  refine ⟨hviews, (run_stops_undiagnosed hviews hsound).2.1.2 ⟨_, _, .here _ _, ?_⟩⟩
  refine ⟨1, 2, 0, ⟨1, 0, {}⟩, ⟨hone, htwo, by decide⟩, .zero _, by decide, .inr ⟨rfl, .inl ?_⟩⟩
  exact ⟨by decide, by decide⟩

end Machine

end GridKernel
