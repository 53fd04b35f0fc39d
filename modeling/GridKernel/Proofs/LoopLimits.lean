import Mathlib.Data.Rat.Floor
import GridKernel.Proofs.Overflows

/-! Loops and their limits. A loop that tests its index against the upper bound before every trip
ends, and it makes the trips that were counted between the two bounds when it started. -/
namespace GridKernel

/-- How many times a stride fits into a distance, rounded up. -/
def stridesIn (distance stride : Int) : Nat := ((distance + stride - 1) / stride).toNat

section Strides
variable {distance stride : Int}

theorem stridesIn_of_nonpos (hstride : 0 < stride) (h : distance ≤ 0) :
    stridesIn distance stride = 0 := by
  have hlt : (distance + stride - 1) / stride < 1 := Int.ediv_lt_of_lt_mul hstride (by omega)
  unfold stridesIn
  omega

theorem stridesIn_of_pos (hstride : 0 < stride) (h : 0 < distance) :
    stridesIn distance stride = stridesIn (distance - stride) stride + 1 := by
  have hone := Int.add_mul_ediv_right (distance - 1) 1 hstride.ne'
  have hnonneg : 0 ≤ (distance - 1) / stride := Int.ediv_nonneg (by omega) hstride.le
  rw [one_mul, ← add_sub_right_comm] at hone
  unfold stridesIn
  rw [hone, sub_add_cancel]
  omega

theorem stridesIn_eq_ceil (hstride : 0 < stride) :
    (stridesIn distance stride : Int) = max 0 ⌈(distance : ℚ) / stride⌉ := by
  have hlow := Int.mul_ediv_self_le (x := distance + stride - 1) hstride.ne'
  have hhigh := Int.lt_mul_ediv_self_add (x := distance + stride - 1) hstride
  have hceil : ⌈(distance : ℚ) / stride⌉ = (distance + stride - 1) / stride := by
    have hpos : (0 : ℚ) < stride := by exact_mod_cast hstride
    rw [Int.ceil_eq_iff, lt_div_iff₀ hpos, div_le_iff₀ hpos, sub_mul, one_mul, mul_comm]
    constructor
    · exact_mod_cast (by omega :
        stride * ((distance + stride - 1) / stride) - stride < distance)
    · exact_mod_cast (by omega : distance ≤ stride * ((distance + stride - 1) / stride))
  rw [stridesIn, Int.toNat_eq_max, max_comm, hceil]

end Strides

section Counts
variable {lower upper step : Int}

/-- The trips of a loop are the strides from its lower bound to its upper one, going up or down. -/
theorem tripCount_cases (lower upper : Int) (hstep : step ≠ 0) :
    0 < step ∧ tripCount lower upper step = stridesIn (upper - lower) step ∨
      step < 0 ∧ tripCount lower upper step = stridesIn (lower - upper) (-step) := by
  unfold tripCount
  split
  · rename_i hup
    exact .inl ⟨hup, rfl⟩
  · refine .inr ⟨by omega, ?_⟩
    rw [stridesIn, ← sub_eq_add_neg]

theorem tripCount_eq_ceil (hstep : step ≠ 0) :
    (tripCount lower upper step : Int) = max 0 ⌈((upper - lower : Int) : ℚ) / step⌉ := by
  rcases tripCount_cases lower upper hstep with ⟨hup, h⟩ | ⟨hdown, h⟩
  · rw [h, stridesIn_eq_ceil hup]
  · rw [h, stridesIn_eq_ceil (by omega), ← neg_sub upper lower, Int.cast_neg, Int.cast_neg,
      neg_div_neg_eq]

/-- An index has not reached the upper bound, in the direction of the step. -/
def Before (step upper index : Int) : Prop := 0 < step ∧ index < upper ∨ step < 0 ∧ upper < index

theorem tripCount_of_not_before (hstep : step ≠ 0) (h : ¬ Before step upper lower) :
    tripCount lower upper step = 0 := by
  unfold Before at h
  rcases tripCount_cases lower upper hstep with ⟨hup, hcount⟩ | ⟨hdown, hcount⟩
  · rw [hcount, stridesIn_of_nonpos hup (by omega)]
  · rw [hcount, stridesIn_of_nonpos (by omega) (by omega)]

/-- A step on from an index before the upper bound there is one trip less to make. -/
theorem tripCount_of_before (hstep : step ≠ 0) (h : Before step upper lower) :
    tripCount lower upper step = tripCount (lower + step) upper step + 1 := by
  unfold Before at h
  rcases tripCount_cases lower upper hstep with ⟨hup, hcount⟩ | ⟨hdown, hcount⟩
  · rcases tripCount_cases (lower + step) upper hstep with ⟨-, hrest⟩ | ⟨hdown, -⟩
    · rw [hcount, hrest, stridesIn_of_pos hup (by omega), sub_sub]
    · omega
  · rcases tripCount_cases (lower + step) upper hstep with ⟨hup, -⟩ | ⟨-, hrest⟩
    · omega
    · rw [hcount, hrest, stridesIn_of_pos (by omega) (by omega), sub_neg_eq_add, sub_add_eq_add_sub]

end Counts

namespace Machine

variable {R : Type} [Arithmetic R]

section Testing
variable {head : LoopHead} {body : Machine R → Outcome R} {upper : Int64} {σ τ : TripState R}
  {o : Outcome R}

/-- Where a loop ends that tests its index against the upper bound before every trip: at an index
that is not before the bound, or at a trip or an advance of the counters that stops. -/
inductive Loops (head : LoopHead) (body : Machine R → Outcome R) (upper : Int64) :
    TripState R → Outcome R → Prop where
  | leave {σ : TripState R}
    (test : ¬ Before head.bounds.step.toInt upper.toInt σ.index.toInt) :
    Loops head body upper σ (.done σ.machine)
  | stop {σ : TripState R} {m : Machine R} {e : Fault}
    (test : Before head.bounds.step.toInt upper.toInt σ.index.toInt)
    (trip : (σ.enter head).andThen body = ⟨m, some e⟩) : Loops head body upper σ ⟨m, some e⟩
  | overflow {σ : TripState R} {m : Machine R} {e : Fault}
    (test : Before head.bounds.step.toInt upper.toInt σ.index.toInt)
    (trip : (σ.enter head).andThen body = .done m)
    (advance : Word.add σ.index head.bounds.step = .error e ∨
      ∃ i, Word.add σ.index head.bounds.step = .ok i ∧ Word.add σ.trip 1 = .error e) :
    Loops head body upper σ ⟨m, some e⟩
  | next {σ τ : TripState R} {o : Outcome R}
    (test : Before head.bounds.step.toInt upper.toInt σ.index.toInt)
    (trip : Advances head body σ τ) (rest : Loops head body upper τ o) :
    Loops head body upper σ o

/-- The trips that are left to a loop. -/
def TripState.left (σ : TripState R) (head : LoopHead) (upper : Int64) : Nat :=
  tripCount σ.index.toInt upper.toInt head.bounds.step.toInt

theorem Advances.left (h : Advances head body σ τ) (hstep : head.bounds.step.toInt ≠ 0)
    (test : Before head.bounds.step.toInt upper.toInt σ.index.toInt) :
    σ.left head upper = τ.left head upper + 1 := by
  rw [TripState.left, tripCount_of_before hstep test, ← Word.add_eq_ok h.index]
  rfl

omit [Arithmetic R] in
theorem left_pos (hstep : head.bounds.step.toInt ≠ 0)
    (test : Before head.bounds.step.toInt upper.toInt σ.index.toInt) :
    ∃ n, σ.left head upper = n + 1 :=
  ⟨_, tripCount_of_before hstep test⟩

theorem runTrips_of_done {n : Nat} {m : Machine R} (h : (σ.enter head).andThen body = .done m) :
    runTrips head body (n + 1) σ.index σ.trip σ.machine =
      .attempt m (Word.add σ.index head.bounds.step) fun index =>
        .attempt m (Word.add σ.trip 1) fun trip => runTrips head body n index trip m := by
  unfold TripState.enter at h
  rw [runTrips, h, Outcome.done_andThen]

theorem runTrips_of_fault {n : Nat} {m : Machine R} {e : Fault}
    (h : (σ.enter head).andThen body = ⟨m, some e⟩) :
    runTrips head body (n + 1) σ.index σ.trip σ.machine = ⟨m, some e⟩ := by
  unfold TripState.enter at h
  rw [runTrips, h]
  rfl

theorem Advances.runTrips_succ (h : Advances head body σ τ) (n : Nat) :
    runTrips head body (n + 1) σ.index σ.trip σ.machine =
      runTrips head body n τ.index τ.trip τ.machine := by
  rw [runTrips_of_done h.body, h.index, h.trip]
  rfl

/-- A loop that tests its index makes the trips that are left to it. -/
theorem Loops.eq_runTrips (h : Loops head body upper σ o) (hstep : head.bounds.step.toInt ≠ 0) :
    o = runTrips head body (σ.left head upper) σ.index σ.trip σ.machine := by
  induction h with
  | leave test =>
    rw [TripState.left, tripCount_of_not_before hstep test]
    rfl
  | stop test trip =>
    obtain ⟨n, hn⟩ := left_pos hstep test
    rw [hn, runTrips_of_fault trip]
  | @overflow σ m e test trip advance =>
    obtain ⟨n, hn⟩ := left_pos hstep test
    rw [hn, runTrips_of_done trip]
    rcases advance with h | ⟨i, hi, h⟩
    · rw [h]
      rfl
    · rw [hi, h]
      rfl
  | next test trip rest ih => rw [trip.left hstep test, trip.runTrips_succ, ih]

/-- Every loop ends, whatever its body does to the machine. -/
theorem loops_runTrips (hstep : head.bounds.step.toInt ≠ 0) (σ : TripState R) :
    Loops head body upper σ
      (runTrips head body (σ.left head upper) σ.index σ.trip σ.machine) := by
  obtain ⟨n, hn⟩ : ∃ n, σ.left head upper = n := ⟨_, rfl⟩
  induction n generalizing σ with
  | zero =>
    rw [hn]
    refine .leave fun test => ?_
    obtain ⟨n, hpos⟩ := left_pos hstep test
    omega
  | succ n ih =>
    have test : Before head.bounds.step.toInt upper.toInt σ.index.toInt := by
      by_contra hnot
      rw [TripState.left, tripCount_of_not_before hstep hnot] at hn
      cases hn
    cases htrip : (σ.enter head).andThen body with
    | mk m fault? =>
      rw [hn]
      cases fault? with
      | some e =>
        rw [runTrips_of_fault htrip]
        exact .stop test htrip
      | none =>
        rw [runTrips_of_done htrip]
        cases hindex : Word.add σ.index head.bounds.step with
        | error e => exact .overflow test htrip (.inl hindex)
        | ok index =>
          cases hcount : Word.add σ.trip 1 with
          | error e => exact .overflow test htrip (.inr ⟨index, hindex, hcount⟩)
          | ok trip =>
            have advances : Advances head body σ ⟨index, trip, m⟩ := ⟨htrip, hindex, hcount⟩
            have hleft : (⟨index, trip, m⟩ : TripState R).left head upper = n := by
              have hboth : σ.left head upper = _ + 1 := advances.left hstep test
              omega
            have hrest := ih _ hleft
            rw [hleft] at hrest
            exact .next test advances hrest

/-- A loop that tests its index before every trip ends where the loop ends that counts its trips
when it starts. -/
theorem loops_iff {s : Stmt} {m : Machine R} {lower : Int64} (starts : Starts head m lower upper) :
    Loops head (run s) upper ⟨lower, 0, m⟩ o ↔ o = run (.loop head s) m := by
  have hstep := starts.step_ne_zero
  have hrun : run (.loop head s) m = runTrips head (run s)
      ((⟨lower, 0, m⟩ : TripState R).left head upper) lower 0 m := by
    rw [run, runLoop, starts.lower, starts.upper]
    simp only [Outcome.attempt_ok, if_neg starts.step]
    rfl
  rw [hrun]
  constructor
  · exact fun h => h.eq_runTrips hstep
  · rintro rfl
    exact loops_runTrips hstep _

end Testing

section Entering
variable {head : LoopHead} {m : Machine R}

/-- The index that a companion has on a trip: its start and its steps so far, as they evaluate now,
or else the number of the trip. -/
def CompanionValue (m : Machine R) (d : Dimension) (trip : Int) (index : Int64) : Prop :=
  match d.role with
  | .incremented _ start step => ∃ first stride, m.evalIndex start = .ok first ∧
      m.evalIndex step = .ok stride ∧ index.toInt = first.toInt + stride.toInt * trip
  | _ => index.toInt = trip

/-- The bindings of companions on a trip. Each is evaluated with those before it bound. -/
inductive Companions (trip : Int) : List Dimension → Machine R → Bindings → Prop where
  | nil {m : Machine R} : Companions trip [] m []
  | cons {d : Dimension} {ds : List Dimension} {m : Machine R} {i : Int64} {bs : Bindings}
    (value : CompanionValue m d trip i) (rest : Companions trip ds (m.bindIndex d.name i) bs) :
    Companions trip (d :: ds) m ((d.name, i) :: bs)

theorem Companions.names {trip : Int} {ds : List Dimension} {bs : Bindings}
    (h : Companions trip ds m bs) : bs.map Prod.fst = ds.map Dimension.name := by
  induction h with
  | nil => rfl
  | cons value rest ih => simp [ih]

theorem companionValue_of_ok {d : Dimension} {trip i : Int64} (h : m.companionIndex d trip = .ok i) :
    CompanionValue m d trip.toInt i := by
  obtain ⟨name, role⟩ := d
  cases role with
  | incremented parent start step =>
    rw [companionIndex] at h
    simp only [bind_eq_ok] at h
    obtain ⟨first, hfirst, stride, hstride, product, hproduct, h⟩ := h
    exact ⟨first, stride, hfirst, hstride, by rw [Word.add_eq_ok h, Word.mul_eq_ok hproduct]⟩
  | _ => exact congrArg Int64.toInt (Except.ok.inj h).symm

/-- A companion has no index on a trip, with the companions before it bound. -/
def CompanionFails (e : Fault) (trip : Int64) (ds : List Dimension) (m m' : Machine R) : Prop :=
  ∃ before d after bs, ds = before ++ d :: after ∧ Companions trip.toInt before m bs ∧
    m' = m.bindAll bs ∧ m'.companionIndex d trip = .error e

/-- The companions of a trip are all bound, or the binding stops at one that has no index. -/
theorem bindCompanions_cases (trip : Int64) (ds : List Dimension) (m : Machine R) :
    (∃ bs, Companions trip.toInt ds m bs ∧ bindCompanions trip ds m = .done (m.bindAll bs)) ∨
      ∃ e m', CompanionFails e trip ds m m' ∧ bindCompanions trip ds m = ⟨m', some e⟩ := by
  induction ds generalizing m with
  | nil => exact .inl ⟨[], .nil, rfl⟩
  | cons d ds ih =>
    rw [bindCompanions]
    cases hindex : m.companionIndex d trip with
    | error e => exact .inr ⟨e, m, ⟨[], d, ds, [], rfl, .nil, rfl, hindex⟩, rfl⟩
    | ok i =>
      have hvalue := companionValue_of_ok hindex
      rw [Outcome.attempt_ok]
      rcases ih (m.bindIndex d.name i) with ⟨bs, hbs, h⟩ | ⟨e, m', hfails, h⟩
      · exact .inl ⟨(d.name, i) :: bs, .cons hvalue hbs, h⟩
      · obtain ⟨before, c, after, bs, rfl, hbs, hm', hc⟩ := hfails
        exact .inr ⟨e, m', ⟨d :: before, c, after, (d.name, i) :: bs, rfl, .cons hvalue hbs, hm', hc⟩,
          h⟩

/-- A trip is entered: its index and its companions are bound, and nothing else changes. -/
def Enters (head : LoopHead) (index : Int) (trip : Nat) (m m' : Machine R) : Prop :=
  ∃ i companions, i.toInt = index ∧
    Companions trip head.companions (m.bindIndex head.dim.name i) companions ∧
    m' = m.bindAll ((head.dim.name, i) :: companions) ∧
    m'.Binds ((head.dim.name, i) :: companions)

/-- A trip is not entered: a companion has no index, with the index and the companions before it
bound. -/
def Blocked (e : Fault) (head : LoopHead) (index : Int) (trip : Nat) (m m' : Machine R) : Prop :=
  ∃ (i t : Int64), i.toInt = index ∧ t.toInt = trip ∧
    CompanionFails e t head.companions (m.bindIndex head.dim.name i) m'

/-- A trip enters its body, or it stops at a companion. -/
theorem runTrip_cases {index : Int} {trip : Nat} (body : Machine R → Outcome R)
    (hnames : head.bound.Nodup) (hindex : Word.Fits index) (htrip : Word.Fits trip)
    (m : Machine R) :
    (∃ m', Enters head index trip m m' ∧ runTrip head body index trip m = body m') ∨
      ∃ e m', Blocked e head index trip m m' ∧
        runTrip head body index trip m = ⟨m', some e⟩ := by
  have hi : (Int64.ofInt index).toInt = index := Int64.toInt_ofInt_of_le hindex.1 hindex.2
  have ht : (Int64.ofInt trip).toInt = trip := Int64.toInt_ofInt_of_le htrip.1 htrip.2
  rw [runTrip]
  rcases bindCompanions_cases (Int64.ofInt trip) head.companions
    (m.bindIndex head.dim.name (Int64.ofInt index)) with ⟨bs, hbs, h⟩ | ⟨e, m', hfails, h⟩
  · rw [ht] at hbs
    have hbound : (((head.dim.name, Int64.ofInt index) :: bs).map Prod.fst).Nodup := by
      rwa [List.map_cons, hbs.names]
    exact .inl ⟨_, ⟨_, bs, hi, hbs, rfl, binds_bindAll hbound⟩, by rw [h]; rfl⟩
  · exact .inr ⟨e, m', ⟨_, _, hi, ht, hfails⟩, by rw [h]; rfl⟩

end Entering

/-- A loop that is entered makes the trips between its bounds. -/
theorem run_loop_eq_sequence {head : LoopHead} (body : Stmt) {m : Machine R} {lower upper : Int64}
    (starts : Starts head m lower upper)
    (hcount : Word.Fits (tripCount lower.toInt upper.toInt head.bounds.step.toInt))
    (hlast : Word.Fits (lower.toInt +
      tripCount lower.toInt upper.toInt head.bounds.step.toInt * head.bounds.step.toInt)) :
    run (.loop head body) m = Outcome.sequence (fun k : Nat =>
        runTrip head (run body) (lower.toInt + k * head.bounds.step.toInt) k)
      (List.range (tripCount lower.toInt upper.toInt head.bounds.step.toInt)) m := by
  have hindex (k : Nat) (hk : k ≤ tripCount lower.toInt upper.toInt head.bounds.step.toInt) :
      Word.Fits (lower.toInt + k * head.bounds.step.toInt) := by
    rcases Nat.lt_or_eq_of_le hk with hlt | rfl
    · exact fits_of_lt_tripCount (Word.fits_toInt lower) (Word.fits_toInt upper)
        starts.step_ne_zero hlt
    · exact hlast
  have htrips : runTrips head (run body) _ (Int64.ofInt lower.toInt) (Int64.ofInt (0 : Nat)) m = _ :=
    runTrips_eq_sequence (run body) m hindex (by have hlt := hcount.2; omega)
  simp only [Int64.ofInt_toInt, Nat.zero_add] at htrips
  rw [run, runLoop, starts.lower, starts.upper]
  simp only [Outcome.attempt_ok, if_neg starts.step]
  exact htrips

/-- **A loop follows its limits.** When neither the number of its trips nor the index behind the last
one leaves the words, a loop makes its trips one after another, whatever its body stores or binds.
A trip is the body with the indices of the trip bound, or stops at a companion that has no index. The
first trip that stops ends the loop with its fault. That is where a loop ends that tests its index
before every trip. -/
theorem run_loop_trips {head : LoopHead} (body : Stmt) {m : Machine R} {lower upper : Int64}
    (starts : Starts head m lower upper) (hnames : head.bound.Nodup)
    (hcount : Word.Fits (tripCount lower.toInt upper.toInt head.bounds.step.toInt))
    (hlast : Word.Fits (lower.toInt +
      tripCount lower.toInt upper.toInt head.bounds.step.toInt * head.bounds.step.toInt)) :
    ∃ (count : Nat) (trip : Nat → Machine R → Outcome R),
      (count : Int) = max 0 ⌈((upper.toInt - lower.toInt : Int) : ℚ) / head.bounds.step.toInt⌉ ∧
      run (.loop head body) m = Outcome.sequence trip (List.range count) m ∧
      (∀ k < count, ∀ m₁,
        (∃ m₂, Enters head (lower.toInt + k * head.bounds.step.toInt) k m₁ m₂ ∧
          trip k m₁ = run body m₂) ∨
        ∃ e m₂, Blocked e head (lower.toInt + k * head.bounds.step.toInt) k m₁ m₂ ∧
          trip k m₁ = ⟨m₂, some e⟩) ∧
      (∀ e, (run (.loop head body) m).fault? = some e → ∃ k < count, ∃ m₁,
        Outcome.sequence trip (List.range k) m = .done m₁ ∧
          run (.loop head body) m = trip k m₁) ∧
      ∀ o, Loops head (run body) upper ⟨lower, 0, m⟩ o ↔ o = run (.loop head body) m := by
  have hrun := run_loop_eq_sequence body starts hcount hlast
  refine ⟨tripCount lower.toInt upper.toInt head.bounds.step.toInt, _,
    tripCount_eq_ceil starts.step_ne_zero, hrun, fun k hk m₁ => ?_, fun e he => ?_,
    fun o => loops_iff starts⟩
  · have hindex := fits_of_lt_tripCount (Word.fits_toInt lower) (Word.fits_toInt upper)
      starts.step_ne_zero hk
    have htrip : Word.Fits k := by
      unfold Word.Fits at hcount ⊢
      omega
    exact runTrip_cases (run body) hnames hindex htrip m₁
  · rw [hrun] at he ⊢
    obtain ⟨before, k, after, m₁, hrange, hbefore, hk⟩ := Outcome.sequence_stops he
    obtain ⟨hlt, rfl⟩ := range_eq_append hrange
    exact ⟨k, hlt, m₁, hbefore, hk⟩

/-- A loop from 3 down to a scalar in steps of 2, with an index that starts at its own. -/
def countdown : LoopHead :=
  ⟨⟨"x", .spatial⟩, ⟨.int 3, .scalar ⟨"n", .int64⟩, -2⟩,
    [⟨"u", .incremented ⟨"x", .spatial⟩ (.dim ⟨"x", .spatial⟩) (.int 1)⟩], .sequential⟩

/-- Sets the scalar and runs a loop of its own over the same index. -/
def meddling : Stmt :=
  .block [.assign (.scalar ⟨"n", .int64⟩) (.int 3),
    .loop ⟨⟨"x", .spatial⟩, .upTo (.int 5), [], .parallel⟩ (.declare ⟨"t", .float64⟩)]

/-- A countdown from 3 to 0 makes two trips, whatever its body does to the bound and the index. -/
theorem run_loop_trips_countdown :
    let m : Machine Binary64 := ({} : Machine Binary64).bindScalar "n" (Arithmetic.ofInt 0)
    Starts countdown m 3 0 ∧ countdown.bound.Nodup ∧
      ∃ trip : Nat → Machine Binary64 → Outcome Binary64,
        run (.loop countdown meddling) m = Outcome.sequence trip [0, 1] m ∧
        ∀ m₁, (∃ m₂, Enters countdown 1 1 m₁ m₂ ∧ trip 1 m₁ = run meddling m₂) ∨
          ∃ e m₂, Blocked e countdown 1 1 m₁ m₂ ∧ trip 1 m₁ = ⟨m₂, some e⟩ := by
  intro m
  have hlower : m.evalIndex (.int 3) = .ok 3 := (Evaluates.int (n := 3) (by decide)).evalIndex
  have hupper : m.evalIndex (.scalar ⟨"n", .int64⟩) = .ok 0 := by
    refine (Evaluates.scalar (n := 0) (x := Arithmetic.ofInt 0) ?_
      (ExactIntegers.ofInt 0 (by decide))).evalIndex
    simp [m]
  have starts : Starts countdown m 3 0 := ⟨hlower, hupper, by decide⟩
  have hnames : countdown.bound.Nodup := by decide
  obtain ⟨count, trip, hcount, hrun, htrip, -, -⟩ :=
    run_loop_trips meddling starts hnames (by decide) (by decide)
  have htwo : count = 2 := by
    have hceil : ⌈(((0 : Int64).toInt - (3 : Int64).toInt : Int) : ℚ) /
        countdown.bounds.step.toInt⌉ = 2 := by
      rw [Int.ceil_eq_iff]
      simp only [Int64.reduceToInt, countdown]
      norm_num
    rw [hceil] at hcount
    omega
  subst htwo
  exact ⟨starts, hnames, trip, hrun, htrip 1 (by decide)⟩

end Machine

end GridKernel
