import GridKernel.Proofs.Marches
import GridKernel.Proofs.Nests
import GridKernel.Proofs.SlotOffsets
import GridKernel.Proofs.SlotUpdates

/-! Steps of a march. The time loop runs through the times of a march in order, the slots are
advanced to the levels that a step refers to, and the space loops run through the grid points at
least a border away from the ends. -/
namespace GridKernel.March

open Machine

variable {m : March} {specs : Specs}

/-- The times that a march steps through, in order. -/
def times (m : March) : List Int :=
  (List.range m.steps.toNat).map fun (k : Nat) =>
    if m.forward then (if m.hasRing then (m.order.toNat : Int) else 0) + k
    else (m.steps.toNat : Int) - 1 - k

/-- The indices that a loop over an axis of the grid runs through. -/
def Specs.walk (specs : Specs) (extent : UInt64) : List Int64 :=
  (List.range (extent.toNat - 2 * specs.border.toNat)).map fun (k : Nat) =>
    Int64.ofInt ((specs.border.toNat : Int) + k)

/-- The grid points of a march, in the order of the space loops. -/
def Specs.points (specs : Specs) : List (List Int64) :=
  (specs.shape.reverse.map specs.walk).sections

/-- An index is at least a border away from both ends of an axis. -/
def Specs.Inside (specs : Specs) (i : Int64) (extent : UInt64) : Prop :=
  (specs.border.toNat : Int) ≤ i.toInt ∧ i.toInt < (extent.toNat : Int) - specs.border.toNat

theorem Specs.mem_walk {extent : UInt64} (hexact : extent.toNat < 2 ^ 53) {i : Int64} :
    i ∈ specs.walk extent ↔ specs.Inside i extent := by
  simp only [walk, Inside, List.mem_map, List.mem_range]
  constructor
  · rintro ⟨k, hk, rfl⟩
    rw [toInt_ofInt (by omega)]
    omega
  · rintro ⟨hlow, hhigh⟩
    have hindex : (specs.border.toNat : Int) + ((i.toInt - specs.border.toNat).toNat : Nat) =
        i.toInt := by omega
    exact ⟨(i.toInt - specs.border.toNat).toNat, by omega, by rw [hindex, Int64.ofInt_toInt]⟩

theorem Specs.mem_points (hexact : ∀ extent ∈ specs.shape, extent.toNat < 2 ^ 53)
    {p : List Int64} :
    p ∈ specs.points ↔ List.Forall₂ specs.Inside p specs.shape.reverse := by
  rw [points, List.mem_sections, List.forall₂_map_right_iff]
  have hreverse : ∀ extent ∈ specs.shape.reverse, extent.toNat < 2 ^ 53 :=
    fun extent he => hexact extent (List.mem_reverse.1 he)
  generalize specs.shape.reverse = extents at hreverse
  induction extents generalizing p with
  | nil => simp
  | cons extent extents ih =>
    cases p with
    | nil => simp
    | cons i p =>
      have hrest : ∀ e ∈ extents, e.toNat < 2 ^ 53 := fun e he => hreverse e (by simp [he])
      rw [List.forall₂_cons, List.forall₂_cons]
      exact and_congr (Specs.mem_walk (hreverse extent (by simp))) (ih hrest)

variable {R : Type} [Arithmetic R] [ExactIntegers R]

/-- A loop up between exact bounds runs through the indices between them. -/
theorem makes_up {d : Dimension} {lower upper : Expr} {order : LoopOrder} {l u : Int}
    (hl : ∀ M : Machine R, M.Evaluates lower l) (hu : ∀ M : Machine R, M.Evaluates upper u) :
    Makes (fun _ : Machine R => True) ⟨d, ⟨lower, upper, 1⟩, [], order⟩
      ((List.range (u - l).toNat).map fun (k : Nat) => [(d.name, Int64.ofInt (l + k))]) := by
  have htrips : (⟨d, ⟨lower, upper, 1⟩, [], order⟩ : LoopHead).trips l u =
      (List.range (u - l).toNat).map fun (k : Nat) => [(d.name, Int64.ofInt (l + k))] := by
    simp [LoopHead.trips, LoopHead.bindings, tripCount]
  rw [← htrips]
  refine ⟨fun bs hbs => ?_, fun M body _ => runLoop_eq (by simp) (.inl rfl) body (hl M) (hu M)⟩
  obtain ⟨k, -, rfl⟩ := List.mem_map.1 hbs
  exact LoopHead.bindings_names _ _ _

/-- A loop down between exact bounds runs through the indices between them. -/
theorem makes_down {d : Dimension} {lower upper : Expr} {order : LoopOrder} {l u : Int}
    (hl : ∀ M : Machine R, M.Evaluates lower l) (hu : ∀ M : Machine R, M.Evaluates upper u) :
    Makes (fun _ : Machine R => True) ⟨d, ⟨lower, upper, -1⟩, [], order⟩
      ((List.range (l - u).toNat).map fun (k : Nat) => [(d.name, Int64.ofInt (l - k))]) := by
  have htrips : (⟨d, ⟨lower, upper, -1⟩, [], order⟩ : LoopHead).trips l u =
      (List.range (l - u).toNat).map fun (k : Nat) => [(d.name, Int64.ofInt (l - k))] := by
    simp [LoopHead.trips, LoopHead.bindings, tripCount, sub_eq_add_neg]
  rw [← htrips]
  refine ⟨fun bs hbs => ?_, fun M body _ => runLoop_eq (by simp) (.inr rfl) body (hl M) (hu M)⟩
  obtain ⟨k, -, rfl⟩ := List.mem_map.1 hbs
  exact LoopHead.bindings_names _ _ _

theorem evaluates_word {n : Int} (h : n.natAbs ≤ 2 ^ 53) {w : Int64} (hw : w.toInt = n)
    (M : Machine R) : M.Evaluates (.int w) n := by
  have hword := Evaluates.int (m := M) (n := w) (by omega)
  rwa [hw] at hword

/-- The time loop runs through the times of the march. -/
theorem makes_times (hexact : m.steps.toNat + m.order.toNat < 2 ^ 53) :
    ∃ bounds, m.timeBounds = .ok bounds ∧
      Makes (fun _ : Machine R => True) ⟨m.timeCounter, bounds, [], .sequential⟩
        (m.times.map fun T => [(m.timeCounter.name, Int64.ofInt T)]) := by
  have hsteps := Word.toInt_of_lt (n := m.steps) (by omega)
  have horder := Word.toInt_of_lt (n := m.order) (by omega)
  cases hforward : m.forward with
  | true =>
    let skip : Int := if m.hasRing then m.order.toNat else 0
    have hskip : (if m.hasRing then m.order.toInt64 else 0).toInt = skip := by
      simp only [skip]
      split
      · exact horder
      · rfl
    have hstop : Word.add m.steps.toInt64 (if m.hasRing then m.order.toInt64 else 0) =
        .ok (Int64.ofInt (m.steps.toNat + skip)) := by
      rw [Word.add, hsteps, hskip, Word.int_eq]
      simp only [skip]
      split <;> omega
    have hbound : 0 ≤ skip ∧ skip ≤ m.order.toNat := by
      simp only [skip]
      split <;> omega
    refine ⟨⟨.int (if m.hasRing then m.order.toInt64 else 0),
      .int (Int64.ofInt (m.steps.toNat + skip)), 1⟩, by simp [timeBounds, hforward, hstop], ?_⟩
    have hmakes : Makes (fun _ : Machine R => True) ⟨m.timeCounter, _, [], .sequential⟩ _ :=
      makes_up
      (fun M => evaluates_word (by omega) hskip M)
      (fun M => evaluates_word (n := m.steps.toNat + skip) (by omega) (toInt_ofInt (by omega)) M)
    have htimes : m.times = (List.range ((m.steps.toNat + skip) - skip).toNat).map
        fun (k : Nat) => skip + k := by
      simp [times, hforward, skip]
    rw [htimes, List.map_map]
    exact hmakes
  | false =>
    have hstart : Word.sub m.steps.toInt64 1 = .ok (Int64.ofInt (m.steps.toNat - 1)) := by
      have hone : (1 : Int64).toInt = 1 := rfl
      rw [Word.sub, hsteps, hone, Word.int_eq (by omega)]
    refine ⟨⟨.int (Int64.ofInt (m.steps.toNat - 1)), .int (-1), -1⟩,
      by simp [timeBounds, hforward, hstart], ?_⟩
    have hmakes : Makes (fun _ : Machine R => True) ⟨m.timeCounter, _, [], .sequential⟩ _ :=
      makes_down
      (fun M => evaluates_word (n := m.steps.toNat - 1) (by omega) (toInt_ofInt (by omega)) M)
      (fun M => evaluates_word (n := -1) (w := -1) (by omega) rfl M)
    have htimes : m.times = (List.range (((m.steps.toNat : Int) - 1) - -1).toNat).map
        fun (k : Nat) => (m.steps.toNat : Int) - 1 - k := by
      simp [times, hforward]
    rw [htimes, List.map_map]
    exact hmakes

omit [Arithmetic R] [ExactIntegers R] in
theorem sections_zipWith {α β γ : Type} (f : α → β → γ) {xs : List α} {yss : List (List β)}
    (h : xs.length = yss.length) :
    (List.zipWith (fun x ys => ys.map (f x)) xs yss).sections =
      yss.sections.map fun ys => List.zipWith f xs ys := by
  induction xs generalizing yss with
  | nil =>
    obtain rfl := List.length_eq_zero_iff.1 h.symm
    rfl
  | cons x xs ih =>
    cases yss with
    | nil => cases h
    | cons ys yss =>
      have hlength : xs.length = yss.length := by simpa using h
      simp [List.sections, ih hlength, List.flatMap_map, List.map_flatMap, Function.comp_def]

/-- The bindings of the space loops at a grid point. -/
def pointBindings (ds : List Dimension) (p : List Int64) : List Bindings :=
  List.zipWith (fun d i => [(d.name, i)]) ds p

/-- A space loop runs through the indices inside its axis. -/
theorem makes_walk {d : Dimension} {extent : UInt64}
    (hborder : 2 * specs.border.toNat ≤ extent.toNat) (hexact : extent.toNat < 2 ^ 53) :
    Makes (fun _ : Machine R => True)
      ⟨d, ⟨.ofSize specs.border, .ofSize (extent - specs.border), 1⟩, [], .parallel⟩
      ((specs.walk extent).map fun i => [(d.name, i)]) := by
  have hsub : (extent - specs.border).toNat = extent.toNat - specs.border.toNat :=
    UInt64.toNat_sub_of_le _ _ (UInt64.le_iff_toNat_le.2 (by omega))
  have hmakes : Makes (fun _ : Machine R => True) ⟨d, _, [], .parallel⟩ _ := makes_up
    (fun M => (Reads.ofSize (m := M) (n := specs.border) (by omega)).1)
    (fun M => (Reads.ofSize (m := M) (n := extent - specs.border) (by omega)).1)
  have hcount : (((extent - specs.border).toNat : Int) - specs.border.toNat).toNat =
      extent.toNat - 2 * specs.border.toNat := by omega
  rw [hcount] at hmakes
  rw [Specs.walk, List.map_map]
  exact hmakes

/-- The space loops run through the grid points. -/
theorem makes_points (hm : Configured specs m)
    (hexact : ∀ extent ∈ specs.shape, extent.toNat < 2 ^ 53) :
    ∃ trips, List.Forall₂ (Makes (fun _ : Machine R => True)) m.spaceHeads trips ∧
      trips.sections = specs.points.map (pointBindings m.spaceCounters) := by
  have hlength : m.spaceCounters.length = specs.shape.reverse.length := by
    simp [hm.spaceCounters, gridCounters]
  refine ⟨List.zipWith (fun d is => is.map fun i => [(d.name, i)]) m.spaceCounters
    (specs.shape.reverse.map specs.walk), ?_, ?_⟩
  · rw [spaceHeads, hm.spaceBounds, gridBounds]
    have hextents : ∀ extent ∈ specs.shape.reverse,
        2 * specs.border.toNat ≤ extent.toNat ∧ extent.toNat < 2 ^ 53 := fun extent he =>
      ⟨hm.border extent (List.mem_reverse.1 he), hexact extent (List.mem_reverse.1 he)⟩
    generalize specs.shape.reverse = extents at hlength hextents
    generalize m.spaceCounters = ds at hlength
    induction extents generalizing ds with
    | nil =>
      obtain rfl := List.length_eq_zero_iff.1 hlength
      exact .nil
    | cons extent extents ih =>
      cases ds with
      | nil => cases hlength
      | cons d ds =>
        obtain ⟨hborder, hextent⟩ := hextents extent (by simp)
        exact .cons (makes_walk hborder hextent)
          (ih (fun e he => hextents e (by simp [he])) ds (by simpa using hlength))
  · rw [sections_zipWith (fun (d : Dimension) (i : Int64) => [(d.name, i)])]
    · rfl
    · rw [List.length_map, hlength]

/-- The space loops around the statements of a grid point bind the point. -/
def At (M : Machine R) (ds : List Dimension) (p : List Int64) : Prop :=
  List.Forall₂ (fun (d : Dimension) i => M.indices[d.name]? = some i) ds p

omit [Arithmetic R] [ExactIntegers R] in
theorem at_of_binds {M : Machine R} {ds : List Dimension} {p : List Int64}
    (hlength : ds.length = p.length) (h : M.Binds (pointBindings ds p).flatten) : At M ds p := by
  induction ds generalizing p with
  | nil =>
    obtain rfl := List.length_eq_zero_iff.1 hlength.symm
    exact .nil
  | cons d ds ih =>
    cases p with
    | nil => cases hlength
    | cons i p =>
      have hfirst : M.indices[d.name]? = some i := h (d.name, i) (by simp [pointBindings])
      refine .cons hfirst (ih (by simpa using hlength) fun b hb => h b ?_)
      simp only [pointBindings, List.zipWith_cons_cons, List.flatten_cons, List.mem_append]
      exact .inr hb

theorem bound_spaceHeads (hm : Configured specs m) :
    m.spaceHeads.flatMap LoopHead.bound = m.spaceCounters.map Dimension.name := by
  have hlength : m.spaceCounters.length ≤ m.spaceBounds.length := by
    simp [hm.spaceCounters, hm.spaceBounds, gridCounters, gridBounds]
  have hnames : m.spaceHeads.map (fun head => head.dim) = m.spaceCounters := by
    rw [spaceHeads, List.map_map]
    exact List.map_fst_zip hlength
  rw [← hnames, List.map_map, ← List.flatMap_pure_eq_map]
  refine List.flatMap_congr fun head hhead => ?_
  obtain ⟨p, -, rfl⟩ := List.mem_map.1 hhead
  rfl

theorem nodup_counters (rank : Nat) : ((gridCounters rank).map Dimension.name).Nodup := by
  rw [gridCounters, List.map_map]
  refine List.Nodup.map (fun i j h => ?_) List.nodup_range
  have hnames : "i" ++ (i + 1).repr = "i" ++ (j + 1).repr := h
  have hsucc := Identifier.append_repr_inj hnames
  omega

/-- A property indexed by the grid points treated so far, kept by the statements of each of them,
holds at the end of the space loops. -/
theorem ends_points {F : Fault → Machine R → Prop} (hm : Configured specs m)
    (hexact : ∀ extent ∈ specs.shape, extent.toNat < 2 ^ 53)
    (P : List (List Int64) → Machine R → Prop) {point : Stmt} (hloops : point.loops = [])
    (hbind : ∀ before M, ∀ d ∈ m.spaceCounters, ∀ i, P before M → P before (M.bindIndex d.name i))
    (hpoint : ∀ before p after, specs.points = before ++ p :: after → ∀ M, P before M →
      At M m.spaceCounters p → (run point M).Ends (P (before ++ [p])) F) {M : Machine R}
    (h : P [] M) : (run (point.nest m.spaceHeads) M).Ends (P specs.points) F := by
  obtain ⟨trips, hmakes, hsections⟩ := makes_points (R := R) hm hexact
  have hbound := bound_spaceHeads hm
  have hnames : (m.spaceHeads.flatMap LoopHead.bound).Nodup := by
    rw [hbound, hm.spaceCounters]
    exact nodup_counters _
  have hcount : trips.sections.length = specs.points.length := by rw [hsections, List.length_map]
  refine (ends_nest (fun before => P (specs.points.take before.length)) hmakes
    (fun _ _ _ => trivial) hnames (by simp [hloops]) ?_ ?_ h).mono fun M hM => ?_
  · intro before M name hname i hM
    rw [hbound] at hname
    obtain ⟨d, hd, rfl⟩ := List.mem_map.1 hname
    exact hbind _ M d hd i hM
  · intro before choice after hsplit M hM hbinds
    have hchoice : (specs.points.map (pointBindings m.spaceCounters))[before.length]? =
        some choice := by
      rw [← hsections, hsplit]
      simp
    rw [List.getElem?_map] at hchoice
    obtain ⟨p, hp, rfl⟩ := Option.map_eq_some_iff.1 hchoice
    obtain ⟨hlt, hget⟩ := List.getElem?_eq_some_iff.1 hp
    have hinside := (Specs.mem_points hexact).1 (List.mem_of_getElem? hp)
    have hlength : m.spaceCounters.length = p.length := by
      rw [hinside.length_eq, hm.spaceCounters]
      simp [gridCounters]
    have htake : specs.points.take before.length ++ [p] =
        specs.points.take (before ++ [pointBindings m.spaceCounters p]).length := by
      rw [List.length_append, List.length_singleton, ← hget, List.take_append_getElem]
    rw [← htake]
    refine hpoint _ p (specs.points.drop (before.length + 1)) ?_ M hM (at_of_binds hlength hbinds)
    rw [← hget, List.getElem_cons_drop, List.take_append_drop]
  · rwa [hcount, List.take_length] at hM

/-- The slot of an absolute time in a ring. -/
def ringSlot (m : March) (T : Int) : Int :=
  (if m.forward then T + m.order.toNat else T) % ((m.order.toNat : Int) + 1)

/-- The time of the level that a slot scalar stands for during a step. -/
def levelOf (m : March) (T : Int) (j : Nat) : Int :=
  if m.forward then T + j - m.order.toNat else T + m.order.toNat - j

theorem levelOf_slotNumber {k : Int} (hk : m.Kept k) (T : Int) :
    m.levelOf T (m.slotNumber k).toNat = T + k := by
  have hrange := kept_iff.1 hk
  unfold slotNumber at hrange ⊢
  unfold levelOf
  cases hforward : m.forward <;>
    simp only [hforward, if_true, Bool.false_eq_true, if_false] at hrange ⊢
  · omega
  · omega

theorem levelOf_slotIndex {k : Int64} (hk : m.InRing k) (T : Int) :
    m.levelOf T (m.slotIndex k).toNat = T + k.toInt :=
  levelOf_slotNumber (inRing_iff.1 hk) T

theorem ringSlot_nonneg (m : March) (T : Int) : 0 ≤ m.ringSlot T :=
  Int.emod_nonneg _ (by omega)

theorem ringSlot_lt (m : March) (T : Int) : m.ringSlot T < (m.order.toNat : Int) + 1 :=
  Int.emod_lt_of_pos _ (by omega)

/-- Times closer to each other than a ring has slots are in different slots. -/
theorem eq_of_ringSlot_eq {T T' : Int} (h : m.ringSlot T = m.ringSlot T')
    (hnear : (T - T').natAbs ≤ m.order.toNat) : T = T' := by
  have hdvd : (m.order.toNat : Int) + 1 ∣ T - T' := by
    unfold ringSlot at h
    split at h
    · have hzero := Int.emod_eq_emod_iff_emod_sub_eq_zero.1 h
      rw [add_sub_add_right_eq_sub] at hzero
      exact Int.dvd_of_emod_eq_zero hzero
    · exact Int.dvd_of_emod_eq_zero (Int.emod_eq_emod_iff_emod_sub_eq_zero.1 h)
  have hzero := Int.eq_zero_of_dvd_of_natAbs_lt_natAbs hdvd (by omega)
  omega

theorem ringSlot_nthSlot {T : Int} {k : Nat} (hk : k ≤ m.order.toNat) :
    m.ringSlot (m.levelOf T (m.nthSlot k)) = (T + k) % ((m.order.toNat : Int) + 1) := by
  unfold ringSlot levelOf nthSlot
  split
  · congr 1
    omega
  · congr 1
    omega

/-- The slot scalars hold the slots of the levels of a step. -/
def Slots (m : March) (T : Int) (M : Machine R) : Prop :=
  ∀ j ≤ m.order.toNat, ∃ x, M.scalars[(slotScalar j).name]? = some x ∧
    Denotes x (m.ringSlot (m.levelOf T j))

/-- After the first `n` statements that advance the slots, the slots that they set are counted from
the time, and all else is as before. -/
structure Advanced (m : March) (T : Int) (n : Nat) (M M' : Machine R) : Prop where
  slots : ∀ k < n, ∃ x, M'.scalars[(slotScalar (m.nthSlot k)).name]? = some x ∧
    Denotes x ((T + k) % ((m.order.toNat : Int) + 1))
  arrays : M'.arrays = M.arrays
  sizes : M'.sizes = M.sizes
  indices : M'.indices = M.indices
  scalars : ∀ name : String, (∀ j ≤ m.order.toNat, name ≠ (slotScalar j).name) →
    M'.scalars[name]? = M.scalars[name]?

omit [ExactIntegers R] in
/-- All slots advanced are the slots of the levels of the step. -/
theorem Advanced.all {T : Int} {M M' : Machine R} (h : m.Advanced T (m.order.toNat + 1) M M') :
    m.Slots T M' := by
  intro j hj
  have hk := nthSlot_le hj
  obtain ⟨x, hx, hslot⟩ := h.slots (m.nthSlot j) (by omega)
  rw [← ringSlot_nthSlot hk, nthSlot_nthSlot hj] at hslot
  rw [nthSlot_nthSlot hj] at hx
  exact ⟨x, hx, hslot⟩

/-- The value of a dividend: the time, or one past the slot before. -/
def dividendAt (m : March) (T : Int) (n : Nat) : Int :=
  if n = 0 then T else (T + (n - 1 : Nat)) % ((m.order.toNat : Int) + 1) + 1

theorem dividendAt_emod (m : March) (T : Int) (n : Nat) :
    m.dividendAt T n % ((m.order.toNat : Int) + 1) = (T + n) % ((m.order.toNat : Int) + 1) := by
  unfold dividendAt
  split
  · simp [*]
  · rw [Int.emod_add_emod, Int.add_assoc]
    congr 2
    omega

theorem dividendAt_nonneg {T : Int} (hT : 0 ≤ T) (n : Nat) : 0 ≤ m.dividendAt T n := by
  have hslot := Int.emod_nonneg (T + (n - 1 : Nat)) (b := (m.order.toNat : Int) + 1) (by omega)
  unfold dividendAt
  split <;> omega

theorem evaluates_divisor (horder : m.order.toNat < 2 ^ 53) (M : Machine R) :
    M.Evaluates m.divisor ((m.order.toNat : Int) + 1) :=
  evaluates_word (by omega) (toInt_ofInt (n := ((m.order.toNat + 1 : Nat) : Int)) (by omega)) M

theorem evaluates_dividend {n : Nat} (horder : m.order.toNat < 2 ^ 53) {T : Int}
    (hT : T.natAbs ≤ 2 ^ 53) {M M' : Machine R}
    (htime : M.indices[m.timeCounter.name]? = some (Int64.ofInt T)) (h : m.Advanced T n M M') :
    M'.Evaluates (m.dividend n) (m.dividendAt T n) := by
  cases n with
  | zero =>
    have hdim : M'.Evaluates (.dim m.timeCounter) T := .dim hT (by rw [h.indices, htime])
    exact hdim
  | succ n =>
    obtain ⟨x, hx, hslot⟩ := h.slots n (by omega)
    have hone : M'.Evaluates (.int 1) 1 := evaluates_word (by decide) rfl M'
    have hlow := Int.emod_nonneg (T + n) (b := (m.order.toNat : Int) + 1) (by omega)
    have hhigh := Int.emod_lt_of_pos (T + n) (b := (m.order.toNat : Int) + 1) (by omega)
    exact (Evaluates.scalar hx hslot).add hone (by omega)

theorem run_advanceSlot {n : Nat} (hn : n ≤ m.order.toNat) (horder : m.order.toNat < 2 ^ 53)
    {T : Int} (hT : T.natAbs ≤ 2 ^ 53) {M M' : Machine R}
    (htime : M.indices[m.timeCounter.name]? = some (Int64.ofInt T)) (h : m.Advanced T n M M') :
    ∃ M'', run (m.advanceSlot n) M' = .done M'' ∧ m.Advanced T (n + 1) M M'' := by
  have hlevel := (evaluates_dividend horder hT htime h).rem (evaluates_divisor horder M') (by omega)
  rw [dividendAt_emod] at hlevel
  obtain ⟨x, hx, hslot⟩ := hlevel
  refine ⟨M'.bindScalar (slotScalar (m.nthSlot n)).name x, ?_, ?_, h.arrays, h.sizes,
    h.indices, ?_⟩
  · rw [advanceSlot_eq, run, hx]
    rfl
  · intro k hk
    rcases Nat.lt_succ_iff_lt_or_eq.1 hk with hk | rfl
    · have hne : (slotScalar (m.nthSlot n)).name ≠ (slotScalar (m.nthSlot k)).name := by
        intro hname
        have hslots := congrArg m.nthSlot (slotScalar_inj hname)
        rw [nthSlot_nthSlot hn, nthSlot_nthSlot (by omega)] at hslots
        omega
      simpa [hne] using h.slots k hk
    · exact ⟨x, by simp, hslot⟩
  · intro name hname
    have hne := (hname _ (nthSlot_le hn)).symm
    simpa [hne] using h.scalars name hname

/-- The first statements that advance the slots set those that they stand for. -/
theorem run_advances (horder : m.order.toNat < 2 ^ 53) {T : Int} (hT : T.natAbs ≤ 2 ^ 53)
    {M : Machine R} (htime : M.indices[m.timeCounter.name]? = some (Int64.ofInt T)) {n : Nat}
    (hn : n ≤ m.order.toNat + 1) : ∃ M',
      runAll ((List.range n).map m.advanceSlot) M = .done M' ∧ m.Advanced T n M M' := by
  induction n with
  | zero => exact ⟨M, rfl, by simp, rfl, rfl, rfl, fun _ _ => rfl⟩
  | succ n ih =>
    obtain ⟨M', hrun, h⟩ := ih (by omega)
    obtain ⟨M'', hrun', h'⟩ := run_advanceSlot (by omega) horder hT htime h
    refine ⟨M'', ?_, h'⟩
    rw [List.range_succ, List.map_append, List.map_singleton, runAll_append, hrun,
      Outcome.done_andThen, runAll_singleton, hrun']

/-- Advancing the slots sets them to the slots of the levels of the step. -/
theorem run_advanceSlots (hring : m.hasRing) (horder : m.order.toNat < 2 ^ 53) {T : Int}
    (hT : T.natAbs ≤ 2 ^ 53) {M : Machine R}
    (htime : M.indices[m.timeCounter.name]? = some (Int64.ofInt T)) :
    ∃ M', runAll m.advanceSlots M = .done M' ∧ m.Advanced T (m.order.toNat + 1) M M' := by
  rw [advanceSlots_eq hring]
  exact run_advances horder hT htime le_rfl

end GridKernel.March
