import Mathlib.Tactic.Linarith
import Mathlib.Tactic.Ring
import GridKernel.Proofs.Integers

/-! Loops. A loop whose bounds have exact values runs its body once for each of its trips, in order,
with the index of the trip and the companion indices bound. -/
namespace GridKernel

variable {R : Type}

/-- Indices bound to names. -/
abbrev Bindings := List (String × Int64)

namespace Outcome

/-- Runs a step for each entry of a list, in order. -/
def sequence {α : Type} (step : α → Machine R → Outcome R) : List α → Machine R → Outcome R
  | [], m => done m
  | x :: xs, m => (step x m).andThen (sequence step xs)

/-- What holds of the machine at the end, and of the machine and the fault of a run that stopped. -/
def Ends (Q : Machine R → Prop) (F : Fault → Machine R → Prop) (o : Outcome R) : Prop :=
  match o.fault? with
  | none => Q o.machine
  | some e => F e o.machine

variable {Q Q' : Machine R → Prop} {F : Fault → Machine R → Prop}

theorem ends_done {m : Machine R} : (done m).Ends Q F ↔ Q m := Iff.rfl

theorem Ends.andThen {o : Outcome R} {f : Machine R → Outcome R} (h : o.Ends Q F)
    (hf : ∀ m, Q m → (f m).Ends Q' F) : (o.andThen f).Ends Q' F := by
  unfold Ends at h
  unfold Outcome.andThen
  cases ho : o.fault? with
  | none =>
    simp only [ho] at h
    exact hf _ h
  | some e =>
    simp only [ho] at h
    simpa only [Ends, ho] using h

theorem Ends.imp {F' : Fault → Machine R → Prop} {o : Outcome R} (h : o.Ends Q F)
    (hQ : ∀ m, Q m → Q' m) (hF : ∀ e m, F e m → F' e m) : o.Ends Q' F' := by
  unfold Ends at h ⊢
  split at h <;> simp_all

theorem Ends.exists_done {o : Outcome R} (h : o.Ends Q F) (hF : ∀ e m, ¬ F e m) :
    ∃ m, o = .done m ∧ Q m := by
  obtain ⟨m, fault?⟩ := o
  cases fault? with
  | none => exact ⟨m, rfl, h⟩
  | some e => exact absurd h (hF e m)

theorem Ends.exists_fault {o : Outcome R} (h : o.Ends Q F) (hQ : ∀ m, ¬ Q m) :
    ∃ e, o.fault? = some e ∧ F e o.machine := by
  obtain ⟨m, fault?⟩ := o
  cases fault? with
  | none => exact absurd h (hQ m)
  | some e => exact ⟨e, rfl, h⟩

theorem Ends.mono {o : Outcome R} (h : o.Ends Q F) (hQ : ∀ m, Q m → Q' m) : o.Ends Q' F :=
  h.imp hQ fun _ _ hF => hF

theorem Ends.and {o : Outcome R} (h : o.Ends Q F) (h' : Q' o.machine) :
    o.Ends (fun m => Q m ∧ Q' m) F := by
  unfold Ends at h ⊢
  split at h <;> simp_all

/-- A property indexed by the entries treated so far, kept by every step. -/
theorem ends_sequence {α : Type} {step : α → Machine R → Outcome R} (P : List α → Machine R → Prop)
    {xs : List α} (hstep : ∀ before x after, xs = before ++ x :: after → ∀ m, P before m →
      (step x m).Ends (P (before ++ [x])) F) {m : Machine R} (h : P [] m) :
    (sequence step xs m).Ends (P xs) F := by
  suffices hgen : ∀ after before, xs = before ++ after → ∀ m, P before m →
      (sequence step after m).Ends (P xs) F from hgen xs [] rfl m h
  intro after
  induction after with
  | nil =>
    intro before hxs m hm
    simp only [List.append_nil] at hxs
    subst hxs
    exact hm
  | cons x after ih =>
    intro before hxs m hm
    refine (hstep before x after hxs m hm).andThen fun m' hm' => ?_
    exact ih (before ++ [x]) (by simpa using hxs) m' hm'

theorem sequence_map {α β : Type} (f : α → β) (step : β → Machine R → Outcome R) (xs : List α) :
    sequence step (xs.map f) = sequence (fun x => step (f x)) xs := by
  induction xs with
  | nil => rfl
  | cons x xs ih => funext m; rw [List.map_cons, sequence, sequence, ih]

/-- A sequence that stops ends in the first step that stops, after all steps before it. -/
theorem sequence_stops {α : Type} {step : α → Machine R → Outcome R} {xs : List α} {m : Machine R} {e : Fault}
    (h : (sequence step xs m).fault? = some e) :
    ∃ before x after m', xs = before ++ x :: after ∧ sequence step before m = done m' ∧
      sequence step xs m = step x m' := by
  induction xs generalizing m with
  | nil => cases h
  | cons x xs ih =>
    rw [sequence] at h ⊢
    rcases hx : step x m with ⟨m', _ | e'⟩
    · rw [hx] at h
      obtain ⟨before, y, after, m'', rfl, hbefore, hy⟩ := ih h
      refine ⟨x :: before, y, after, m'', rfl, ?_, hy⟩
      rw [sequence, hx]
      exact hbefore
    · exact ⟨[], x, xs, m, rfl, rfl, hx.symm⟩

end Outcome

namespace Machine

def bindAll (m : Machine R) (bs : Bindings) : Machine R :=
  bs.foldl (fun m b => m.bindIndex b.1 b.2) m

/-- The machine has the given bindings among its indices. -/
def Binds (m : Machine R) (bs : Bindings) : Prop := ∀ b ∈ bs, m.indices[b.1]? = some b.2

@[simp] theorem bindAll_nil (m : Machine R) : m.bindAll [] = m := rfl

@[simp] theorem bindAll_cons (m : Machine R) (b : String × Int64) (bs : Bindings) :
    m.bindAll (b :: bs) = (m.bindIndex b.1 b.2).bindAll bs := rfl

theorem indices_bindAll_of_notMem {m : Machine R} {bs : Bindings} {name : String}
    (h : name ∉ bs.map Prod.fst) : (m.bindAll bs).indices[name]? = m.indices[name]? := by
  induction bs generalizing m with
  | nil => rfl
  | cons b bs ih =>
    simp only [List.map_cons, List.mem_cons, not_or] at h
    rw [bindAll_cons, ih h.2, indices_bindIndex, if_neg (Ne.symm h.1)]

/-- Bindings of different names are all in force after binding them in order. -/
theorem binds_bindAll {m : Machine R} {bs : Bindings} (h : (bs.map Prod.fst).Nodup) :
    (m.bindAll bs).Binds bs := by
  induction bs generalizing m with
  | nil => exact fun b hb => absurd hb List.not_mem_nil
  | cons b bs ih =>
    simp only [List.map_cons, List.nodup_cons] at h
    intro c hc
    rcases List.mem_cons.1 hc with rfl | hc
    · rw [bindAll_cons, indices_bindAll_of_notMem h.1]
      simp
    · exact ih h.2 c hc

end Machine

/-- A companion index counts the trips of its loop. -/
def Dimension.CountsTrips (d : Dimension) : Prop :=
  ∃ parent, d.role = .incremented parent (.int 0) (.int 1)

@[simp] theorem Stmt.loops_loop (head : LoopHead) (body : Stmt) :
    (Stmt.loop head body).loops = head :: body.loops := rfl

@[simp] theorem Stmt.loops_assign (target value : Expr) :
    (Stmt.assign target value).loops = [] := rfl

@[simp] theorem Stmt.loops_when (c : Expr) (body : Stmt) :
    (Stmt.when c body).loops = body.loops := rfl

@[simp] theorem Stmt.loops_ifElse (c : Expr) (s t : Stmt) :
    (Stmt.ifElse c s t).loops = s.loops ++ t.loops := by
  have hnodes : (Stmt.ifElse c s t).loops = (s.nodes ++ t.nodes).filterMap loop? := rfl
  rw [hnodes, List.filterMap_append]
  rfl

@[simp] theorem Stmt.loops_block (ss : List Stmt) :
    (Stmt.block ss).loops = ss.flatMap Stmt.loops := by
  have hnodes : (Stmt.block ss).loops = (nodesAll ss).filterMap loop? := rfl
  rw [hnodes]
  induction ss with
  | nil => rfl
  | cons s ss ih =>
    rw [nodesAll, List.filterMap_append, ih rfl]
    rfl

namespace LoopHead

/-- The bindings of a trip of a loop whose companions count the trips. -/
def bindings (h : LoopHead) (index : Int) (trip : Nat) : Bindings :=
  (h.dim.name, Int64.ofInt index) :: h.companions.map fun c => (c.name, Int64.ofInt trip)

/-- The bindings of all trips between two bounds. -/
def trips (h : LoopHead) (lower upper : Int) : List Bindings :=
  (List.range (tripCount lower upper h.bounds.step.toInt)).map fun (k : Nat) =>
    h.bindings (lower + k * h.bounds.step.toInt) k

theorem bindings_names (h : LoopHead) (index : Int) (trip : Nat) :
    (h.bindings index trip).map Prod.fst = h.bound := by
  simp [bindings, bound, Function.comp_def]

end LoopHead

namespace Machine

/-- What binding each of the names keeps, binding them all keeps. -/
theorem bindAll_keeps {P : Machine R → Prop} {bs : Bindings}
    (hP : ∀ name ∈ bs.map Prod.fst, ∀ m i, P m → P (m.bindIndex name i)) {m : Machine R}
    (h : P m) : P (m.bindAll bs) := by
  induction bs generalizing m with
  | nil => exact h
  | cons b bs ih =>
    exact ih (fun name hname => hP name (by simp_all)) (hP b.1 (by simp) m b.2 h)

section Trips
variable [Arithmetic R]

/-- One trip of a loop: its index and its companions are bound, then its body runs. -/
def runTrip (head : LoopHead) (body : Machine R → Outcome R) (index : Int) (trip : Nat)
    (m : Machine R) : Outcome R :=
  (bindCompanions (Int64.ofInt trip) head.companions
    (m.bindIndex head.dim.name (Int64.ofInt index))).andThen body

/-- Trips whose counters stay words run one after the other. -/
theorem runTrips_eq_sequence {head : LoopHead} (body : Machine R → Outcome R) {n trip : Nat}
    {index : Int} (m : Machine R)
    (hindex : ∀ k : Nat, k ≤ n → -2 ^ 63 ≤ index + k * head.bounds.step.toInt ∧
      index + k * head.bounds.step.toInt < 2 ^ 63)
    (htrip : trip + n < 2 ^ 63) :
    runTrips head body n (Int64.ofInt index) (Int64.ofInt trip) m =
      Outcome.sequence (fun (k : Nat) =>
        runTrip head body (index + k * head.bounds.step.toInt) (trip + k)) (List.range n) m := by
  induction n generalizing index trip m with
  | zero => rfl
  | succ n ih =>
    have hfirst := hindex 0 (by omega)
    have hnext := hindex 1 (by omega)
    simp only [Nat.cast_zero, Nat.cast_one, zero_mul, one_mul, add_zero] at hfirst hnext
    have hadd : Word.add (Int64.ofInt index) head.bounds.step =
        .ok (Int64.ofInt (index + head.bounds.step.toInt)) := by
      rw [Word.add, Int64.toInt_ofInt_of_le hfirst.1 hfirst.2, Word.int_eq hnext]
    have hcountUp : Word.add (Int64.ofInt trip) 1 = .ok (Int64.ofInt ((trip + 1 : Nat) : Int)) := by
      rw [Word.add, Int64.toInt_ofInt_of_le (by omega) (by omega), Word.int_eq (by simp; omega)]
      simp
    have hlater (k : Nat) (hk : k ≤ n) :
        -2 ^ 63 ≤ index + head.bounds.step.toInt + k * head.bounds.step.toInt ∧
          index + head.bounds.step.toInt + k * head.bounds.step.toInt < 2 ^ 63 := by
      have hnth := hindex (k + 1) (by omega)
      push_cast at hnth
      rw [add_mul, one_mul] at hnth
      constructor <;> linarith
    have hrest (m' : Machine R) := ih m' hlater (by omega : trip + 1 + n < 2 ^ 63)
    have hshift (k : Nat) : runTrip (R := R) head body
        (index + head.bounds.step.toInt + k * head.bounds.step.toInt) (trip + 1 + k) =
        runTrip head body (index + (k + 1 : Nat) * head.bounds.step.toInt) (trip + (k + 1)) := by
      congr 1
      · push_cast
        ring
      · omega
    rw [runTrips, List.range_succ_eq_map, Outcome.sequence, Outcome.sequence_map]
    simp only [hadd, hcountUp, Outcome.attempt_ok, hrest, hshift]
    simp [runTrip]

end Trips

variable [Arithmetic R] [ExactIntegers R]

theorem companionIndex_eq {d : Dimension} (hd : d.CountsTrips) (m : Machine R) (trip : Int64) :
    m.companionIndex d trip = .ok trip := by
  obtain ⟨parent, hrole⟩ := hd
  have h0 : m.evalIndex (.int 0) = .ok 0 := (Evaluates.int (m := m) (n := 0) (by decide)).evalIndex
  have h1 : m.evalIndex (.int 1) = .ok 1 := (Evaluates.int (m := m) (n := 1) (by decide)).evalIndex
  have hlow := trip.le_toInt
  have hhigh := trip.toInt_lt
  have hword : Word.int trip.toInt = .ok trip := by
    rw [Word.int_eq ⟨hlow, hhigh⟩, Int64.ofInt_toInt]
  simp [companionIndex, hrole, h0, h1, Word.mul, Word.add, hword]

theorem bindCompanions_eq {ds : List Dimension} (hds : ∀ d ∈ ds, d.CountsTrips) (trip : Int64)
    (m : Machine R) :
    bindCompanions trip ds m = .done (m.bindAll (ds.map fun d => (d.name, trip))) := by
  induction ds generalizing m with
  | nil => rfl
  | cons d ds ih =>
    rw [bindCompanions, companionIndex_eq (hds d (by simp))]
    exact ih (fun c hc => hds c (by simp [hc])) _

theorem runTrips_eq {head : LoopHead} (hcount : ∀ d ∈ head.companions, d.CountsTrips)
    (body : Machine R → Outcome R) {n trip : Nat} {index : Int} (m : Machine R)
    (hindex : ∀ k : Nat, k ≤ n → -2 ^ 63 ≤ index + k * head.bounds.step.toInt ∧
      index + k * head.bounds.step.toInt < 2 ^ 63)
    (htrip : trip + n < 2 ^ 63) :
    runTrips head body n (Int64.ofInt index) (Int64.ofInt trip) m =
      Outcome.sequence (fun bs m => body (m.bindAll bs))
        ((List.range n).map fun (k : Nat) =>
          head.bindings (index + k * head.bounds.step.toInt) (trip + k)) m := by
  have hpass (k : Nat) : runTrip head body (index + k * head.bounds.step.toInt) (trip + k) =
      fun m => body (m.bindAll (head.bindings (index + k * head.bounds.step.toInt) (trip + k))) := by
    funext m
    rw [runTrip, bindCompanions_eq hcount]
    rfl
  rw [runTrips_eq_sequence body m hindex htrip, Outcome.sequence_map]
  simp only [hpass]

/-- A loop whose bounds have exact values runs its body for the trips between them. -/
theorem runLoop_eq {head : LoopHead} (hcount : ∀ d ∈ head.companions, d.CountsTrips)
    (hstep : head.bounds.step = 1 ∨ head.bounds.step = -1) (body : Machine R → Outcome R)
    {m : Machine R} {lower upper : Int} (hlower : m.Evaluates head.bounds.lower lower)
    (hupper : m.Evaluates head.bounds.upper upper) :
    runLoop head body m =
      Outcome.sequence (fun bs m => body (m.bindAll bs)) (head.trips lower upper) m := by
  have hl := hlower.bounded
  have hu := hupper.bounded
  have hne : head.bounds.step ≠ 0 := by rcases hstep with h | h <;> simp [h]
  rw [runLoop, hlower.evalIndex, hupper.evalIndex]
  simp only [Outcome.attempt_ok, if_neg hne, toInt_ofInt hl, toInt_ofInt hu]
  have hcountBound : tripCount lower upper head.bounds.step.toInt ≤ 2 ^ 54 := by
    rcases hstep with h | h <;> simp [h, tripCount] <;> omega
  rw [show (0 : Int64) = Int64.ofInt (0 : Nat) from rfl, runTrips_eq hcount body m _ (by omega)]
  · simp [LoopHead.trips]
  · intro k hk
    rcases hstep with h | h <;> simp [h] <;> omega

end Machine

end GridKernel
