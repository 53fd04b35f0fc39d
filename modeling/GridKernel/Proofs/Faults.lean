import GridKernel.Proofs.Frames
import GridKernel.Proofs.Uses

/-! Where a run stops. From a machine a statement reaches statements inside it, each in the machine
that it starts in; a run stops with a fault exactly where a statement that it reaches has that fault
in a step of its own. -/
namespace GridKernel

namespace Outcome

variable {R : Type} {α : Type} {e : Fault}

theorem eq_done {o : Outcome R} {m : Machine R} : o = done m ↔ o.fault? = none ∧ o.machine = m := by
  obtain ⟨m', fault?⟩ := o
  simp [done, and_comm]

/-- An outcome stops, or goes on and stops later. -/
theorem andThen_stops {o : Outcome R} {f : Machine R → Outcome R} :
    (o.andThen f).fault? = some e ↔
      o.fault? = some e ∨ ∃ m, o = done m ∧ (f m).fault? = some e := by
  obtain ⟨m, fault?⟩ := o
  cases fault? with
  | none => simp [andThen, done]
  | some e' => simp [andThen, done]

theorem attempt_stops {m : Machine R} {value : Result α} {f : α → Outcome R} :
    (attempt m value f).fault? = some e ↔
      value = .error e ∨ ∃ x, value = .ok x ∧ (f x).fault? = some e := by
  cases value <;> simp

theorem andThen_done {o : Outcome R} {f : Machine R → Outcome R} {m : Machine R} :
    o.andThen f = done m ↔ ∃ m', o = done m' ∧ f m' = done m := by
  obtain ⟨m', fault?⟩ := o
  cases fault? <;> simp [andThen, done]

end Outcome

namespace Machine

variable {R : Type} [Arithmetic R] {e : Fault}

/-- The counters of a loop and the machine before a trip. -/
structure TripState (R : Type) where
  index : Int64
  trip : Int64
  machine : Machine R

/-- Binds the indices of a trip. -/
def TripState.enter (σ : TripState R) (head : LoopHead) : Outcome R :=
  bindCompanions σ.trip head.companions (σ.machine.bindIndex head.dim.name σ.index)

/-- One trip of a loop: the body ends and both counters advance. -/
structure Advances (head : LoopHead) (body : Machine R → Outcome R) (σ τ : TripState R) : Prop where
  body : (σ.enter head).andThen body = .done τ.machine
  index : Word.add σ.index head.bounds.step = .ok τ.index
  trip : Word.add σ.trip 1 = .ok τ.trip

/-- A number of trips of a loop, one after the other. -/
inductive Trips (head : LoopHead) (body : Machine R → Outcome R) :
    Nat → TripState R → TripState R → Prop where
  | zero (σ : TripState R) : Trips head body 0 σ σ
  | succ {k : Nat} {σ τ υ : TripState R} (first : Advances head body σ τ)
      (rest : Trips head body k τ υ) : Trips head body (k + 1) σ υ

/-- The faults of a trip outside its body: of its companion indices and of the counters. -/
def TripStops (e : Fault) (head : LoopHead) (body : Machine R → Outcome R) (σ : TripState R) :
    Prop :=
  (σ.enter head).fault? = some e ∨
    ∃ m, (σ.enter head).andThen body = .done m ∧ (Word.add σ.index head.bounds.step = .error e ∨
      ∃ i, Word.add σ.index head.bounds.step = .ok i ∧ Word.add σ.trip 1 = .error e)

theorem runTrips_stops {head : LoopHead} {body : Machine R → Outcome R} {n : Nat}
    (σ : TripState R) :
    (runTrips head body n σ.index σ.trip σ.machine).fault? = some e ↔
      ∃ k τ, k < n ∧ Trips head body k σ τ ∧ (TripStops e head body τ ∨
        ∃ m, τ.enter head = .done m ∧ (body m).fault? = some e) := by
  induction n generalizing σ with
  | zero => simp [runTrips]
  | succ n ih =>
    rw [runTrips, Outcome.andThen_stops]
    simp only [Outcome.attempt_stops, Outcome.andThen_stops]
    constructor
    · rintro (((h | h) | ⟨m, hm, h | ⟨i, hi, h | ⟨t, ht, h⟩⟩⟩))
      · exact ⟨0, σ, by omega, .zero σ, .inl (.inl h)⟩
      · exact ⟨0, σ, by omega, .zero σ, .inr h⟩
      · exact ⟨0, σ, by omega, .zero σ, .inl (.inr ⟨m, hm, .inl h⟩)⟩
      · exact ⟨0, σ, by omega, .zero σ, .inl (.inr ⟨m, hm, .inr ⟨i, hi, h⟩⟩)⟩
      · obtain ⟨k, τ, hk, hτ, h⟩ := (ih ⟨i, t, m⟩).1 h
        have hfirst : Advances head body σ ⟨i, t, m⟩ := ⟨hm, hi, ht⟩
        exact ⟨k + 1, τ, by omega, .succ hfirst hτ, h⟩
    · rintro ⟨k, τ, hk, hτ, h⟩
      cases hτ with
      | zero =>
        rcases h with (h | ⟨m, hm, h | ⟨i, hi, h⟩⟩) | h
        · exact .inl (.inl h)
        · exact .inr ⟨m, hm, .inl h⟩
        · exact .inr ⟨m, hm, .inr ⟨i, hi, .inl h⟩⟩
        · exact .inl (.inr h)
      | @succ k _ υ _ first rest =>
        have hrest := (ih υ).2 ⟨k, τ, by omega, rest, h⟩
        exact .inr ⟨υ.machine, first.body, .inr ⟨υ.index, first.index, .inr ⟨υ.trip, first.trip,
          hrest⟩⟩⟩

theorem enter_keeps {P : Machine R → Prop} {head : LoopHead} {σ : TripState R}
    (hP : ∀ name ∈ head.bound, ∀ m i, P m → P (m.bindIndex name i)) (h : P σ.machine) :
    P (σ.enter head).machine :=
  bindCompanions_keeps (fun name hname => hP name (List.mem_cons_of_mem _ hname))
    (hP _ List.mem_cons_self _ _ h)

/-- A loop is entered: its bounds are words and its step is not zero. -/
structure Starts (head : LoopHead) (m : Machine R) (lower upper : Int64) : Prop where
  lower : m.evalIndex head.bounds.lower = .ok lower
  upper : m.evalIndex head.bounds.upper = .ok upper
  step : head.bounds.step ≠ 0

/-- From a machine a statement reaches a statement inside it, or itself, in another machine. -/
inductive Reaches : Stmt → Machine R → Stmt → Machine R → Prop where
  | here (s : Stmt) (m : Machine R) : Reaches s m s m
  /-- The body of a loop on one of its trips. -/
  | loop {head : LoopHead} {body t : Stmt} {m m' m'' : Machine R} {lower upper : Int64} {k : Nat}
      {σ : TripState R} (starts : Starts head m lower upper)
      (count : k < tripCount lower.toInt upper.toInt head.bounds.step.toInt)
      (trips : Trips head (run body) k ⟨lower, 0, m⟩ σ) (enter : σ.enter head = .done m')
      (inside : Reaches body m' t m'') : Reaches (.loop head body) m t m''
  | when {c : Expr} {body t : Stmt} {m m' : Machine R} {x : R} (condition : m.eval c = .ok x)
      (holds : Arithmetic.isTrue x) (inside : Reaches body m t m') : Reaches (.when c body) m t m'
  | thenBody {c : Expr} {thenBody elseBody t : Stmt} {m m' : Machine R} {x : R}
      (condition : m.eval c = .ok x) (holds : Arithmetic.isTrue x)
      (inside : Reaches thenBody m t m') : Reaches (.ifElse c thenBody elseBody) m t m'
  | elseBody {c : Expr} {thenBody elseBody t : Stmt} {m m' : Machine R} {x : R}
      (condition : m.eval c = .ok x) (fails : ¬ Arithmetic.isTrue x)
      (inside : Reaches elseBody m t m') : Reaches (.ifElse c thenBody elseBody) m t m'
  /-- An entry of a list once all earlier ones have ended. -/
  | block {before after : List Stmt} {s t : Stmt} {m m' m'' : Machine R}
      (earlier : runAll before m = .done m') (inside : Reaches s m' t m'') :
      Reaches (.block (before ++ s :: after)) m t m''
  | kernel {signature : Signature} {body t : Stmt} {m m' : Machine R}
      (inside : Reaches body m t m') : Reaches (.kernel signature body) m t m'

theorem Trips.keeps {P : Machine R → Prop} {head : LoopHead} {body : Machine R → Outcome R}
    (hP : ∀ name ∈ head.bound, ∀ m i, P m → P (m.bindIndex name i))
    (hbody : ∀ m, P m → P (body m).machine) {k : Nat} {σ τ : TripState R}
    (h : Trips head body k σ τ) (hσ : P σ.machine) : P τ.machine := by
  induction h with
  | zero σ => exact hσ
  | @succ k σ τ υ first rest ih =>
    have hτ : P ((σ.enter head).andThen body).machine :=
      Outcome.andThen_machine (enter_keeps hP hσ) hbody
    rw [first.body] at hτ
    exact ih hτ

/-- What every step of a statement keeps, holds in every machine that it reaches. -/
theorem Reaches.keeps {P : Machine R → Prop} {s t : Stmt} {m m' : Machine R}
    (h : Reaches s m t m') (hs : ∀ x ∈ s.nodes, StepKeeps P x) (hm : P m) : P m' := by
  induction h with
  | here s m => exact hm
  | @loop head body t m m' m'' lower upper k σ starts count trips enter inside ih =>
    have hhead : StepKeeps P (.loop head body) := hs _ (by simp [Stmt.nodes])
    have hbody : ∀ x ∈ body.nodes, StepKeeps P x := fun x hx => hs x (by simp [Stmt.nodes, hx])
    have hσ := trips.keeps hhead (run_keeps body hbody) hm
    have henter := enter_keeps hhead hσ
    rw [enter] at henter
    exact ih hbody henter
  | when condition holds inside ih => exact ih (fun x hx => hs x (by simp [Stmt.nodes, hx])) hm
  | thenBody condition holds inside ih => exact ih (fun x hx => hs x (by simp [Stmt.nodes, hx])) hm
  | elseBody condition fails inside ih => exact ih (fun x hx => hs x (by simp [Stmt.nodes, hx])) hm
  | @block before after s t m m' m'' earlier inside ih =>
    have hentry : ∀ x ∈ s.nodes, StepKeeps P x := fun x hx =>
      hs x (List.mem_cons_of_mem _ (Stmt.mem_nodesAll.2 ⟨s, by simp, hx⟩))
    have hbefore : ∀ x ∈ Stmt.nodesAll before, StepKeeps P x := by
      intro x hx
      obtain ⟨s', hs', hx⟩ := Stmt.mem_nodesAll.1 hx
      exact hs x (List.mem_cons_of_mem _ (Stmt.mem_nodesAll.2 ⟨s', by simp [hs'], hx⟩))
    have hm' := runAll_keeps before hbefore m hm
    rw [earlier] at hm'
    exact ih hentry hm'
  | kernel inside ih => exact ih (fun x hx => hs x (by simp [Stmt.nodes, hx])) hm

/-- The faults of the steps that a statement takes itself, outside the statements inside it. -/
def StepStops (e : Fault) : Stmt → Machine R → Prop
  | .assign target value, m =>
    m.eval value = .error e ∨ ∃ x, m.eval value = .ok x ∧ m.store target x = .error e
  | .loop head body, m =>
    m.evalIndex head.bounds.lower = .error e ∨
      ∃ lower, m.evalIndex head.bounds.lower = .ok lower ∧
        (m.evalIndex head.bounds.upper = .error e ∨
          ∃ upper, m.evalIndex head.bounds.upper = .ok upper ∧
            (head.bounds.step = 0 ∧ e = .cause (.zeroStep head.dim.name) ∨
              ∃ k σ, head.bounds.step ≠ 0 ∧
                k < tripCount lower.toInt upper.toInt head.bounds.step.toInt ∧
                Trips head (run body) k ⟨lower, 0, m⟩ σ ∧ TripStops e head (run body) σ))
  | .when c _, m => m.eval c = .error e
  | .ifElse c _ _, m => m.eval c = .error e
  | .view a, m => m.checkView a = .error e
  | _, _ => False

theorem runAll_stops {ss : List Stmt} {m : Machine R} :
    (runAll ss m).fault? = some e ↔ ∃ before s after m', ss = before ++ s :: after ∧
      runAll before m = .done m' ∧ (run s m').fault? = some e := by
  induction ss generalizing m with
  | nil => simp [runAll]
  | cons s ss ih =>
    rw [runAll, Outcome.andThen_stops]
    constructor
    · rintro (h | ⟨m', hm', h⟩)
      · exact ⟨[], s, ss, m, rfl, rfl, h⟩
      · obtain ⟨before, t, after, m'', rfl, hbefore, h⟩ := ih.1 h
        exact ⟨s :: before, t, after, m'', rfl, by rw [runAll, hm']; exact hbefore, h⟩
    · rintro ⟨before, t, after, m', heq, hbefore, h⟩
      rcases List.cons_eq_append_iff.1 heq with ⟨rfl, heq⟩ | ⟨before, rfl, rfl⟩
      · obtain ⟨rfl, rfl⟩ := List.cons.inj heq
        obtain ⟨-, rfl⟩ := Outcome.eq_done.1 hbefore
        exact .inl h
      · rw [runAll] at hbefore
        obtain ⟨m'', hm'', hbefore⟩ := Outcome.andThen_done.1 hbefore
        exact .inr ⟨m'', hm'', ih.2 ⟨before, t, after, m', rfl, hbefore, h⟩⟩

theorem runLoop_stops {head : LoopHead} {body : Stmt} {m : Machine R}
    (hbody : ∀ m : Machine R, (run body m).fault? = some e ↔
      ∃ t m', Reaches body m t m' ∧ StepStops e t m') :
    (runLoop head (run body) m).fault? = some e ↔
      ∃ t m', Reaches (.loop head body) m t m' ∧ StepStops e t m' := by
  rw [runLoop]
  simp only [Outcome.attempt_stops]
  constructor
  · rintro (h | ⟨lower, hlower, h | ⟨upper, hupper, h⟩⟩)
    · exact ⟨_, _, .here _ _, .inl h⟩
    · exact ⟨_, _, .here _ _, .inr ⟨lower, hlower, .inl h⟩⟩
    · split at h
      · rename_i hstep
        exact ⟨_, _, .here _ _, .inr ⟨lower, hlower, .inr ⟨upper, hupper,
          .inl ⟨hstep, (Option.some.inj h).symm⟩⟩⟩⟩
      · rename_i hstep
        obtain ⟨k, σ, hk, hσ, h | ⟨m', hm', h⟩⟩ := (runTrips_stops ⟨lower, 0, m⟩).1 h
        · exact ⟨_, _, .here _ _, .inr ⟨lower, hlower, .inr ⟨upper, hupper,
            .inr ⟨k, σ, hstep, hk, hσ, h⟩⟩⟩⟩
        · obtain ⟨t, m'', ht, h⟩ := (hbody m').1 h
          exact ⟨t, m'', .loop ⟨hlower, hupper, hstep⟩ hk hσ hm' ht, h⟩
  · rintro ⟨t, m', ht, h⟩
    cases ht with
    | here =>
      rcases h with h | ⟨lower, hlower, h | ⟨upper, hupper, ⟨hstep, rfl⟩ | ⟨k, σ, hstep, hk, hσ, h⟩⟩⟩
      · exact .inl h
      · exact .inr ⟨lower, hlower, .inl h⟩
      · exact .inr ⟨lower, hlower, .inr ⟨upper, hupper, by rw [if_pos hstep]⟩⟩
      · refine .inr ⟨lower, hlower, .inr ⟨upper, hupper, ?_⟩⟩
        rw [if_neg hstep]
        exact (runTrips_stops ⟨lower, 0, m⟩).2 ⟨k, σ, hk, hσ, .inl h⟩
    | @loop _ _ _ _ m₁ _ lower upper k σ starts hk hσ hm' inside =>
      refine .inr ⟨lower, starts.lower, .inr ⟨upper, starts.upper, ?_⟩⟩
      rw [if_neg starts.step]
      have hstops := (hbody m₁).2 ⟨t, m', inside, h⟩
      exact (runTrips_stops ⟨lower, 0, m⟩).2 ⟨k, σ, hk, hσ, .inr ⟨m₁, hm', hstops⟩⟩

/-- A statement that reaches only itself stops where it stops in its own step. -/
theorem leaf_stops {s : Stmt} {m : Machine R}
    (hleaf : ∀ t m', Reaches s m t m' → t = s ∧ m' = m)
    (hstep : (run s m).fault? = some e ↔ StepStops e s m) :
    (run s m).fault? = some e ↔ ∃ t m', Reaches s m t m' ∧ StepStops e t m' := by
  rw [hstep]
  constructor
  · exact fun h => ⟨s, m, .here s m, h⟩
  · rintro ⟨t, m', ht, h⟩
    obtain ⟨rfl, rfl⟩ := hleaf t m' ht
    exact h

theorem when_stops {c : Expr} {body : Stmt} {m : Machine R}
    (hbody : (run body m).fault? = some e ↔ ∃ t m', Reaches body m t m' ∧ StepStops e t m') :
    (run (.when c body) m).fault? = some e ↔
      ∃ t m', Reaches (.when c body) m t m' ∧ StepStops e t m' := by
  rw [run, Outcome.attempt_stops]
  constructor
  · rintro (h | ⟨x, hx, h⟩)
    · exact ⟨_, _, .here _ _, h⟩
    · split at h
      · rename_i holds
        obtain ⟨t, m', ht, h⟩ := hbody.1 h
        exact ⟨t, m', .when hx holds ht, h⟩
      · cases h
  · rintro ⟨t, m', ht, h⟩
    cases ht with
    | here => exact .inl h
    | @when _ _ _ _ _ x hx holds inside =>
      refine .inr ⟨x, hx, ?_⟩
      rw [if_pos holds]
      exact hbody.2 ⟨t, m', inside, h⟩

theorem ifElse_stops {c : Expr} {thenBody elseBody : Stmt} {m : Machine R}
    (hthen : (run thenBody m).fault? = some e ↔
      ∃ t m', Reaches thenBody m t m' ∧ StepStops e t m')
    (helse : (run elseBody m).fault? = some e ↔
      ∃ t m', Reaches elseBody m t m' ∧ StepStops e t m') :
    (run (.ifElse c thenBody elseBody) m).fault? = some e ↔
      ∃ t m', Reaches (.ifElse c thenBody elseBody) m t m' ∧ StepStops e t m' := by
  rw [run, Outcome.attempt_stops]
  constructor
  · rintro (h | ⟨x, hx, h⟩)
    · exact ⟨_, _, .here _ _, h⟩
    · split at h
      · rename_i holds
        obtain ⟨t, m', ht, h⟩ := hthen.1 h
        exact ⟨t, m', .thenBody hx holds ht, h⟩
      · rename_i fails
        obtain ⟨t, m', ht, h⟩ := helse.1 h
        exact ⟨t, m', .elseBody hx fails ht, h⟩
  · rintro ⟨t, m', ht, h⟩
    cases ht with
    | here => exact .inl h
    | @thenBody _ _ _ _ _ _ x hx holds inside =>
      refine .inr ⟨x, hx, ?_⟩
      rw [if_pos holds]
      exact hthen.2 ⟨t, m', inside, h⟩
    | @elseBody _ _ _ _ _ _ x hx fails inside =>
      refine .inr ⟨x, hx, ?_⟩
      rw [if_neg fails]
      exact helse.2 ⟨t, m', inside, h⟩

theorem block_stops {ss : List Stmt} {m : Machine R}
    (hentry : ∀ s ∈ ss, ∀ m : Machine R, (run s m).fault? = some e ↔
      ∃ t m', Reaches s m t m' ∧ StepStops e t m') :
    (run (.block ss) m).fault? = some e ↔
      ∃ t m', Reaches (.block ss) m t m' ∧ StepStops e t m' := by
  rw [run, runAll_stops]
  constructor
  · rintro ⟨before, s, after, m', rfl, hbefore, h⟩
    obtain ⟨t, m'', ht, h⟩ := (hentry s (by simp) m').1 h
    exact ⟨t, m'', .block hbefore ht, h⟩
  · rintro ⟨t, m', ht, h⟩
    cases ht with
    | here => cases h
    | @block before after s _ _ m'' _ earlier inside =>
      have hstops := (hentry s (by simp) m'').2 ⟨t, m', inside, h⟩
      exact ⟨before, s, after, m'', rfl, earlier, hstops⟩

theorem kernel_stops {signature : Signature} {body : Stmt} {m : Machine R}
    (hbody : (run body m).fault? = some e ↔ ∃ t m', Reaches body m t m' ∧ StepStops e t m') :
    (run (.kernel signature body) m).fault? = some e ↔
      ∃ t m', Reaches (.kernel signature body) m t m' ∧ StepStops e t m' := by
  rw [run, hbody]
  constructor
  · rintro ⟨t, m', ht, h⟩
    exact ⟨t, m', .kernel ht, h⟩
  · rintro ⟨t, m', ht, h⟩
    cases ht with
    | here => cases h
    | kernel inside => exact ⟨t, m', inside, h⟩

mutual

/-- **A run stops with a fault exactly where a statement that it reaches has that fault itself.** -/
theorem run_stops : (s : Stmt) → ∀ m : Machine R, (run s m).fault? = some e ↔
    ∃ t m', Reaches s m t m' ∧ StepStops e t m'
  | .assign target value, m =>
    leaf_stops (fun _ _ h => by cases h; exact ⟨rfl, rfl⟩)
      (by simp [run, StepStops, Outcome.attempt_stops])
  | .loop head body, m => runLoop_stops (run_stops body)
  | .when c body, m => when_stops (run_stops body m)
  | .ifElse c thenBody elseBody, m =>
    ifElse_stops (run_stops thenBody m) (run_stops elseBody m)
  | .block ss, m => block_stops (run_stops_of_mem ss)
  | .view a, m =>
    leaf_stops (fun _ _ h => by cases h; exact ⟨rfl, rfl⟩)
      (by simp [run, StepStops, Outcome.attempt_stops])
  | .declare s, m =>
    leaf_stops (fun _ _ h => by cases h; exact ⟨rfl, rfl⟩) (by simp [run, StepStops])
  | .kernel signature body, m => kernel_stops (run_stops body m)
termination_by structural s => s

theorem run_stops_of_mem : (ss : List Stmt) → ∀ s ∈ ss, ∀ m : Machine R,
    ((run s m).fault? = some e ↔ ∃ t m', Reaches s m t m' ∧ StepStops e t m')
  | [], s, hs, m => absurd hs List.not_mem_nil
  | s :: ss, t, ht, m => by
    rcases List.mem_cons.1 ht with heq | ht
    · rw [heq]
      exact run_stops s m
    · exact run_stops_of_mem ss t ht m
termination_by structural ss => ss

end

end Machine

end GridKernel
