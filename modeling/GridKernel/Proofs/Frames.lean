import GridKernel.Proofs.Results
import GridKernel.Machine.Run

/-! What a run can change. Every step of a run binds an index of a loop, stores to the target of an
assignment or declares a scalar; whatever these steps keep, the run keeps, also when it stops. -/
namespace GridKernel

namespace Outcome

variable {R : Type}

@[simp] theorem done_machine (m : Machine R) : (done m).machine = m := rfl

@[simp] theorem done_fault? (m : Machine R) : (done m).fault? = none := rfl

@[simp] theorem done_andThen (m : Machine R) (f : Machine R → Outcome R) :
    (done m).andThen f = f m := rfl

@[simp] theorem attempt_ok {α : Type} (m : Machine R) (x : α) (f : α → Outcome R) :
    attempt m (.ok x) f = f x := rfl

@[simp] theorem attempt_error {α : Type} (m : Machine R) (e : Fault) (f : α → Outcome R) :
    attempt m (.error e) f = ⟨m, some e⟩ := rfl

/-- A property of machines that an outcome has whether or not it stopped. -/
theorem andThen_machine {P : Machine R → Prop} {o : Outcome R} {f : Machine R → Outcome R}
    (h : P o.machine) (hf : ∀ m, P m → P (f m).machine) : P (o.andThen f).machine := by
  unfold andThen
  split
  · exact hf _ h
  · exact h

theorem andThen_of_none {o : Outcome R} {f : Machine R → Outcome R} (h : o.fault? = none) :
    o.andThen f = f o.machine := by
  rw [andThen, h]

theorem andThen_assoc (o : Outcome R) (f g : Machine R → Outcome R) :
    (o.andThen f).andThen g = o.andThen fun m => (f m).andThen g := by
  cases hnone : o.fault? with
  | none => rw [andThen_of_none hnone, andThen_of_none hnone]
  | some e => simp only [andThen, hnone]

theorem andThen_fault? {o : Outcome R} {f : Machine R → Outcome R} :
    (o.andThen f).fault? = none ↔ o.fault? = none ∧ (f o.machine).fault? = none := by
  unfold andThen
  split <;> simp_all

theorem attempt_machine {α : Type} {P : Machine R → Prop} {m : Machine R} {value : Result α}
    {f : α → Outcome R} (h : P m) (hf : ∀ x, value = .ok x → P (f x).machine) :
    P (attempt m value f).machine := by
  cases value with
  | error e => exact h
  | ok x => exact hf x rfl

/-- An attempt that does not stop goes on with a value. -/
theorem exists_attempt {α : Type} {m : Machine R} {value : Result α} {f : α → Outcome R}
    (h : (attempt m value f).fault? = none) :
    ∃ x, value = .ok x ∧ attempt m value f = f x := by
  cases value with
  | error e => cases h
  | ok x => exact ⟨x, rfl, rfl⟩

end Outcome

/-- The names that a loop binds on every trip. -/
def LoopHead.bound (h : LoopHead) : List String := h.dim.name :: h.companions.map Dimension.name

namespace Machine

variable {R : Type} [Arithmetic R]

/-- The step that a statement itself takes keeps a property. -/
def StepKeeps (P : Machine R → Prop) : Stmt → Prop
  | .assign target _ => ∀ m x m', P m → m.store target x = .ok m' → P m'
  | .loop head _ => ∀ name ∈ head.bound, ∀ m i, P m → P (m.bindIndex name i)
  | .declare s => ∀ m, P m → P (m.bindScalar s.name Arithmetic.zero)
  | _ => True

theorem bindCompanions_keeps {P : Machine R → Prop} {trip : Int64} {ds : List Dimension}
    (hP : ∀ name ∈ ds.map Dimension.name, ∀ m i, P m → P (m.bindIndex name i)) {m : Machine R}
    (h : P m) : P (bindCompanions trip ds m).machine := by
  induction ds generalizing m with
  | nil => exact h
  | cons d ds ih =>
    refine Outcome.attempt_machine h fun i _ => ?_
    exact ih (fun name hn => hP name (by simp_all)) (hP d.name (by simp) m i h)

theorem runTrips_keeps {P : Machine R → Prop} {head : LoopHead} {body : Machine R → Outcome R}
    (hP : ∀ name ∈ head.bound, ∀ m i, P m → P (m.bindIndex name i))
    (hbody : ∀ m, P m → P (body m).machine) {n : Nat} {index trip : Int64} {m : Machine R}
    (h : P m) : P (runTrips head body n index trip m).machine := by
  induction n generalizing index trip m with
  | zero => exact h
  | succ n ih =>
    have henter : P (m.bindIndex head.dim.name index) := hP _ (by simp [LoopHead.bound]) _ _ h
    have hcompanions : P (bindCompanions trip head.companions
        (m.bindIndex head.dim.name index)).machine :=
      bindCompanions_keeps (fun name hn => hP name (by simp [LoopHead.bound, hn])) henter
    refine Outcome.andThen_machine (Outcome.andThen_machine hcompanions hbody) fun m hm => ?_
    refine Outcome.attempt_machine hm fun index _ => ?_
    exact Outcome.attempt_machine hm fun trip _ => ih hm

theorem runLoop_keeps {P : Machine R → Prop} {head : LoopHead} {body : Machine R → Outcome R}
    (hP : ∀ name ∈ head.bound, ∀ m i, P m → P (m.bindIndex name i))
    (hbody : ∀ m, P m → P (body m).machine) {m : Machine R} (h : P m) :
    P (runLoop head body m).machine := by
  refine Outcome.attempt_machine h fun lower _ => Outcome.attempt_machine h fun upper _ => ?_
  split
  · exact h
  · exact runTrips_keeps hP hbody h

theorem runAll_append (ss ts : List Stmt) (m : Machine R) :
    runAll (ss ++ ts) m = (runAll ss m).andThen (runAll ts) := by
  induction ss generalizing m with
  | nil => rfl
  | cons s ss ih =>
    have hrest : runAll (ss ++ ts) = fun m => (runAll ss m).andThen (runAll ts) := funext ih
    rw [List.cons_append, runAll, runAll, hrest, Outcome.andThen_assoc]

mutual

/-- What every step of a statement keeps, its run keeps. -/
theorem run_keeps {P : Machine R → Prop} : (s : Stmt) → (∀ x ∈ s.nodes, StepKeeps P x) →
    ∀ m, P m → P (run s m).machine
  | .assign target value, h, m, hm => by
    have hstore : StepKeeps P (.assign target value) := h _ (by simp [Stmt.nodes])
    refine Outcome.attempt_machine hm fun x _ => Outcome.attempt_machine hm fun m' hm' => ?_
    exact hstore m x m' hm hm'
  | .loop head body, h, m, hm => by
    have hhead : StepKeeps P (.loop head body) := h _ (by simp [Stmt.nodes])
    exact runLoop_keeps hhead (run_keeps body fun x hx => h x (by simp [Stmt.nodes, hx])) hm
  | .when c body, h, m, hm => by
    refine Outcome.attempt_machine hm fun x _ => ?_
    split
    · exact run_keeps body (fun x hx => h x (by simp [Stmt.nodes, hx])) m hm
    · exact hm
  | .ifElse c t e, h, m, hm => by
    refine Outcome.attempt_machine hm fun x _ => ?_
    split
    · exact run_keeps t (fun x hx => h x (by simp [Stmt.nodes, hx])) m hm
    · exact run_keeps e (fun x hx => h x (by simp [Stmt.nodes, hx])) m hm
  | .block body, h, m, hm => by
    exact runAll_keeps body (fun x hx => h x (by simp [Stmt.nodes, hx])) m hm
  | .view a, _, m, hm => by exact Outcome.attempt_machine hm fun _ _ => hm
  | .declare s, h, m, hm => by
    have hs : StepKeeps P (.declare s) := h _ (by simp [Stmt.nodes])
    exact hs m hm
  | .kernel _ body, h, m, hm => by
    exact run_keeps body (fun x hx => h x (by simp [Stmt.nodes, hx])) m hm
termination_by structural s => s

theorem runAll_keeps {P : Machine R → Prop} : (ss : List Stmt) →
    (∀ x ∈ Stmt.nodesAll ss, StepKeeps P x) → ∀ m, P m → P (runAll ss m).machine
  | [], _, m, hm => hm
  | s :: ss, h, m, hm => by
    refine Outcome.andThen_machine ?_ fun m hm => ?_
    · exact run_keeps s (fun x hx => h x (by simp [Stmt.nodesAll, hx])) m hm
    · exact runAll_keeps ss (fun x hx => h x (by simp [Stmt.nodesAll, hx])) m hm
termination_by structural ss => ss

end

section Bindings
omit [Arithmetic R]
variable (m : Machine R) (name key : String)

@[simp] theorem arrays_bindArray (b : Buffer R) :
    (m.bindArray name b).arrays[key]? = if name = key then some b else m.arrays[key]? := by
  simp [bindArray, Std.TreeMap.getElem?_insert]

@[simp] theorem scalars_bindScalar (x : R) :
    (m.bindScalar name x).scalars[key]? = if name = key then some x else m.scalars[key]? := by
  simp [bindScalar, Std.TreeMap.getElem?_insert]

@[simp] theorem indices_bindIndex (i : Int64) :
    (m.bindIndex name i).indices[key]? = if name = key then some i else m.indices[key]? := by
  simp [bindIndex, Std.TreeMap.getElem?_insert]

@[simp] theorem arrays_bindScalar (x : R) : (m.bindScalar name x).arrays = m.arrays := rfl
@[simp] theorem arrays_bindIndex (i : Int64) : (m.bindIndex name i).arrays = m.arrays := rfl
@[simp] theorem scalars_bindArray (b : Buffer R) : (m.bindArray name b).scalars = m.scalars := rfl
@[simp] theorem scalars_bindIndex (i : Int64) : (m.bindIndex name i).scalars = m.scalars := rfl
@[simp] theorem sizes_bindArray (b : Buffer R) : (m.bindArray name b).sizes = m.sizes := rfl
@[simp] theorem sizes_bindScalar (x : R) : (m.bindScalar name x).sizes = m.sizes := rfl
@[simp] theorem sizes_bindIndex (i : Int64) : (m.bindIndex name i).sizes = m.sizes := rfl
@[simp] theorem indices_bindArray (b : Buffer R) : (m.bindArray name b).indices = m.indices := rfl
@[simp] theorem indices_bindScalar (x : R) : (m.bindScalar name x).indices = m.indices := rfl

theorem bound_eq_ok {α : Type} {value? : Option α} {c : Cause} {x : α} :
    bound value? c = .ok x ↔ value? = some x := by
  cases value? <;> simp [bound]

theorem array_eq_ok {b : Buffer R} : m.array name = .ok b ↔ m.arrays[name]? = some b :=
  bound_eq_ok

end Bindings

theorem store_access_eq_ok {m m' : Machine R} {a : GridArray} {es : List Expr} {x : R} :
    m.store (.access a es) x = .ok m' ↔ ∃ is b c, m.evalIndices es = .ok is ∧
      m.arrays[a.name]? = some b ∧ b.set? is x = some c ∧ m' = m.bindArray a.name c := by
  simp only [store, bind_eq_ok, array_eq_ok, bound_eq_ok, pure_eq_ok]
  constructor
  · rintro ⟨is, his, b, hb, c, hc, h⟩
    exact ⟨is, b, c, his, hb, hc, (Except.ok.inj h).symm⟩
  · rintro ⟨is, b, c, his, hb, hc, rfl⟩
    exact ⟨is, his, b, hb, c, hc, rfl⟩

/-- A store puts a value into a cell of one array or into one scalar. -/
theorem store_cases {m m' : Machine R} {target : Expr} {x : R} (h : m.store target x = .ok m') :
    (∃ a es is b c, target = .access a es ∧ m.evalIndices es = .ok is ∧
      m.arrays[a.name]? = some b ∧ b.set? is x = some c ∧ m' = m.bindArray a.name c) ∨
    ∃ s, target = .scalar s ∧ m' = m.bindScalar s.name x := by
  cases target with
  | access a es =>
    obtain ⟨is, b, c, h⟩ := store_access_eq_ok.1 h
    exact .inl ⟨a, es, is, b, c, rfl, h⟩
  | scalar s =>
    injection h with h
    exact .inr ⟨s, rfl, h.symm⟩
  | _ => cases h

/-- A run binds no index but those of the loops in the statement. -/
theorem run_indices {s : Stmt} {name : String} (hname : ∀ head ∈ s.loops, name ∉ head.bound)
    (m : Machine R) : (run s m).machine.indices[name]? = m.indices[name]? := by
  refine run_keeps (P := fun m' => m'.indices[name]? = m.indices[name]?) s (fun x hx => ?_) m rfl
  cases x with
  | assign target value =>
    intro m₁ x m₂ h₁ hstore
    rcases store_cases hstore with ⟨a, es, is, b, c, -, -, -, -, rfl⟩ | ⟨s, -, rfl⟩ <;> exact h₁
  | loop head body =>
    intro key hkey m₁ i h₁
    have hne : key ≠ name := by
      rintro rfl
      exact hname head (List.mem_filterMap.2 ⟨_, hx, rfl⟩) hkey
    simpa [hne] using h₁
  | declare s => exact fun m h => h
  | _ => trivial

/-- Without loops a run keeps all indices. -/
theorem run_indices_of_flat {s : Stmt} (hloops : s.loops = []) (m : Machine R) :
    (run s m).machine.indices = m.indices := by
  refine run_keeps (P := fun m' => m'.indices = m.indices) s (fun x hx => ?_) m rfl
  cases x with
  | assign target value =>
    intro m₁ x m₂ h₁ hstore
    rcases store_cases hstore with ⟨a, es, is, b, c, -, -, -, -, rfl⟩ | ⟨s, -, rfl⟩ <;> exact h₁
  | loop head body =>
    have hloop : head ∈ s.loops := List.mem_filterMap.2 ⟨_, hx, rfl⟩
    rw [hloops] at hloop
    cases hloop
  | declare s => exact fun m h => h
  | _ => trivial

/-- The name of the scalar that a statement itself sets. -/
def setScalar? : Stmt → Option String
  | .assign (.scalar s) _ => some s.name
  | .declare s => some s.name
  | _ => none

/-- A run sets no scalar but those that the statement assigns or declares. -/
theorem run_scalars {s : Stmt} {name : String} (hname : ∀ x ∈ s.nodes, setScalar? x ≠ some name)
    (m : Machine R) : (run s m).machine.scalars[name]? = m.scalars[name]? := by
  refine run_keeps (P := fun m' => m'.scalars[name]? = m.scalars[name]?) s (fun x hx => ?_) m rfl
  cases x with
  | assign target value =>
    intro m₁ x m₂ h₁ hstore
    rcases store_cases hstore with ⟨a, es, is, b, c, rfl, -, -, -, rfl⟩ | ⟨s, rfl, rfl⟩
    · exact h₁
    · have hne : s.name ≠ name := by simpa [setScalar?] using hname _ hx
      simpa [hne] using h₁
  | loop head body => exact fun key _ m i h => h
  | declare s =>
    intro m₁ h₁
    have hne : s.name ≠ name := by simpa [setScalar?] using hname _ hx
    simpa [hne] using h₁
  | _ => trivial

end Machine
end GridKernel
