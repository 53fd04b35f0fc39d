import GridKernel.Proofs.Agreement
import GridKernel.Proofs.Extents
import GridKernel.Proofs.Loops

/-! Scopes of loop indices. A run keeps the indices of all loops in one table and leaves them there
when a loop is done. A scoped run puts the indices back after every trip, so an index is bound in
the loops that carry it and nowhere else. The two do the same to a statement that reads no index
which a finished loop has left behind. -/
namespace GridKernel

namespace Expr

/-- The name of the axis whose index a node reads. -/
def axis? : Expr → Option String
  | dim d => some d.name
  | _ => none

/-- No index that an expression reads goes by one of the names. -/
def avoids (names : List String) (e : Expr) : Bool :=
  (e.nodes.filterMap axis?).all (· ∉ names)

end Expr

namespace Stmt

/-- The names that the loops in a statement carry. -/
def carried (s : Stmt) : List String := s.loops.flatMap LoopHead.bound

/-- The companions of a loop are advanced by expressions that read no stale index. Each companion
is bound before the next is advanced. -/
def advancesInScope (stale : List String) : List Dimension → Bool
  | [] => true
  | d :: ds => d.stepping.all (·.avoids stale) && advancesInScope (stale.filter (· ≠ d.name)) ds

@[simp] theorem carried_loop (head : LoopHead) (body : Stmt) :
    (loop head body).carried = head.bound ++ body.carried := by
  simp [carried]

@[simp] theorem carried_when (c : Expr) (body : Stmt) : (when c body).carried = body.carried := by
  simp [carried]

@[simp] theorem carried_ifElse (c : Expr) (t e : Stmt) :
    (ifElse c t e).carried = t.carried ++ e.carried := by
  simp [carried]

@[simp] theorem carried_block (ss : List Stmt) :
    (block ss).carried = ss.flatMap carried := by
  rw [carried, loops_block, List.flatMap_assoc]
  rfl

@[simp] theorem carried_kernel (signature : Signature) (body : Stmt) :
    (kernel signature body).carried = body.carried := rfl

mutual

/-- No stale index is read. The names that a loop carries are stale once it is done, and from its
second trip on also where it has not bound them again. -/
def inScope : Stmt → List String → Bool
  | assign target value, stale => target.avoids stale && value.avoids stale
  | loop head body, stale =>
    let left := stale ++ (head.bound ++ body.carried)
    head.bounds.lower.avoids stale && head.bounds.upper.avoids stale &&
      advancesInScope (left.filter (· ≠ head.dim.name)) head.companions &&
      body.inScope (left.filter (· ∉ head.bound))
  | when c body, stale => c.avoids stale && body.inScope stale
  | ifElse c t e, stale => c.avoids stale && t.inScope stale && e.inScope stale
  | block body, stale => allInScope body stale
  | view a, stale => a.shape.all (·.avoids stale)
  | declare _, _ => true
  | kernel _ body, stale => body.inScope stale
termination_by structural s => s

def allInScope : List Stmt → List String → Bool
  | [], _ => true
  | s :: ss, stale => s.inScope stale && allInScope ss (stale ++ s.carried)
termination_by structural ss => ss

end

end Stmt

variable {R : Type}

/-- Puts back the indices of a machine. -/
def Outcome.restore (o : Outcome R) (m : Machine R) : Outcome R :=
  ⟨{ o.machine with indices := m.indices }, o.fault?⟩

namespace Machine

variable [Arithmetic R]

mutual

/-- Like `run`, but every trip of a loop ends with the indices that the loop started with. -/
def runScoped : Stmt → Machine R → Outcome R
  | .loop head body, m => runLoop head (fun m' => (runScoped body m').restore m) m
  | .when c body, m =>
    .attempt m (m.eval c) fun x => if Arithmetic.isTrue x then runScoped body m else .done m
  | .ifElse c thenBody elseBody, m =>
    .attempt m (m.eval c) fun x =>
      if Arithmetic.isTrue x then runScoped thenBody m else runScoped elseBody m
  | .block body, m => runScopedAll body m
  | .kernel _ body, m => runScoped body m
  | s, m => run s m
termination_by structural s => s

def runScopedAll : List Stmt → Machine R → Outcome R
  | [], m => .done m
  | s :: ss, m => (runScoped s m).andThen (runScopedAll ss)
termination_by structural ss => ss

end

variable {m m' : Machine R}

/-- A loop whose trips all end with the same indices ends with these. -/
theorem runTrips_indices {head : LoopHead} {body : Machine R → Outcome R} {entry : Machine R}
    (hbody : ∀ m, (body m).machine.indices = entry.indices) {n : Nat} {index trip : Int64}
    (hm : m.indices = entry.indices)
    (hdone : (runTrips head body n index trip m).fault? = none) :
    (runTrips head body n index trip m).machine.indices = entry.indices := by
  induction n generalizing index trip m with
  | zero => exact hm
  | succ n ih =>
    rw [runTrips] at hdone ⊢
    obtain ⟨hpass, hrest⟩ := Outcome.andThen_fault?.1 hdone
    have henter := (Outcome.andThen_fault?.1 hpass).1
    rw [Outcome.andThen_of_none hpass]
    rw [Outcome.andThen_of_none henter] at hrest ⊢
    cases hindex : Word.add index head.bounds.step with
    | error e => simp [hindex] at hrest
    | ok index =>
      cases htrip : Word.add trip 1 with
      | error e => simp [hindex, htrip] at hrest
      | ok trip =>
        simp only [hindex, htrip, Outcome.attempt_ok] at hrest ⊢
        exact ih (hbody _) hrest

theorem runLoop_indices {head : LoopHead} {body : Machine R → Outcome R}
    (hbody : ∀ m', (body m').machine.indices = m.indices)
    (hdone : (runLoop head body m).fault? = none) :
    (runLoop head body m).machine.indices = m.indices := by
  unfold runLoop at hdone ⊢
  obtain ⟨lower, hlower, heq⟩ := Outcome.exists_attempt hdone
  rw [heq] at hdone ⊢
  obtain ⟨upper, hupper, heq⟩ := Outcome.exists_attempt hdone
  rw [heq] at hdone ⊢
  split at hdone
  · cases hdone
  · rename_i hstep
    rw [if_neg hstep]
    exact runTrips_indices hbody rfl hdone

/-- A condition keeps the indices that both of its branches keep. -/
theorem choice_indices {c : Expr} {yes no : Outcome R}
    (hyes : yes.fault? = none → yes.machine.indices = m.indices)
    (hno : no.fault? = none → no.machine.indices = m.indices)
    (hdone : (Outcome.attempt m (m.eval c) fun x =>
      if Arithmetic.isTrue x then yes else no).fault? = none) :
    (Outcome.attempt m (m.eval c) fun x =>
      if Arithmetic.isTrue x then yes else no).machine.indices = m.indices := by
  obtain ⟨x, -, heq⟩ := Outcome.exists_attempt hdone
  rw [heq] at hdone ⊢
  split at hdone
  · rename_i htrue
    rw [if_pos htrue]
    exact hyes hdone
  · rename_i hfalse
    rw [if_neg hfalse]
    exact hno hdone

mutual

/-- A scoped run that is done has put all indices back. -/
theorem runScoped_indices : (s : Stmt) → ∀ m : Machine R, (runScoped s m).fault? = none →
    (runScoped s m).machine.indices = m.indices
  | .assign _ _, m, _ => run_indices_of_flat rfl m
  | .loop _ _, _, hdone => runLoop_indices (fun _ => rfl) hdone
  | .when _ body, m, hdone =>
    choice_indices (runScoped_indices body m) (fun _ => rfl) hdone
  | .ifElse _ t e, m, hdone =>
    choice_indices (runScoped_indices t m) (runScoped_indices e m) hdone
  | .block body, m, hdone => runScopedAll_indices body m hdone
  | .view _, m, _ => run_indices_of_flat rfl m
  | .declare _, _, _ => rfl
  | .kernel _ body, m, hdone => runScoped_indices body m hdone
termination_by structural s => s

theorem runScopedAll_indices : (ss : List Stmt) → ∀ m : Machine R,
    (runScopedAll ss m).fault? = none → (runScopedAll ss m).machine.indices = m.indices
  | [], _, _ => rfl
  | s :: ss, m, hdone => by
    rw [runScopedAll] at hdone ⊢
    obtain ⟨hfirst, hrest⟩ := Outcome.andThen_fault?.1 hdone
    rw [Outcome.andThen_of_none hfirst]
    rw [runScopedAll_indices ss _ hrest, runScoped_indices s m hfirst]
termination_by structural ss => ss

end

section Agreement

omit [Arithmetic R]

/-- An index is bound to a name. -/
def BindsIndex (name : String) (m : Machine R) : Prop := m.indices[name]?.isSome

theorem BindsIndex.bindIndex {name : String} (h : BindsIndex name m) (key : String) (i : Int64) :
    BindsIndex name (m.bindIndex key i) := by
  rw [BindsIndex, indices_bindIndex]
  split
  · rfl
  · exact h

theorem bindsIndex_self (name : String) (m : Machine R) (i : Int64) :
    BindsIndex name (m.bindIndex name i) := by
  simp [BindsIndex]

/-- Two machines bind alike everything but the indices of stale names. -/
structure AgreeOff (stale : List String) (m m' : Machine R) : Prop where
  arrays (name : String) : m.arrays[name]? = m'.arrays[name]?
  scalars (name : String) : m.scalars[name]? = m'.scalars[name]?
  sizes (name : String) : m.sizes[name]? = m'.sizes[name]?
  indices (name : String) (h : name ∉ stale) : m.indices[name]? = m'.indices[name]?

namespace AgreeOff

variable {stale stale' : List String}

theorem refl (stale : List String) (m : Machine R) : AgreeOff stale m m :=
  ⟨fun _ => rfl, fun _ => rfl, fun _ => rfl, fun _ _ => rfl⟩

theorem mono (h : AgreeOff stale m m') (hsub : stale ⊆ stale') : AgreeOff stale' m m' :=
  ⟨h.arrays, h.scalars, h.sizes, fun name hname => h.indices name fun hmem => hname (hsub hmem)⟩

theorem bindIndex (h : AgreeOff stale m m') (name : String) (i : Int64) :
    AgreeOff (stale.filter (· ≠ name)) (m.bindIndex name i) (m'.bindIndex name i) := by
  refine ⟨h.arrays, h.scalars, h.sizes, fun key hkey => ?_⟩
  rw [indices_bindIndex, indices_bindIndex]
  split
  · rfl
  · rename_i hne
    apply h.indices
    intro hmem
    exact hkey (List.mem_filter.2 ⟨hmem, by simpa using Ne.symm hne⟩)

theorem sameAt (h : AgreeOff stale m m') {e : Expr} (he : e.avoids stale) :
    ∀ x ∈ e.nodes, m.SameAt m' x := by
  intro x hx
  cases x with
  | dim d =>
    have hd : d.name ∈ e.nodes.filterMap Expr.axis? := List.mem_filterMap.2 ⟨_, hx, rfl⟩
    exact h.indices d.name (by simpa using List.all_eq_true.1 he _ hd)
  | scalar s => exact h.scalars s.name
  | size name => exact h.sizes name
  | access a es => exact h.arrays a.name
  | _ => trivial

/-- Machines that bind alike what agreeing ones do agree too. -/
theorem of_alikeSince {n n' : Machine R} (h : AgreeOff stale m m') (hn : AlikeSince m m' n n') :
    AgreeOff stale n n' :=
  ⟨fun name => hn.arrays name (h.arrays name), fun name => hn.scalars name (h.scalars name),
    fun name => hn.sizes name (h.sizes name),
    fun name hname => hn.indices name (h.indices name hname)⟩

end AgreeOff

/-- The machines of a run and of a scoped run inside a loop that started in `entry`: the scoped one
has the indices of the start but for those that the loop carries. -/
structure Inside (entry : Machine R) (left stale : List String) (m m' : Machine R) : Prop where
  agree : AgreeOff stale m m'
  outer (name : String) (h : name ∉ left) : m'.indices[name]? = entry.indices[name]?

variable {entry : Machine R} {left stale : List String}

theorem Inside.bindIndex (h : Inside entry left stale m m') {name : String} (hname : name ∈ left)
    (i : Int64) :
    Inside entry left (stale.filter (· ≠ name)) (m.bindIndex name i) (m'.bindIndex name i) := by
  refine ⟨h.agree.bindIndex name i, fun key hkey => ?_⟩
  have hne : name ≠ key := by
    rintro rfl
    exact hkey hname
  simpa [hne] using h.outer key hkey

end Agreement

namespace AgreeOff

variable {stale : List String}

theorem eval (h : AgreeOff stale m m') {e : Expr} (he : e.avoids stale) : m.eval e = m'.eval e :=
  eval_congr e (h.sameAt he)

theorem evalIndex (h : AgreeOff stale m m') {e : Expr} (he : e.avoids stale) :
    m.evalIndex e = m'.evalIndex e := by
  rw [Machine.evalIndex, Machine.evalIndex, h.eval he]

theorem companionIndex (h : AgreeOff stale m m') {d : Dimension}
    (hd : d.stepping.all (·.avoids stale)) (trip : Int64) :
    m.companionIndex d trip = m'.companionIndex d trip :=
  (AlikeSince.refl m m').companionIndex (fun e he => h.sameAt (List.all_eq_true.1 hd e he)) trip

theorem assign (h : AgreeOff stale m m') {target value : Expr} (htarget : target.avoids stale)
    (hvalue : value.avoids stale) :
    (run (.assign target value) m).Alike (AgreeOff stale) (run (.assign target value) m') :=
  ((AlikeSince.refl m m').assign (h.sameAt htarget) (h.sameAt hvalue)).mono
    fun _ _ => h.of_alikeSince

theorem checkView (h : AgreeOff stale m m') {a : GridArray} (ha : a.shape.all (·.avoids stale)) :
    m.checkView a = m'.checkView a := by
  refine (AlikeSince.refl m m').checkView (h.arrays a.name) fun axis e he => ?_
  have hshape : ∀ size ∈ a.shape, ∀ x ∈ size.nodes, m.SameAt m' x :=
    fun size hsize => h.sameAt (List.all_eq_true.1 ha size hsize)
  exact GridArray.nodes_of_allocation (fun _ => trivial) (fun _ _ _ => trivial) hshape he

end AgreeOff

variable {entry : Machine R} {left stale : List String}

/-- The companions of a trip take the same indices in both machines, and then are stale no more. -/
theorem bindCompanions_inside {trip : Int64} {ds : List Dimension} {f f' : Machine R → Outcome R}
    (hds : Stmt.advancesInScope stale ds) (hleft : ds.map Dimension.name ⊆ left)
    (hstale : stale ⊆ left)
    (hf : ∀ m m', Inside entry left (stale.filter (· ∉ ds.map Dimension.name)) m m' →
      (f m).Alike (Inside entry left left) (f' m'))
    (h : Inside entry left stale m m') :
    ((bindCompanions trip ds m).andThen f).Alike (Inside entry left left)
      ((bindCompanions trip ds m').andThen f') := by
  induction ds generalizing stale m m' with
  | nil => exact hf m m' ⟨h.agree.mono (by simp), h.outer⟩
  | cons d ds ih =>
    obtain ⟨hd, hrest⟩ := Bool.and_eq_true_iff.1 hds
    obtain ⟨hname, hnames⟩ := List.cons_subset.1 hleft
    have hindex := h.agree.companionIndex hd trip
    rw [bindCompanions, bindCompanions, ← hindex]
    cases m.companionIndex d trip with
    | error e => exact ⟨rfl, h.agree.mono hstale, h.outer⟩
    | ok i =>
      apply ih hrest hnames
      · exact fun n hn => hstale (List.mem_filter.1 hn).1
      · intro k k' hk
        refine hf k k' ⟨hk.agree.mono fun n hn => ?_, hk.outer⟩
        simp only [List.mem_filter, List.map_cons, List.mem_cons, decide_eq_true_eq] at hn ⊢
        tauto
      · exact h.bindIndex hname i

/-- A loop whose body agrees with its scoped run agrees with its own: every trip ends in the scoped
run with the indices of the start, and those that differ are carried by the loop. -/
theorem loop_agrees {head : LoopHead} {body : Stmt}
    (hbody : ∀ stale, body.inScope stale → ∀ m m' : Machine R, AgreeOff stale m m' →
      (run body m).Alike (AgreeOff (stale ++ body.carried)) (runScoped body m'))
    (hs : (Stmt.loop head body).inScope stale) (h : AgreeOff stale m m') :
    (run (.loop head body) m).Alike (AgreeOff (stale ++ (Stmt.loop head body).carried))
      (runScoped (.loop head body) m') := by
  simp only [Stmt.inScope, Bool.and_eq_true] at hs
  obtain ⟨⟨⟨hlower, hupper⟩, hcompanions⟩, hscope⟩ := hs
  rw [Stmt.carried_loop]
  have hbound : head.bound ⊆ stale ++ (head.bound ++ body.carried) := by simp
  have hloop : (runLoop head (run body) m).Alike
      (Inside m' (stale ++ (head.bound ++ body.carried))
        (stale ++ (head.bound ++ body.carried)))
      (runLoop head (fun k => (runScoped body k).restore m') m') := by
    refine runLoop_of_pass (h.evalIndex hlower) (h.evalIndex hupper) ?_
      ⟨h.mono (by simp), fun _ _ => rfl⟩
    intro index trip n n' hn
    obtain ⟨hdim, hdims⟩ := List.cons_subset.1 hbound
    have hsub : (stale ++ (head.bound ++ body.carried)).filter (· ≠ head.dim.name) ⊆
        stale ++ (head.bound ++ body.carried) := List.filter_subset_self _
    refine bindCompanions_inside hcompanions hdims hsub ?_ (hn.bindIndex hdim index)
    intro k k' hk
    have hagree : AgreeOff ((stale ++ (head.bound ++ body.carried)).filter (· ∉ head.bound))
        k k' := by
      apply hk.agree.mono
      intro name hname
      simp only [List.mem_filter, LoopHead.bound, List.mem_cons, decide_eq_true_eq] at hname ⊢
      tauto
    obtain ⟨hfault, hend⟩ := hbody _ hscope k k' hagree
    refine ⟨hfault, ⟨hend.arrays, hend.scalars, hend.sizes, fun name hname => ?_⟩,
      fun _ _ => rfl⟩
    -- a name that the loop does not carry keeps its index in the run as well
    have hkeep : (run body k).machine.indices[name]? = k.indices[name]? := by
      apply run_indices
      intro inner hinner hmem
      have hcarried : name ∈ body.carried := List.mem_flatMap.2 ⟨inner, hinner, hmem⟩
      exact hname (by simp [hcarried])
    rw [hkeep, hagree.indices name fun hmem => hname (List.mem_filter.1 hmem).1]
    exact hk.outer name hname
  exact hloop.mono fun _ _ hn => hn.agree

mutual

/-- A run and a scoped run of a statement that reads no stale index agree but for the names that
are stale or carried by its loops. -/
theorem run_agrees : (s : Stmt) → ∀ stale, s.inScope stale → ∀ m m' : Machine R,
    AgreeOff stale m m' → (run s m).Alike (AgreeOff (stale ++ s.carried)) (runScoped s m')
  | .assign target value, stale, hs, m, m', h => by
    obtain ⟨htarget, hvalue⟩ := Bool.and_eq_true_iff.1 hs
    exact (h.assign htarget hvalue).mono fun _ _ hn => hn.mono (by simp)
  | .loop _ body, _, hs, _, _, h => loop_agrees (run_agrees body) hs h
  | .when c body, stale, hs, m, m', h => by
    obtain ⟨hc, hbody⟩ := Bool.and_eq_true_iff.1 hs
    rw [Stmt.carried_when]
    refine .attempt (h.mono (by simp)) (h.eval hc) fun x _ => ?_
    split
    · exact run_agrees body stale hbody m m' h
    · exact Outcome.alike_done.2 (h.mono (by simp))
  | .ifElse c t e, stale, hs, m, m', h => by
    simp only [Stmt.inScope, Bool.and_eq_true] at hs
    rw [Stmt.carried_ifElse]
    refine .attempt (h.mono (by simp)) (h.eval hs.1.1) fun x _ => ?_
    split
    · exact (run_agrees t stale hs.1.2 m m' h).mono fun _ _ hn => hn.mono (by simp)
    · exact (run_agrees e stale hs.2 m m' h).mono fun _ _ hn => hn.mono (by simp)
  | .block body, stale, hs, m, m', h => by
    rw [Stmt.carried_block]
    exact runAll_agrees body stale hs m m' h
  | .view a, stale, hs, m, m', h => by
    have hagree := h.mono (List.subset_append_left stale (Stmt.view a).carried)
    exact .attempt hagree (h.checkView hs) fun _ _ => Outcome.alike_done.2 hagree
  | .declare s, stale, _, m, m', h => by
    have hsince := (AlikeSince.refl m m').bindScalar s.name Arithmetic.zero
    exact Outcome.alike_done.2 ((h.of_alikeSince hsince).mono (by simp))
  | .kernel _ body, stale, hs, m, m', h => by
    rw [Stmt.carried_kernel]
    exact run_agrees body stale hs m m' h
termination_by structural s => s

theorem runAll_agrees : (ss : List Stmt) → ∀ stale, Stmt.allInScope ss stale →
    ∀ m m' : Machine R, AgreeOff stale m m' →
      (runAll ss m).Alike (AgreeOff (stale ++ ss.flatMap Stmt.carried)) (runScopedAll ss m')
  | [], stale, _, _, _, h => Outcome.alike_done.2 (h.mono (by simp))
  | s :: ss, stale, hs, m, m', h => by
    obtain ⟨hfirst, hrest⟩ := Bool.and_eq_true_iff.1 hs
    rw [List.flatMap_cons, ← List.append_assoc]
    refine (run_agrees s stale hfirst m m' h).andThen_mono ?_ ?_
    · exact fun n n' hn => hn.mono (List.subset_append_left ..)
    · exact fun n n' hn => runAll_agrees ss _ hrest n n' hn
termination_by structural ss => ss

end

/-- A run unbinds no index. -/
theorem run_binds (s : Stmt) {name : String} (h : BindsIndex name m) :
    BindsIndex name (run s m).machine := by
  refine run_keeps (P := BindsIndex name) s (fun x _ => ?_) m h
  cases x with
  | assign target value =>
    intro m₁ x m₂ h₁ hstore
    rcases store_cases hstore with ⟨a, es, is, b, c, -, -, -, -, rfl⟩ | ⟨s, -, rfl⟩ <;> exact h₁
  | loop head body => exact fun key _ m₁ i h₁ => h₁.bindIndex key i
  | declare s => exact fun m h => h
  | _ => trivial

/-- Companions that were all advanced are bound. -/
theorem bindCompanions_binds {trip : Int64} {ds : List Dimension}
    (hdone : (bindCompanions trip ds m).fault? = none) {name : String}
    (hname : name ∈ ds.map Dimension.name ∨ BindsIndex name m) :
    BindsIndex name (bindCompanions trip ds m).machine := by
  induction ds generalizing m with
  | nil =>
    rcases hname with hname | hname
    · cases hname
    · exact hname
  | cons d ds ih =>
    rw [bindCompanions] at hdone ⊢
    obtain ⟨i, -, heq⟩ := Outcome.exists_attempt hdone
    rw [heq] at hdone ⊢
    apply ih hdone
    rw [List.map_cons, List.mem_cons] at hname
    rcases hname with (rfl | hname) | hname
    · exact .inr (bindsIndex_self ..)
    · exact .inl hname
    · exact .inr (hname.bindIndex ..)

/-- The bounds of a loop evaluate to those of at least one trip. -/
def MakesTrip (m : Machine R) (head : LoopHead) : Prop :=
  ∃ lower upper, m.evalIndex head.bounds.lower = .ok lower ∧
    m.evalIndex head.bounds.upper = .ok upper ∧
    0 < tripCount lower.toInt upper.toInt head.bounds.step.toInt

/-- A loop that is done after at least one trip leaves its indices bound. -/
theorem run_loop_binds {head : LoopHead} {body : Stmt} (htrip : m.MakesTrip head)
    (hdone : (run (.loop head body) m).fault? = none) {name : String} (hname : name ∈ head.bound) :
    BindsIndex name (run (.loop head body) m).machine := by
  obtain ⟨lower, upper, hlower, hupper, hcount⟩ := htrip
  obtain ⟨n, hn⟩ := Nat.exists_eq_add_one_of_ne_zero hcount.ne'
  rw [run, runLoop, hlower, hupper, Outcome.attempt_ok, Outcome.attempt_ok] at hdone ⊢
  split at hdone
  · cases hdone
  rename_i hstep
  rw [if_neg hstep]
  rw [hn, runTrips] at hdone ⊢
  obtain ⟨hpass, hrest⟩ := Outcome.andThen_fault?.1 hdone
  obtain ⟨henter, -⟩ := Outcome.andThen_fault?.1 hpass
  rw [Outcome.andThen_of_none hpass, Outcome.andThen_of_none henter]
  have hentered : BindsIndex name
      (bindCompanions 0 head.companions (m.bindIndex head.dim.name lower)).machine := by
    apply bindCompanions_binds henter
    rcases List.mem_cons.1 hname with rfl | hname
    · exact .inr (bindsIndex_self ..)
    · exact .inl hname
  have hafter := run_binds body hentered
  refine Outcome.attempt_machine (P := BindsIndex name) hafter fun index _ => ?_
  refine Outcome.attempt_machine (P := BindsIndex name) hafter fun trip _ => ?_
  exact runTrips_keeps (fun key _ m₁ i h₁ => h₁.bindIndex key i)
    (fun m₁ h₁ => run_binds body h₁) hafter

/-- A statement that reads no index after the loops that carried it runs as if every loop put back
the indices it found; a scoped run does. Any other run still changes no index but those of its
loops, and a loop that is done after a trip leaves its own behind, where they can be read. -/
theorem loop_scopes (s : Stmt) (m : Machine R) :
    (s.inScope [] → (run s m).Alike (AgreeOff s.carried) (runScoped s m)) ∧
    ((runScoped s m).fault? = none → ∀ d,
      (runScoped s m).machine.eval (.dim d) = m.eval (.dim d)) ∧
    (∀ d, d.name ∉ s.carried → (run s m).machine.eval (.dim d) = m.eval (.dim d)) ∧
    ∀ head body, s = .loop head body → m.MakesTrip head → (run s m).fault? = none →
      ∀ d, d.name ∈ head.bound →
        ∃ i, (run s m).machine.eval (.dim d) = .ok (Arithmetic.ofInt i) := by
  refine ⟨fun hs => ?_, fun hdone d => ?_, fun d hd => ?_, ?_⟩
  · simpa using run_agrees s [] hs m m (.refl [] m)
  · rw [eval, eval, runScoped_indices s m hdone]
  · have hkeep : (run s m).machine.indices[d.name]? = m.indices[d.name]? := by
      apply run_indices
      intro head hhead hmem
      exact hd (List.mem_flatMap.2 ⟨head, hhead, hmem⟩)
    rw [eval, eval, hkeep]
  · rintro head body rfl htrip hdone d hd
    obtain ⟨i, hi⟩ := Option.isSome_iff_exists.1 (run_loop_binds htrip hdone hd)
    exact ⟨i, by simp [eval, hi, bound]⟩

/-- A loop over a line that sets a scalar to its index. -/
def indexLoop : Stmt :=
  .loop ⟨⟨"x", .spatial⟩, .upTo (.int 3), [], .sequential⟩
    (.assign (.scalar ⟨"s", .float64⟩) (.dim ⟨"x", .spatial⟩))

/-- Two loops over one axis are in scope; after the first of them its index can still be read. -/
theorem loop_scopes_line :
    (run (.block [indexLoop, indexLoop]) ({} : Machine Binary64)).Alike (AgreeOff ["x", "x"])
      (runScoped (.block [indexLoop, indexLoop]) {}) ∧
    ∃ i, (run indexLoop ({} : Machine Binary64)).machine.eval (.dim ⟨"x", .spatial⟩) =
      .ok (Arithmetic.ofInt i) := by
  have htrip : MakesTrip ({} : Machine Binary64)
      ⟨⟨"x", .spatial⟩, .upTo (.int 3), [], .sequential⟩ :=
    ⟨0, 3, by decide +kernel, by decide +kernel, by decide⟩
  have hdone : (run indexLoop ({} : Machine Binary64)).fault? = none := by decide +kernel
  constructor
  · exact (loop_scopes (.block [indexLoop, indexLoop]) {}).1 rfl
  · exact (loop_scopes indexLoop {}).2.2.2 _ _ rfl htrip hdone ⟨"x", .spatial⟩ (by decide)

end Machine
end GridKernel
