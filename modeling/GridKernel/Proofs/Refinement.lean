import GridKernel.Proofs.Binary64Closeness
import GridKernel.Proofs.EntryPoints
import GridKernel.Proofs.PointStatements
import GridKernel.Proofs.Templates

/-! A ring refines the full history. Updates by the same templates, of a field with all its levels
saved and of a copy with a ring, leave the same values in the levels that the ring holds. -/
namespace GridKernel.March

open Machine

variable {m : March} {specs : Specs} {u v : GridArray}

/-- A template with the copy that it is put in for. -/
abbrev Job := Template × Bool

/-- The templates put in for one of the copies, in order. -/
def templatesFor (ringed : Bool) (jobs : List Job) : List Template :=
  (jobs.filter fun job => job.2 == ringed).map Prod.fst

theorem templatesFor_append (ringed : Bool) (jobs : List Job) (job : Job) :
    templatesFor ringed (jobs ++ [job]) =
      templatesFor ringed jobs ++ if job.2 = ringed then [job.1] else [] := by
  simp only [templatesFor, List.filter_append, List.map_append]
  split
  · simp [*]
  · simp [*]

/-- The statements of the updates by templates. -/
abbrev Resolves (m : March) (u v : GridArray) (jobs : List Job) (ss : List Stmt) : Prop :=
  List.Forall₂ (fun job s => m.resolve (m.update job.1 (copy u v job.2)) = .ok s) jobs ss

/-- The last templates put in for both copies are the same. -/
theorem exists_last {jobs : List Job} (hne : jobs ≠ [])
    (h : templatesFor true jobs = templatesFor false jobs) :
    ∃ E, ∀ ringed, (templatesFor ringed jobs).getLast? = some E := by
  have hsame : ∀ ringed, templatesFor ringed jobs = templatesFor false jobs := by
    rintro (_ | _)
    · rfl
    · exact h
  obtain ⟨job, hjob⟩ := List.exists_mem_of_ne_nil jobs hne
  have hmem : job.1 ∈ templatesFor job.2 jobs :=
    List.mem_map_of_mem (List.mem_filter.2 ⟨hjob, by simp⟩)
  rw [hsame] at hmem
  obtain ⟨E, hE⟩ : ∃ E, (templatesFor false jobs).getLast? = some E :=
    ⟨_, List.getLast?_eq_some_getLast (List.ne_nil_of_mem hmem)⟩
  exact ⟨E, fun ringed => by rw [hsame, hE]⟩

variable {R : Type} [Arithmetic R]

/-- An assignment to a cell ends, if it does not stop, with the value in the cell at the indices. -/
theorem ends_assign_access {Q : Machine R → Prop} {M : Machine R} {a : GridArray}
    {es : List Expr} {e : Expr}
    (h : ∀ x is b c, M.eval e = .ok x → M.evalIndices es = .ok is → M.arrays[a.name]? = some b →
      b.set? is x = some c → Q (M.bindArray a.name c)) :
    (run (.assign (.access a es) e) M).Ends Q fun _ _ => True := by
  rw [run]
  cases hx : M.eval e with
  | error fault => trivial
  | ok x =>
    rw [Outcome.attempt_ok]
    cases hstore : M.store (.access a es) x with
    | error fault => trivial
    | ok M' =>
      obtain ⟨is, b, c, his, hb, hset, rfl⟩ := store_access_eq_ok.1 hstore
      exact h x is b c hx his hb hset

/-- The copies of a field are bound to buffers with all their cells and an extent for every axis. -/
structure Bound (m : March) (u v : GridArray) (M : Machine R) : Prop where
  full : ∀ ringed b, M.arrays[(copy u v ringed).name]? = some b → b.Full
  rank : ∀ b, M.arrays[u.name]? = some b → b.dims.length = m.spaceDims.length + 1

omit [Arithmetic R] in
theorem Bound.twins {M M' : Machine R} (h : m.Bound u v M)
    (htwins : ∀ name : String, Option.Rel Buffer.Twins M.arrays[name]? M'.arrays[name]?) :
    m.Bound u v M' := by
  have hearlier : ∀ (name : String) b', M'.arrays[name]? = some b' →
      ∃ b, M.arrays[name]? = some b ∧ b.Twins b' := by
    intro name b' hb'
    have hrel := htwins name
    rw [hb'] at hrel
    cases hb : M.arrays[name]? with
    | none =>
      rw [hb] at hrel
      cases hrel
    | some b =>
      rw [hb] at hrel
      cases hrel with
      | some hbb' => exact ⟨b, rfl, hbb'⟩
  constructor
  · intro ringed b' hb'
    obtain ⟨b, hb, hbb'⟩ := hearlier _ b' hb'
    have hfull := h.full ringed b hb
    rw [Buffer.Full, hbb'.size, hfull, hbb'.dims]
  · intro b' hb'
    obtain ⟨b, hb, hbb'⟩ := hearlier _ b' hb'
    rw [hbb'.dims, h.rank b hb]

/-- The updates done so far at a grid point changed nothing but the level of the time there, and the
last of them for each copy left its value. -/
structure Updated (m : March) (u v : GridArray) (T : Int) (p : List Int64) (M₁ : Machine R)
    (done : List Job) (M : Machine R) : Prop where
  changes : M₁.ChangesOnly (m.Touched u v T p) M
  indices : M.indices = M₁.indices
  last : ∀ ringed E, (templatesFor ringed done).getLast? = some E →
    ∃ e x, m.resolveExpr (E.expr (copy u v ringed)) = .ok e ∧ M₁.eval e = .ok x ∧
      M.cell? (copy u v ringed).name (Int64.ofInt (m.row ringed T) :: p) = some x

theorem During.changes {T : Int} {M₁ M : Machine R} {touched : String → List Int64 → Prop}
    (h : m.During T M₁) (hchanges : M₁.ChangesOnly touched M) (hindices : M.indices = M₁.indices) :
    m.During T M := by
  refine h.congr ?_ fun s _ => ?_
  · rw [hindices]
  · rw [hchanges.scalars]

variable [ExactIntegers R]

section Point

variable (hm : Configured specs m) (hexact : m.steps.toNat + m.order.toNat < 2 ^ 53)
  (hgrid : ∀ extent ∈ specs.shape, extent.toNat < 2 ^ 53) (hc : m.Copies u v) {T : Int}
include hm hexact hgrid hc

/-- An update keeps what the updates before it did, and leaves its value. -/
theorem run_update {p : List Int64} (hp : p ∈ specs.points) {M₁ : Machine R}
    (hduring : m.During T M₁) (hat : At M₁ m.spaceCounters p) (hbound : m.Bound u v M₁)
    {done : List Job} {job : Job} (hreads : m.Reads u v job.1) {s : Stmt}
    (hs : m.resolve (m.update job.1 (copy u v job.2)) = .ok s) {M : Machine R}
    (h : m.Updated u v T p M₁ done M) :
    (run s M).Ends (m.Updated u v T p M₁ (done ++ [job])) fun _ _ => True := by
  obtain ⟨E, ringed⟩ := job
  obtain ⟨es, hes, hindices⟩ := resolved_target (R := R) hm hexact hc (T := T) hgrid ringed
  obtain ⟨target, htarget, hs⟩ := bind_eq_ok.1 hs
  obtain ⟨value, hvalue, hs⟩ := bind_eq_ok.1 hs
  obtain rfl := Except.ok.inj hs
  obtain rfl := Except.ok.inj (hes.symm.trans htarget)
  have hduring' := hduring.changes h.changes h.indices
  have hat' : At M m.spaceCounters p := by
    unfold At
    rw [h.indices]
    exact hat
  apply ends_assign_access
  intro x is b c hx his hb hset
  obtain rfl := Except.ok.inj ((hindices M p hduring' hp hat').symm.trans his)
  have htouched : m.Touched u v T p (copy u v ringed).name
      (Int64.ofInt (m.row ringed T) :: p) := ⟨ringed, rfl, rfl⟩
  have hfull : b.Full := (hbound.twins h.changes.twins).full ringed b hb
  refine ⟨h.changes.set hb hset htouched, h.indices, fun other F hlast => ?_⟩
  rw [templatesFor_append] at hlast
  by_cases hother : ringed = other
  · subst hother
    obtain rfl : E = F := by simpa using hlast
    refine ⟨value, x, hvalue, ?_, ?_⟩
    · exact eval_unchanged hm hexact hc hduring h.changes h.indices hreads hvalue hx
    · rw [cell?_eq_some]
      exact ⟨c, by simp, by rw [hfull.get?_set? hset, if_pos rfl]⟩
  · rw [if_neg hother, List.append_nil] at hlast
    obtain ⟨e, y, he, hy, hcell⟩ := h.last other F hlast
    have hne : (copy u v ringed).name ≠ (copy u v other).name :=
      fun hname => hother (hc.copy_inj hname)
    exact ⟨e, y, he, hy, by rw [cell?, arrays_bindArray, if_neg hne]; exact hcell⟩

/-- All updates at a grid point, in order. -/
theorem runAll_updates {p : List Int64} (hp : p ∈ specs.points) {M₁ : Machine R}
    (hduring : m.During T M₁) (hat : At M₁ m.spaceCounters p) (hbound : m.Bound u v M₁)
    {jobs : List Job} (hreads : ∀ job ∈ jobs, m.Reads u v job.1) {ss : List Stmt}
    (hss : m.Resolves u v jobs ss) :
    (runAll ss M₁).Ends (m.Updated u v T p M₁ jobs) fun _ _ => True := by
  have hstart : m.Updated u v T p M₁ [] M₁ := by
    refine ⟨.refl _ _ _, rfl, ?_⟩
    intro ringed E hlast
    cases hlast
  suffices hrest : ∀ done M, m.Updated u v T p M₁ done M →
      (runAll ss M).Ends (m.Updated u v T p M₁ (done ++ jobs)) fun _ _ => True from
    hrest [] M₁ hstart
  induction hss with
  | nil =>
    intro done M h
    rw [List.append_nil]
    exact h
  | @cons job s jobs ss hs _ ih =>
    intro done M h
    have hjob : m.Reads u v job.1 := hreads job (by simp)
    refine (run_update hm hexact hgrid hc hp hduring hat hbound hjob hs h).andThen fun M h => ?_
    have hafter := ih (fun job hjob => hreads job (by simp [hjob])) (done ++ [job]) M h
    rwa [List.append_assoc] at hafter

omit [Arithmetic R] [ExactIntegers R] hm hexact hgrid hc in
/-- A cell at a level and a grid point is the same after the updates, unless both are those of the
updates. -/
theorem SameLevel.changes {M₁ M : Machine R} {p q : List Int64} {T' : Int}
    (h : m.SameLevel u v M₁ T' q) (hchanges : M₁.ChangesOnly (m.Touched u v T p) M)
    (huntouched : ∀ ringed, ¬ m.Touched u v T p (copy u v ringed).name
      (Int64.ofInt (m.row ringed T') :: q)) : m.SameLevel u v M T' q := by
  have hu : M.cell? u.name (Int64.ofInt T' :: q) = M₁.cell? u.name (Int64.ofInt T' :: q) :=
    hchanges.cells _ _ (huntouched false)
  have hv : M.cell? v.name (Int64.ofInt (m.ringSlot T') :: q) =
      M₁.cell? v.name (Int64.ofInt (m.ringSlot T') :: q) := hchanges.cells _ _ (huntouched true)
  rw [SameLevel, hu, hv]
  exact h

/-- What a step keeps: the earlier levels are the same in both copies, those on the border are, and
so is the level of the time at the grid points treated so far. -/
structure Stepped (specs : Specs) (m : March) (u v : GridArray) (T : Int)
    (visited : List (List Int64)) (M : Machine R) : Prop where
  during : m.During T M
  bound : m.Bound u v M
  earlier : ∀ T', m.Past T T' → ∀ p, m.SameLevel u v M T' p
  border : ∀ T', 0 ≤ T' → T' < (m.steps.toNat : Int) + m.order.toNat → ∀ p, p ∉ specs.points →
    m.SameLevel u v M T' p
  current : ∀ p ∈ visited, m.SameLevel u v M T p

/-- The updates at a grid point make the level of the time the same there. -/
theorem run_point {visited : List (List Int64)} {p : List Int64} (hp : p ∈ specs.points)
    {jobs : List Job} (hne : jobs ≠ []) (hjobs : templatesFor true jobs = templatesFor false jobs)
    (hreads : ∀ job ∈ jobs, m.Reads u v job.1) {ss : List Stmt}
    (hss : m.Resolves u v jobs ss)
    {M₁ : Machine R} (h : Stepped specs m u v T visited M₁) (hat : At M₁ m.spaceCounters p) :
    (runAll ss M₁).Ends (Stepped specs m u v T (visited ++ [p])) fun _ _ => True := by
  refine (runAll_updates hm hexact hgrid hc hp h.during hat h.bound hreads hss).mono fun M hM => ?_
  have hother : ∀ T' q, q ≠ p → ∀ ringed,
      ¬ m.Touched u v T p (copy u v ringed).name (Int64.ofInt (m.row ringed T') :: q) := by
    rintro T' q hq ringed ⟨other, -, his⟩
    exact hq (List.cons.inj his).2
  -- the last template of both copies is the same, so both have its value
  have hcurrent : m.SameLevel u v M T p := by
    obtain ⟨E, hE⟩ := exists_last hne hjobs
    obtain ⟨e, x, he, hx, hcell⟩ := hM.last false E (hE false)
    obtain ⟨f, y, hf, hy, hcell'⟩ := hM.last true E (hE true)
    have hread : m.Reads u v E := by
      have hmem := List.mem_of_getLast? (hE false)
      obtain ⟨job, hjob, rfl⟩ := List.mem_map.1 hmem
      exact hreads job (List.mem_filter.1 hjob).1
    have hxy := eval_agrees hm hexact hc h.during h.earlier h.bound.rank hread he hf hx hy
    rw [← hxy] at hcell'
    exact hcell'.trans hcell.symm
  refine ⟨h.during.changes hM.changes hM.indices, h.bound.twins hM.changes.twins, ?_, ?_, ?_⟩
  · intro T' hpast q
    refine (h.earlier T' hpast q).changes hM.changes fun ringed => ?_
    exact not_touched hc hexact h.during.time_bounded (h.during.past_bounded hpast) hpast ringed p q
  · intro T' hlow hhigh q hq
    refine (h.border T' hlow hhigh q hq).changes hM.changes (hother T' q ?_)
    rintro rfl
    exact hq hp
  · intro q hq
    by_cases hqp : q = p
    · rw [hqp]
      exact hcurrent
    · have hvisited : q ∈ visited := by
        rcases List.mem_append.1 hq with hq | hq
        · exact hq
        · exact absurd (List.mem_singleton.1 hq) hqp
      exact (h.current q hvisited).changes hM.changes (hother T q hqp)

end Point

omit [Arithmetic R] [ExactIntegers R] in
theorem SameLevel.of_arrays {M M' : Machine R} {T : Int} {p : List Int64}
    (h : m.SameLevel u v M T p) (harrays : M'.arrays = M.arrays) : m.SameLevel u v M' T p := by
  rw [SameLevel, cell?, cell?, harrays]
  exact h

omit [Arithmetic R] [ExactIntegers R] in
theorem Bound.of_arrays {M M' : Machine R} (h : m.Bound u v M) (harrays : M'.arrays = M.arrays) :
    m.Bound u v M' := by
  constructor
  · rw [harrays]
    exact h.full
  · rw [harrays]
    exact h.rank

/-- What holds between steps: the ring has the levels in its window, and the border of all levels.
-/
structure Mirrored (specs : Specs) (m : March) (u v : GridArray) (count : Nat) (M : Machine R) :
    Prop where
  bound : m.Bound u v M
  levels : ∀ T, m.window count T → ∀ p, m.SameLevel u v M T p
  border : ∀ T, 0 ≤ T → T < (m.steps.toNat : Int) + m.order.toNat → ∀ p, p ∉ specs.points →
    m.SameLevel u v M T p

omit [Arithmetic R] [ExactIntegers R] in
theorem Mirrored.of_arrays {count : Nat} {M M' : Machine R} (h : Mirrored specs m u v count M)
    (harrays : M'.arrays = M.arrays) : Mirrored specs m u v count M' where
  bound := h.bound.of_arrays harrays
  levels T hT p := (h.levels T hT p).of_arrays harrays
  border T hlow hhigh p hp := (h.border T hlow hhigh p hp).of_arrays harrays

omit [ExactIntegers R] in
/-- A step starts with nothing treated. -/
theorem Mirrored.enter (hring : m.hasRing) {before after : List Int} {T : Int}
    (htimes : m.times = before ++ T :: after) {M M' : Machine R}
    (h : Mirrored specs m u v before.length M) (hentered : m.Entered T M M') :
    Stepped specs m u v T [] M' where
  during := hentered.during (by simp [htimes])
  bound := h.bound.of_arrays hentered.arrays
  earlier T' hpast p := (h.levels T' (hpast.window hring htimes) p).of_arrays hentered.arrays
  border T' hlow hhigh p hp := (h.border T' hlow hhigh p hp).of_arrays hentered.arrays
  current := by simp

omit [ExactIntegers R] in
/-- With all grid points treated, the window moves on by a level. -/
theorem Stepped.leave (hring : m.hasRing) {before after : List Int} {T : Int}
    (htimes : m.times = before ++ T :: after) {M : Machine R}
    (h : Stepped specs m u v T specs.points M) :
    Mirrored specs m u v (before ++ [T]).length M where
  bound := h.bound
  levels T' hT' p := by
    rcases window_succ hring htimes hT' with rfl | hpast
    · by_cases hp : p ∈ specs.points
      · exact h.current p hp
      · have hbounded := h.during.bounded
        exact h.border T' hbounded.1 (by split at hbounded <;> omega) p hp
    · exact h.earlier T' hpast p
  border := h.border

omit [ExactIntegers R] in
theorem Stepped.bindIndex (hm : Configured specs m) {T : Int} {visited : List (List Int64)}
    {M : Machine R} (h : Stepped specs m u v T visited M) {d : Dimension}
    (hd : d ∈ m.spaceCounters) (i : Int64) :
    Stepped specs m u v T visited (M.bindIndex d.name i) where
  during := h.during.bindIndex hm hd i
  bound := h.bound.of_arrays rfl
  earlier := h.earlier
  border := h.border
  current := h.current

/-- The loop nest around the updates keeps the ring the same as the saved levels in its window. -/
theorem run_updateNest (hm : Configured specs m)
    (hexact : m.steps.toNat + m.order.toNat < 2 ^ 53)
    (hgrid : ∀ extent ∈ specs.shape, extent.toNat < 2 ^ 53) (hc : m.Copies u v)
    {jobs : List Job} (hne : jobs ≠ []) (hjobs : templatesFor true jobs = templatesFor false jobs)
    (hreads : ∀ job ∈ jobs, m.Reads u v job.1) {ss : List Stmt}
    (hss : m.Resolves u v jobs ss)
    {body : Stmt} (hbody : m.loopNest (.block ss) = .ok body) {M : Machine R}
    (h : Mirrored specs m u v 0 M) :
    (run body M).Ends (Mirrored specs m u v m.times.length) fun _ _ => True := by
  have hloops : (Stmt.block ss).loops = [] := by
    rw [Stmt.loops_block, List.flatMap_eq_nil_iff]
    intro s hs
    obtain ⟨job, -, hs⟩ := forall₂_mem_right hss hs
    obtain ⟨target, -, hs⟩ := bind_eq_ok.1 hs
    obtain ⟨value, -, hs⟩ := bind_eq_ok.1 hs
    obtain rfl := Except.ok.inj hs
    exact Stmt.loops_assign target value
  refine ends_loopNest hm hexact hgrid hbody hloops
    (fun before M => Mirrored specs m u v before.length M)
    (fun _ T visited M => Stepped specs m u v T visited M) ?_ ?_ ?_ ?_
    fun M' hdeclared => h.of_arrays hdeclared.arrays
  · intro before T after htimes M M' hM hentered
    exact hM.enter hc.hasRing htimes hentered
  · intro _ T visited M d hd i hM
    exact hM.bindIndex hm hd i
  · intro _ T _ _ visited p rest hpoints M hM hat
    rw [run]
    exact run_point hm hexact hgrid hc (by simp [hpoints]) hne hjobs hreads hss hM hat
  · intro before T after htimes M hM
    exact hM.leave hc.hasRing htimes

omit [ExactIntegers R] in
/-- Views change nothing, and succeed over buffers only that have an extent for every axis. -/
theorem ends_views (views : List GridArray) (M : Machine R) :
    (runAll (views.map .view) M).Ends
      (fun M' => M' = M ∧ ∀ a ∈ views, ∃ b, M.arrays[a.name]? = some b ∧ b.dims.length = a.rank)
      fun _ _ => True := by
  induction views with
  | nil => exact ⟨rfl, by simp⟩
  | cons a views ih =>
    rw [List.map_cons, runAll, run]
    cases hview : M.checkView a with
    | error fault => trivial
    | ok _ =>
      refine ih.mono ?_
      rintro M' ⟨rfl, hviews⟩
      exact ⟨rfl, List.forall_mem_cons.2 ⟨length_of_checkView hview, hviews⟩⟩

omit [ExactIntegers R] in
/-- A kernel runs its body with the locals declared, on buffers that have an extent for every axis
of their arrays. -/
theorem ends_runKernel {e : EntryPoint} {k : Kernel} {body : Stmt} (hbody : e.body? = some body)
    (hk : e.toKernel = .ok k) {Q : Machine R → Prop} {M : Machine R}
    (h : ∀ M', M'.arrays = M.arrays →
      (∀ a ∈ e.arrays, ∃ b, M.arrays[a.name]? = some b ∧ b.dims.length = a.rank) →
      (run body M').Ends Q fun _ _ => True) :
    (M.runKernel k).Ends Q fun _ _ => True := by
  have hstatements := EntryPoint.body_of_toKernel hbody hk
  obtain ⟨M₁, hlocals, hlocal⟩ := run_declares e.locals M.idle
  rw [runKernel, hstatements, EntryPoint.statements, run, List.append_assoc, runAll_append,
    hlocals, Outcome.done_andThen, runAll_append]
  refine (ends_views e.arrays M₁).andThen ?_
  rintro M₂ ⟨rfl, hviews⟩
  rw [runAll_singleton]
  rw [hlocal.arrays] at hviews
  exact h M₂ hlocal.arrays hviews

/-- The statements of a grid point are the updates. -/
theorem exists_updates {symbols : List String} {equations : List Equation}
    {rows : List (List Expr)} {jobs : List Job} (hguards : m.before = [] ∧ m.after = [])
    (hupdates : (equations.zip rows).map (fun p => p.1.substitute (symbols.zip p.2)) =
      jobs.map fun job => m.update job.1 (copy u v job.2)) {body : Stmt}
    (hbuild : m.build symbols equations rows = .ok body) : ∃ ss,
      m.Resolves u v jobs ss ∧ m.loopNest (.block ss) = .ok body := by
  obtain ⟨-, ss, hss, hnest⟩ := build_eq_ok.1 hbuild
  refine ⟨ss, ?_, hnest⟩
  have hresolved := pointStmts_of_unguarded hguards hss
  rwa [instances, hupdates, List.forall₂_map_left_iff] at hresolved

/-- A ring refines the full history: updated by the same templates, the levels in the ring at the
end of a run are those that the other copy has saved, at every cell. -/
theorem ring_refines_history (hm : Registered specs m)
    (hexact : specs.steps.toNat + specs.order.toNat < 2 ^ 53)
    (hgrid : ∀ extent ∈ specs.shape, extent.toNat < 2 ^ 53) (hc : m.Copies u v)
    {jobs : List Job} (hne : jobs ≠ []) (hjobs : templatesFor true jobs = templatesFor false jobs)
    (hreads : ∀ job ∈ jobs, m.Reads u v job.1) (hguards : m.before = [] ∧ m.after = [])
    {symbols : List String} {equations : List Equation} {rows : List (List Expr)}
    (hsource : m.source? = some (.equations symbols equations rows))
    (hupdates : (equations.zip rows).map (fun p => p.1.substitute (symbols.zip p.2)) =
      jobs.map fun job => m.update job.1 (copy u v job.2))
    {e : EntryPoint} {k : Kernel} (he : m.entryPoint = .ok e) (hk : e.toKernel = .ok k)
    {M M' : Machine R} (hfull : ∀ a ∈ [u, v], ∀ b, M.arrays[a.name]? = some b → b.Full)
    (hstart : ∀ T, m.window 0 T → ∀ p, m.SameLevel u v M T p)
    (hborder : ∀ p, p ∉ specs.points → ∃ x : Option R,
      (∀ T : Int, 0 ≤ T → T < specs.steps.toNat + specs.order.toNat →
        M.cell? u.name (Int64.ofInt T :: p) = x) ∧
      ∀ j : Int, 0 ≤ j → j ≤ specs.order.toNat → M.cell? v.name (Int64.ofInt j :: p) = x)
    (hrun : M.runKernel k = .done M') :
    ∀ T, m.window specs.steps.toNat T → ∀ p, m.SameLevel u v M' T p := by
  have hconfigured := hm.invariant.1
  rw [← hconfigured.steps, ← hconfigured.order] at hexact hborder
  rw [← hconfigured.steps]
  have hentry : ∃ body, m.build symbols equations rows = .ok body ∧
      e = m.entry.withBody body := by
    rw [entryPoint, hsource] at he
    obtain ⟨body, hbuild, he⟩ := bind_eq_ok.1 he
    exact ⟨body, hbuild, (Except.ok.inj he).symm⟩
  obtain ⟨body, hbuild, rfl⟩ := hentry
  obtain ⟨ss, hss, hbody⟩ := exists_updates hguards hupdates hbuild
  have hends := ends_runKernel (M := M) rfl hk fun M₁ harrays hviews => by
    have hbound : m.Bound u v M := by
      refine ⟨fun ringed => hfull _ ?_, fun b hb => ?_⟩
      · cases ringed <;> simp [copy]
      · obtain ⟨b', hb', hlength⟩ := hviews u hc.registered.1
        obtain rfl := Option.some.inj (hb.symm.trans hb')
        rw [hlength, GridArray.rank, hc.timed.1, List.length_cons]
    have hmirrored : Mirrored specs m u v 0 M := by
      refine ⟨hbound, hstart, fun T hlow hhigh p hp => ?_⟩
      obtain ⟨x, hu, hv⟩ := hborder p hp
      have hslot := m.ringSlot_lt T
      exact (hv _ (m.ringSlot_nonneg T) (by omega)).trans (hu T hlow hhigh).symm
    exact run_updateNest hconfigured hexact hgrid hc hne hjobs hreads hss hbody
      (hmirrored.of_arrays harrays)
  rw [hrun, Outcome.ends_done] at hends
  have hlength : m.times.length = m.steps.toNat := by simp [times]
  rw [← hlength]
  exact hends.levels

def linesSpecs : Specs := { name := "lines", steps := 2, shape := [4], border := 1, order := 1 }

/-- A line of cells with some rows of levels. -/
def line (name : String) (rows : Int64) : GridArray :=
  ⟨name, .float64, [⟨"t", .time⟩, ⟨"x", .spatial⟩], [.int rows, .int 4], [.none, .none], .external⟩

/-- The sum of the neighbours a step before. -/
def neighbours : Template :=
  let x : Expr := .dim ⟨"x", .spatial⟩
  let previous : Expr := .binary .sub (.dim ⟨"t", .time⟩) (.int 1)
  .binary .add (.level previous [.binary .sub x (.int 1)])
    (.level previous [.binary .add x (.int 1)])

/-- The update of a line by the sum of the neighbours. -/
def neighboursAt (f : GridArray) : Equation :=
  ⟨.access f [.dim ⟨"t", .time⟩, .dim ⟨"x", .spatial⟩], neighbours.expr f⟩

def linesSource : Source :=
  .equations [] [neighboursAt (line "u" 3), neighboursAt (line "v" 2)] [[], []]

/-- A line whose levels are one everywhere. -/
def ones (rows : UInt64) : Buffer Binary64 :=
  ⟨[rows, 4], Array.replicate (Buffer.volume [rows, 4]) (Binary64.ofInt 1)⟩

theorem full_ones (rows : UInt64) : (ones rows).Full := Array.size_replicate

def linesMachine : Machine Binary64 :=
  (({} : Machine Binary64).bindArray "u" (ones 3)).bindArray "v" (ones 2)

omit [ExactIntegers R] in
theorem exists_done_of_any {M : Machine R} (h : (m.entryPoint >>= EntryPoint.toKernel).toOption.any
    fun k => (M.runKernel k).fault?.isNone) :
    ∃ e k M', m.entryPoint = .ok e ∧ e.toKernel = .ok k ∧ M.runKernel k = .done M' := by
  cases he : m.entryPoint with
  | error fault => simp [he, Except.toOption] at h
  | ok e =>
    cases hk : e.toKernel with
    | error fault => simp [he, hk, Except.toOption] at h
    | ok k =>
      have hfault : (M.runKernel k).fault? = none := by
        simpa [he, hk, Except.toOption] using h
      exact ⟨e, k, (M.runKernel k).machine, rfl, hk, by rw [Outcome.done, ← hfault]⟩

theorem exists_lines : ∃ m, Registered linesSpecs m ∧ m.Copies (line "u" 3) (line "v" 2) ∧
    (m.before = [] ∧ m.after = []) ∧ m.source? = some linesSource ∧
    ∃ e k M, m.entryPoint = .ok e ∧ e.toKernel = .ok k ∧ linesMachine.runKernel k = .done M := by
  have hm : Registered linesSpecs _ := .source linesSource
    (.array (.array (.start rfl) (rfl : addArray _ "u" [3, 4] .float64 true = .ok _))
      (rfl : addArray _ "v" [2, 4] .float64 false = .ok _))
  refine ⟨_, hm, ⟨?_, ⟨rfl, rfl⟩, rfl, rfl⟩, ⟨rfl, rfl⟩, rfl, ?_⟩
  · exact ⟨List.mem_cons_self, List.mem_cons_of_mem _ List.mem_cons_self⟩
  · exact exists_done_of_any (by decide +kernel)

theorem cell?_ones {M : Machine Binary64} {name : String} {rows : UInt64} {i : Int}
    (hb : M.arrays[name]? = some (ones rows)) (hrow : i.natAbs ≤ 2 ^ 53)
    (hi : 0 ≤ i ∧ i < rows.toNat) (p : List Int64) :
    M.cell? name (Int64.ofInt i :: p) = (ones 1).get? (0 :: p) := by
  have hvalue := toInt_ofInt hrow
  have hone : ∀ {rows is x}, (ones rows).get? is = some x → x = Binary64.ofInt 1 := by
    intro rows is x hx
    obtain ⟨k, -, hx⟩ := Option.bind_eq_some_iff.1 hx
    have hmem := Array.mem_of_getElem? hx
    exact (Array.mem_replicate.1 hmem).2
  -- both are one where the cell is on the line, and no value elsewhere
  rw [cell?, hb, Option.bind_some]
  by_cases hp : Buffer.InBounds [4] p
  · have hbounds : Buffer.InBounds [rows, 4] (Int64.ofInt i :: p) := .cons (by omega) hp
    have hbounds' : Buffer.InBounds [1, 4] (0 :: p) := .cons (by decide) hp
    obtain ⟨x, hx⟩ := (full_ones rows).get? hbounds
    obtain ⟨y, hy⟩ := (full_ones 1).get? hbounds'
    rw [hx, hy, hone hx, hone hy]
  · have hout : ∀ (n : UInt64) j, ¬ Buffer.InBounds [n, 4] (j :: p) :=
      fun n j hbounds => hp (List.forall₂_cons.1 hbounds).2
    rw [Buffer.get?_eq_none (hout rows _), Buffer.get?_eq_none (hout 1 _)]

theorem ring_refines_history_lines :
    ∃ m e k M, Registered linesSpecs m ∧ m.source? = some linesSource ∧
      m.entryPoint = .ok e ∧ e.toKernel = .ok k ∧ linesMachine.runKernel k = .done M ∧
      ∀ T, m.window 2 T → ∀ p, m.SameLevel (line "u" 3) (line "v" 2) M T p := by
  obtain ⟨m, hm, hc, hguards, hsource, e, k, M, he, hk, hrun⟩ := exists_lines
  refine ⟨m, e, k, M, hm, hsource, he, hk, hrun, ?_⟩
  have hconfigured := hm.invariant.1
  have htime : m.timeDim = ⟨"t", .time⟩ := hconfigured.timeDim
  have hspace : m.spaceDims = [⟨"x", .spatial⟩] := hconfigured.spaceDims
  have horder : m.order = 1 := hconfigured.order
  have hforward : m.forward = true := hconfigured.forward
  have hwindow : ∀ T count, m.window count T ↔ ((count - 1 : Nat) : Int) ≤ T ∧ T < 1 + count := by
    intro T count
    rw [window, if_pos hforward, horder]
    rfl
  have hreads : m.Reads (line "u" 3) (line "v" 2) neighbours := by
    have hprevious : m.Past 0 (-1 : Int64).toInt := by
      rw [Past, if_pos hforward, horder]
      decide
    have havoids : ∀ op, ∀ e ∈ [Expr.binary op (.dim ⟨"x", .spatial⟩) (.int 1)],
        Avoids (line "u" 3) (line "v" 2) e := by
      intro op e he
      obtain rfl := List.mem_singleton.1 he
      exact Expr.nodes_of_binary trivial (Expr.nodes_of_leaf rfl trivial)
        (Expr.nodes_of_leaf rfl trivial)
    exact ⟨⟨⟨-1, by rw [htime]; rfl, hprevious⟩, havoids .sub⟩,
      ⟨-1, by rw [htime]; rfl, hprevious⟩, havoids .add⟩
  have hboundU : linesMachine.arrays["u"]? = some (ones 3) := by simp [linesMachine]
  have hboundV : linesMachine.arrays["v"]? = some (ones 2) := by simp [linesMachine]
  have hu : ∀ T : Int, 0 ≤ T → T < 3 → ∀ p,
      linesMachine.cell? "u" (Int64.ofInt T :: p) = (ones 1).get? (0 :: p) :=
    fun T hlow hhigh => cell?_ones hboundU (by omega) ⟨hlow, hhigh⟩
  have hv : ∀ j : Int, 0 ≤ j → j < 2 → ∀ p,
      linesMachine.cell? "v" (Int64.ofInt j :: p) = (ones 1).get? (0 :: p) :=
    fun j hlow hhigh => cell?_ones hboundV (by omega) ⟨hlow, hhigh⟩
  have hne : [((neighbours, false) : Job), (neighbours, true)] ≠ [] := by simp
  refine ring_refines_history hm (by decide) (by simp [linesSpecs]) hc hne rfl ?_ hguards hsource
    ?_ he hk ?_ ?_ ?_ hrun
  · intro job hjob
    have hneighbours : job.1 = neighbours := by
      simp only [List.mem_cons, List.not_mem_nil, or_false] at hjob
      rcases hjob with rfl | rfl <;> rfl
    rw [hneighbours]
    exact hreads
  · simp only [update, htime, hspace]
    rfl
  · have hbuffers : ∀ (name : String) b, linesMachine.arrays[name]? = some b →
        ∃ rows, b = ones rows := by
      intro name b hb
      simp only [linesMachine, arrays_bindArray] at hb
      split at hb
      · exact ⟨2, (Option.some.inj hb).symm⟩
      · split at hb
        · exact ⟨3, (Option.some.inj hb).symm⟩
        · simp at hb
    intro a _ b hb
    obtain ⟨rows, rfl⟩ := hbuffers _ b hb
    exact full_ones rows
  · intro T hT p
    have hT := (hwindow T 0).1 hT
    have hslot := m.ringSlot_lt T
    rw [horder] at hslot
    exact (hv _ (m.ringSlot_nonneg T) hslot p).trans (hu T (by omega) (by omega) p).symm
  · intro p _
    exact ⟨_, fun T hlow hhigh => hu T hlow hhigh p, fun j hlow hhigh =>
      hv j hlow (Int.lt_add_one_of_le hhigh) p⟩

end GridKernel.March
