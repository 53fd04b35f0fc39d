import GridKernel.Proofs.Binary64Closeness
import GridKernel.Proofs.WellFormed

/-! Completion. A kernel whose source is well formed is built, and runs to its end from every
binding of what is registered: no access leaves its buffer. -/
namespace GridKernel.March

open Machine

variable {m : March} {specs : Specs}

/-- What a statement of a grid point has: no loops, no unknown entities, and runs that keep the
machine at the grid point with everything registered bound. -/
structure Sound (R : Type) [Arithmetic R] (specs : Specs) (m : March) (s : Stmt) : Prop where
  loops : s.loops = []
  knows : m.entities.KnowsAll s
  runs : ∀ T p (M : Machine R), Ready specs m T p M →
    (run s M).Ends (Ready specs m T p) fun _ _ => False

variable {R : Type} [Arithmetic R]

namespace Ready

variable {T : Int} {p : List Int64} {M : Machine R}

theorem bindArray (h : Ready specs m T p M) {a : GridArray} {b : Buffer R}
    (hnames : m.entry.registeredNames.Nodup) (ha : a ∈ m.entry.arrays) (hb : Declares a b) :
    Ready specs m T p (M.bindArray a.name b) := by
  have harrays : (m.entry.arrays.map GridArray.name).Nodup := by
    rw [EntryPoint.registeredNames, List.append_assoc] at hnames
    exact (List.nodup_append'.1 hnames).1
  refine ⟨h.during.bindArray a.name b, ⟨fun c hc => ?_, h.supplied.scalars⟩, h.here, h.inside⟩
  by_cases hname : a.name = c.name
  · obtain rfl := List.inj_on_of_nodup_map harrays ha hc hname
    exact ⟨b, by simp, hb⟩
  · simpa [hname] using h.supplied.arrays c hc

theorem bindScalar (h : Ready specs m T p M) {s : Scalar} (hname : m.OffSlots s.name) (x : R) :
    Ready specs m T p (M.bindScalar s.name x) := by
  refine ⟨h.during.bindScalar hname x, ⟨h.supplied.arrays, fun t ht => ?_⟩, h.here, h.inside⟩
  by_cases hst : s.name = t.name
  · exact ⟨x, by simp [hst]⟩
  · simpa [hst] using h.supplied.scalars t ht

end Ready

omit [Arithmetic R] in
theorem Declares.set? {a : GridArray} {b c : Buffer R} {is : List Int64} {x : R}
    (h : Declares a b) (hset : b.set? is x = some c) : Declares a c :=
  ⟨h.full.set? hset, by rw [Buffer.dims_of_set? hset, h.shape]⟩

theorem registered_of_valued {s : Scalar} (h : s ∈ m.valued) :
    s.name ∈ m.entry.registeredNames := by
  rcases List.mem_append.1 h with h | h
  · simp [EntryPoint.registeredNames, List.mem_map_of_mem h]
  · simp [EntryPoint.registeredNames, List.mem_map_of_mem h]

variable [ExactIntegers R]

/-- A value is stored to the target of a well-formed equation at every grid point. -/
theorem WellFormedEquation.store (hm : Registered specs m) (hc : Cyclic specs m) {eqn : Equation}
    (h : WellFormedEquation specs m eqn) : ∃ target, m.resolveExpr eqn.lhs = .ok target ∧
      ∀ T p (M : Machine R), Ready specs m T p M → ∀ x, ∃ M', M.store target x = .ok M' ∧
        Ready specs m T p M' := by
  have htarget := h.target
  rcases h.place with ⟨s, hs⟩ | ⟨a, es, ha⟩
  · rw [hs] at htarget ⊢
    cases htarget with
    | scalar hs =>
      have hname := hc.names _ (registered_of_valued hs)
      refine ⟨_, resolveExpr_flat (.scalar s), fun T p M hready x => ?_⟩
      rw [(Expr.replace_eq_scalar m.toCounters_renamesAxes).2 rfl]
      exact ⟨_, rfl, hready.bindScalar hname x⟩
  · rw [ha] at htarget ⊢
    cases htarget with
    | access ha hes =>
      obtain ⟨fs, hfs, hindices⟩ := hes.resolved (R := R) hm hc ha
      refine ⟨.access a fs, hfs, fun T p M hready x => ?_⟩
      obtain ⟨b, hb, hdeclares⟩ := hready.supplied.arrays a ha
      obtain ⟨is, his, hbounds⟩ := hindices T p M hready b hdeclares
      obtain ⟨c, hset⟩ := hbounds.set? x
      refine ⟨M.bindArray a.name c, ?_, hready.bindArray hm.names ha (hdeclares.set? hset)⟩
      simp [Machine.store, his, array, hb, bound, hset]

/-- A well-formed equation is resolved to a sound statement. -/
theorem WellFormedEquation.sound (hm : Registered specs m) (hc : Cyclic specs m) {eqn : Equation}
    (h : WellFormedEquation specs m eqn) : ∃ s, m.resolve eqn = .ok s ∧ Sound R specs m s := by
  obtain ⟨target, htarget, hstore⟩ := h.store (R := R) hm hc
  obtain ⟨value, hvalue, heval⟩ := h.value.resolved (R := R) hm hc
  refine ⟨.assign target value, by rw [resolve, htarget, ok_bind, hvalue]; rfl, rfl, ?_, ?_⟩
  · exact .assign (h.target.knows_resolved htarget) (h.value.knows_resolved hvalue)
  · intro T p M hready
    obtain ⟨x, hx⟩ := heval T p M hready
    obtain ⟨M', hM', hready'⟩ := hstore T p M hready x
    rw [run, hx, Outcome.attempt_ok, hM', Outcome.attempt_ok]
    exact hready'

/-- The test of a well-formed guard has a value at every grid point. -/
theorem WellFormedGuard.test (hm : Registered specs m) (hc : Cyclic specs m) {g : Guarded}
    (h : WellFormedGuard specs m g) {test : Expr}
    (htest : test = (g.condition.lhs.replace m.toCounters).equals
      (g.condition.rhs.replace m.toCounters)) : (∀ x ∈ test.nodes, m.entities.Knows x) ∧
      ∀ T p (M : Machine R), Ready specs m T p M → ∃ x, M.eval test = .ok x := by
  have hside : ∀ {e : Expr}, WellFormed specs m e ∧ Flat e →
      (∀ x ∈ (e.replace m.toCounters).nodes, m.entities.Knows x) ∧
        ∀ T p (M : Machine R), Ready specs m T p M →
          ∃ x, M.eval (e.replace m.toCounters) = .ok x := by
    rintro e ⟨he, hflat⟩
    obtain ⟨e', he', heval⟩ := he.resolved (R := R) hm hc
    obtain rfl := Except.ok.inj ((resolveExpr_flat hflat).symm.trans he')
    exact ⟨he.knows_resolved (resolveExpr_flat hflat), heval⟩
  obtain ⟨hknowsLeft, hevalLeft⟩ := hside h.left
  obtain ⟨hknowsRight, hevalRight⟩ := hside h.right
  subst htest
  refine ⟨Expr.nodes_of_binary trivial hknowsLeft hknowsRight, fun T p M hready => ?_⟩
  obtain ⟨x, hx⟩ := hevalLeft T p M hready
  obtain ⟨y, hy⟩ := hevalRight T p M hready
  exact ⟨_, by rw [Expr.equals, eval, hx, hy]; rfl⟩

/-- A well-formed guard is built to a sound statement. -/
theorem WellFormedGuard.sound (hm : Registered specs m) (hc : Cyclic specs m) {g : Guarded}
    (h : WellFormedGuard specs m g) : ∃ s, m.guardedStmt g = .ok s ∧ Sound R specs m s := by
  obtain ⟨hknows, htest⟩ := h.test (R := R) hm hc rfl
  obtain ⟨thenBody, hthen, hthenSound⟩ := h.thenAssign.sound (R := R) hm hc
  cases helse : g.elseAssign? with
  | none =>
    refine ⟨_, by rw [guardedStmt, hthen, ok_bind, helse]; rfl, ?_, ?_, ?_⟩
    · rw [Stmt.loops_when, hthenSound.loops]
    · exact .when hknows hthenSound.knows
    · intro T p M hready
      obtain ⟨x, hx⟩ := htest T p M hready
      rw [run, hx, Outcome.attempt_ok]
      split
      · exact hthenSound.runs T p M hready
      · exact hready
  | some eqn =>
    obtain ⟨elseBody, helseBody, helseSound⟩ := (h.elseAssign eqn helse).sound (R := R) hm hc
    refine ⟨_, by rw [guardedStmt, hthen, ok_bind, helse]; simp only [helseBody]; rfl, ?_, ?_, ?_⟩
    · rw [Stmt.loops_ifElse, hthenSound.loops, helseSound.loops, List.append_nil]
    · exact .ifElse hknows hthenSound.knows helseSound.knows
    · intro T p M hready
      obtain ⟨x, hx⟩ := htest T p M hready
      rw [run, hx, Outcome.attempt_ok]
      split
      · exact hthenSound.runs T p M hready
      · exact helseSound.runs T p M hready

omit [ExactIntegers R] in
/-- Sound statements make a sound block. -/
theorem Sound.block {ss : List Stmt} (h : ∀ s ∈ ss, Sound R specs m s) :
    Sound R specs m (.block ss) := by
  refine ⟨?_, .block fun s hs => (h s hs).knows, fun T p M hready => ?_⟩
  · rw [Stmt.loops_block, List.flatMap_eq_nil_iff]
    exact fun s hs => (h s hs).loops
  · rw [run]
    induction ss generalizing M with
    | nil => exact hready
    | cons s ss ih =>
      refine ((h s (by simp)).runs T p M hready).andThen fun M' hready' => ?_
      exact ih (fun s hs => h s (by simp [hs])) M' hready'

section Nest

omit R [Arithmetic R] [ExactIntegers R]

theorem knows_int {u : Entities} (n : Int64) : ∀ x ∈ (Expr.int n).nodes, u.Knows x :=
  Expr.nodes_of_leaf rfl trivial

/-- The time loop runs between literals. -/
theorem timeBounds_literals {bounds : Bounds} (h : m.timeBounds = .ok bounds) :
    ∃ lower upper step, bounds = ⟨.int lower, .int upper, step⟩ := by
  unfold timeBounds at h
  dsimp only at h
  split at h
  · obtain ⟨w, -, h⟩ := bind_eq_ok.1 h
    exact ⟨_, _, _, (Except.ok.inj h).symm⟩
  · obtain ⟨w, -, h⟩ := bind_eq_ok.1 h
    exact ⟨_, _, _, (Except.ok.inj h).symm⟩

/-- The statements that advance the slots mention slots only. -/
theorem knows_advanceSlots {s : Stmt} (hs : s ∈ m.advanceSlots) : m.entities.KnowsAll s := by
  obtain ⟨hring, n, hn, rfl⟩ := mem_advanceSlots_iff.1 hs
  have hslot : ∀ j ≤ m.order.toNat, m.entities.Knows (.scalar (slotScalar j)) := fun j hj =>
    List.mem_append_right _ (mem_slotScalars hring hj)
  have hknows : ∀ e ∈ (m.advanceSlot n).exprs, ∀ x ∈ e.nodes, m.entities.Knows x := fun e he =>
    nodes_advanceSlot trivial hslot (fun _ => trivial) (fun _ _ _ => trivial) hn he
  exact .assign (hknows _ (by simp [advanceSlot, Stmt.exprs]))
    (hknows _ (by simp [advanceSlot, Stmt.exprs]))

/-- A loop nest mentions what the statements of a grid point do, and the slots, which it declares.
-/
theorem knows_loopNest (hm : Configured specs m) {point body : Stmt}
    (h : m.loopNest point = .ok body) (hpoint : m.entities.KnowsAll point) :
    m.entities.KnowsAll body ∧ ∀ s ∈ m.slotScalars, s.name ∈ body.declaredNames := by
  obtain ⟨bounds, hbounds, h⟩ := bind_eq_ok.1 h
  obtain rfl := Except.ok.inj h
  obtain ⟨lower, upper, step, rfl⟩ := timeBounds_literals hbounds
  have hloop : ∀ (d : Dimension) lower upper step order s, ∀ e ∈
      (Stmt.loop ⟨d, ⟨.int lower, .int upper, step⟩, [], order⟩ s).exprs, ∀ n ∈ e.nodes,
      m.entities.Knows n := by
    intro d lower upper step order s e he
    simp only [Stmt.exprs, List.flatMap_nil, List.mem_cons, List.not_mem_nil, or_false] at he
    rcases he with rfl | rfl
    · exact knows_int lower
    · exact knows_int upper
  have hspace : m.entities.KnowsAll (point.nest m.spaceHeads) := by
    refine hpoint.nest fun head hhead => ?_
    obtain ⟨⟨d, bounds⟩, hp, rfl⟩ := List.mem_map.1 hhead
    have hin := (List.of_mem_zip hp).2
    rw [hm.spaceBounds] at hin
    obtain ⟨extent, -, rfl⟩ := List.mem_map.1 hin
    exact hloop d _ _ _ _ point
  have hstep : m.entities.KnowsAll (.block (m.advanceSlots ++ [point.nest m.spaceHeads])) := by
    refine .block fun s hs => ?_
    rcases List.mem_append.1 hs with hs | hs
    · exact knows_advanceSlots hs
    · rw [List.mem_singleton.1 hs]
      exact hspace
  constructor
  · refine .block fun s hs => ?_
    rcases List.mem_append.1 hs with hs | hs
    · obtain ⟨t, -, rfl⟩ := List.mem_map.1 hs
      exact .declare t
    · rw [List.mem_singleton.1 hs]
      have htime : ∀ head ∈ [(⟨m.timeCounter, ⟨.int lower, .int upper, step⟩, [],
          .sequential⟩ : LoopHead)], ∀ e ∈ (Stmt.loop head (.block (m.advanceSlots ++
          [point.nest m.spaceHeads]))).exprs, ∀ n ∈ e.nodes, m.entities.Knows n := by
        intro head hhead
        rw [List.mem_singleton.1 hhead]
        exact hloop _ _ _ _ _ _
      exact hstep.nest htime
  · intro t ht
    exact Stmt.declaredNames_block.2 ⟨.declare t, by simp [ht], Stmt.mem_declaredNames_declare t⟩

end Nest

theorem mapM_instantiate {symbols : List String} {equations : List Equation}
    {rows : List (List Expr)} {updates : List Stmt}
    (h : List.Forall₂ (fun p s => m.instantiate symbols p.1 p.2 = .ok s) (equations.zip rows)
      updates) :
    (equations.zip rows).mapM (fun (eqn, row) => m.instantiate symbols eqn row) = .ok updates :=
  mapM_eq_ok.2 h

/-- The statements of a grid point that a well-formed source is built to are sound. -/
theorem WellFormedSource.point (hm : Registered specs m) (hc : Cyclic specs m)
    {symbols : List String} {equations : List Equation} {rows : List (List Expr)}
    (h : WellFormedSource specs m symbols equations rows) : ∃ point,
      m.build symbols equations rows = m.loopNest point ∧ Sound R specs m point := by
  have hguards : ∀ gs : List Guarded, (∀ g ∈ gs, g ∈ m.before ++ m.after) →
      ∃ ss, gs.mapM m.guardedStmt = .ok ss ∧ ∀ s ∈ ss, Sound R specs m s := by
    intro gs hgs
    obtain ⟨ss, hss⟩ := exists_forall₂ fun g hg => (h.guards g (hgs g hg)).sound (R := R) hm hc
    refine ⟨ss, mapM_eq_ok.2 (hss.imp fun _ _ hs => hs.1), fun s hs => ?_⟩
    obtain ⟨g, -, -, hsound⟩ := forall₂_mem_right hss hs
    exact hsound
  obtain ⟨before, hbefore, hbeforeSound⟩ := hguards m.before fun g hg => by simp [hg]
  obtain ⟨after, hafter, hafterSound⟩ := hguards m.after fun g hg => by simp [hg]
  obtain ⟨updates, hupdates⟩ := exists_forall₂ fun p hp => (h.updates p hp).sound (R := R) hm hc
  have hinstances : List.Forall₂ (fun p s => m.instantiate symbols p.1 p.2 = .ok s)
      (equations.zip rows) updates := by
    refine (forall₂_mem hupdates).imp ?_
    rintro ⟨eqn, row⟩ s ⟨hp, hs, -⟩
    show m.instantiate symbols eqn row = .ok s
    rw [instantiate, if_pos (h.widths row (List.of_mem_zip hp).2), hs]
  refine ⟨.block (before ++ updates ++ after), ?_, .block fun s hs => ?_⟩
  · rw [build, if_neg (by simp [h.count])]
    simp only [hbefore, mapM_instantiate hinstances, hafter, ok_bind]
  · rcases List.mem_append.1 hs with hs | hs
    · rcases List.mem_append.1 hs with hs | hs
      · exact hbeforeSound s hs
      · obtain ⟨p, -, -, hsound⟩ := forall₂_mem_right hupdates hs
        exact hsound
    · exact hafterSound s hs

omit [Arithmetic R] [ExactIntegers R] in
theorem Supplied.congr {scalars : List Scalar} {M M' : Machine R} (h : m.Supplied scalars M)
    (harrays : M'.arrays = M.arrays)
    (hscalars : ∀ s ∈ scalars, M'.scalars[s.name]? = M.scalars[s.name]?) :
    m.Supplied scalars M' := by
  refine ⟨fun a ha => ?_, fun s hs => ?_⟩
  · rw [harrays]
    exact h.arrays a ha
  · rw [hscalars s hs]
    exact h.scalars s hs

/-- A loop nest around sound statements runs to its end. -/
theorem runs_loopNest (hm : Registered specs m) (hc : Cyclic specs m) {point body : Stmt}
    (hbody : m.loopNest point = .ok body) (hpoint : Sound R specs m point) {M : Machine R}
    (hM : m.Supplied m.valued M) : ∃ M', run body M = .done M' := by
  have hconfigured := hm.invariant.1
  have hkeeps : ∀ M M' : Machine R, m.Supplied m.valued M → M'.arrays = M.arrays →
      (∀ name, m.OffSlots name → M'.scalars[name]? = M.scalars[name]?) →
      m.Supplied m.valued M' := by
    intro M M' hM harrays hscalars
    refine hM.congr harrays fun s hs => hscalars s.name ?_
    exact hc.names _ (registered_of_valued hs)
  have hends := ends_loopNest (F := fun _ _ => False) hconfigured (hc.exact hconfigured) hc.grid
    hbody hpoint.loops (fun _ M => m.Supplied m.valued M)
    (fun _ T _ M => m.During T M ∧ m.Supplied m.valued M) ?_ ?_ ?_ ?_
    (fun M' hdeclared => hkeeps M M' hM hdeclared.arrays hdeclared.scalars)
  · obtain ⟨M', hM', -⟩ := hends.exists_done fun _ _ => id
    exact ⟨M', hM'⟩
  · intro before T after htimes M M' hM hentered
    exact ⟨hentered.during (by simp [htimes]), hkeeps M M' hM hentered.arrays hentered.scalars⟩
  · rintro before T visited M d hd i ⟨hduring, hM⟩
    exact ⟨hduring.bindIndex hconfigured hd i, hM.congr rfl fun _ _ => rfl⟩
  · rintro before T after - visited p rest hpoints M ⟨hduring, hM⟩ hat
    have hready : Ready specs m T p M := ⟨hduring, hM, hat, by simp [hpoints]⟩
    exact (hpoint.runs T p M hready).mono fun M' hM' => ⟨hM'.during, hM'.supplied⟩
  · rintro before T after - M ⟨-, hM⟩
    exact hM

/-- A buffer of the declared shape fits its array. -/
theorem Declares.fits (hm : Registered specs m) (hc : Cyclic specs m) {a : GridArray}
    (ha : a ∈ m.entry.arrays) {b : Buffer R} (hb : Declares a b) (M : Machine R) : M.Fits a b := by
  obtain ⟨save, -, -, hparameter⟩ := forall₂_mem_left hm.invariant.2.arrays ha
  have hlengths : a.shape.length = a.rank := by
    have hrank : (gridDims specs.shape.length).length = specs.shape.length := by
      have hconfigured := hm.invariant.1
      rw [← hconfigured.spaceDims, hconfigured.length_spaceDims]
    rcases hparameter.shape with ⟨hdims, hshape⟩ | ⟨slots, hdims, hshape, -⟩
    · simp [hshape, GridArray.rank, hdims, hrank]
    · simp [hshape, GridArray.rank, hdims, hrank]
  refine ⟨a.shape, GridArray.allocation_eq hlengths fun i e he => ?_, ?_⟩
  · have hhalo : a.halo[i]? = some .none := by
      have hi : i < a.dims.length := by
        have hlt := (List.getElem?_eq_some_iff.1 he).1
        rwa [hlengths] at hlt
      simp [hparameter.halo, hi]
    exact GridArray.allocated_bare hhalo he
  · have hextents := hc.extents a ha
    rw [← hb.shape] at hextents ⊢
    rw [List.forall₂_map_left_iff, List.forall₂_same]
    intro n hn
    obtain ⟨k, hk, hbound⟩ := hextents _ (List.mem_map_of_mem hn)
    obtain rfl := ofSize_inj hk
    exact (Reads.ofSize (by omega)).1

omit R [Arithmetic R] [ExactIntegers R] in
theorem scalar_ne_local (hnames : m.entry.registeredNames.Nodup) {s t : Scalar}
    (hs : s ∈ m.entry.scalars) (ht : t ∈ m.entry.locals) : s.name ≠ t.name := by
  obtain ⟨-, -, hdisjoint⟩ := List.nodup_append'.1 hnames
  intro hname
  have hs : s.name ∈ m.entry.arrays.map GridArray.name ++ m.entry.scalars.map Scalar.name :=
    List.mem_append_right _ (List.mem_map_of_mem hs)
  exact hdisjoint hs (hname ▸ List.mem_map_of_mem ht)

/-- A well-formed source makes a kernel that runs to its end wherever all registered arrays are
bound to buffers of their shapes and all value parameters are bound. -/
theorem wellFormed_completes (hm : Registered specs m) (hc : Cyclic specs m)
    {symbols : List String} {equations : List Equation} {rows : List (List Expr)}
    (hsource : m.source? = some (.equations symbols equations rows))
    (hwell : WellFormedSource specs m symbols equations rows) :
    ∃ e k, m.entryPoint = .ok e ∧ e.toKernel = .ok k ∧
      ∀ M : Machine R, m.Supplied m.entry.scalars M → ∃ M', M.runKernel k = .done M' := by
  have hconfigured := hm.invariant.1
  obtain ⟨point, hbuild, hpoint⟩ := hwell.point (R := R) hm hc
  obtain ⟨bounds, hbounds, -⟩ := makes_times (R := R) (hc.exact hconfigured)
  obtain ⟨body, hbody⟩ : ∃ body, m.loopNest point = .ok body :=
    ⟨_, by rw [loopNest, hbounds]; rfl⟩
  obtain ⟨hknows, hdeclared⟩ := knows_loopNest hconfigured hbody hpoint.knows
  have hfresh : (m.entry.withBody body).Fresh m.slotScalars := by
    refine ⟨?_, fun s hs hname => hc.names s.name hname s hs rfl⟩
    unfold slotScalars
    split
    · rw [List.map_map]
      exact List.Nodup.map (fun i j => slotScalar_inj) List.nodup_range
    · exact List.nodup_nil
  have hnames : (m.entry.withBody body).registeredNames.Nodup := hm.names
  have hkernel := EntryPoint.toKernel_of_knowsAll rfl hnames hfresh hdeclared hknows
  have hentry : m.entryPoint = .ok (m.entry.withBody body) := by
    rw [entryPoint, hsource]
    simp only [hbuild, hbody]
    rfl
  refine ⟨_, _, hentry, hkernel, fun M hM => ?_⟩
  obtain ⟨M₁, hlocals, hlocal⟩ := run_declares m.entry.locals M.idle
  have hsupplied : m.Supplied m.valued M₁ := by
    refine ⟨fun a ha => by rw [hlocal.arrays]; exact hM.arrays a ha, fun s hs => ?_⟩
    rcases List.mem_append.1 hs with hs | hs
    · rw [hlocal.scalars s.name fun t ht => (scalar_ne_local hm.names hs ht).symm]
      exact hM.scalars s hs
    · exact hlocal.bound s hs
  obtain ⟨M₂, hrun⟩ := runs_loopNest hm hc hbody hpoint hsupplied
  refine ⟨M₂, ?_⟩
  have hviews : ∀ a ∈ m.entry.arrays, ∃ b, M₁.arrays[a.name]? = some b ∧ M₁.Fits a b := by
    intro a ha
    obtain ⟨b, hb, hdeclares⟩ := hsupplied.arrays a ha
    exact ⟨b, hb, hdeclares.fits hm hc ha M₁⟩
  show run (m.entry.statements body) M.idle = .done M₂
  rw [EntryPoint.statements, run, List.append_assoc, runAll_append, hlocals, Outcome.done_andThen,
    runAll_views m.entry.arrays [body] hviews, runAll_singleton, hrun]

def shiftSpecs : Specs := { name := "shift", steps := 3, shape := [4], border := 1, order := 1 }

/-- Every cell takes the value that its neighbour had a step before. -/
def shift : Equation :=
  ⟨.access ringLine [.dim ⟨"t", .time⟩, .dim ⟨"x", .spatial⟩],
    .access ringLine [.binary .sub (.dim ⟨"t", .time⟩) (.int 1),
      .binary .add (.dim ⟨"x", .spatial⟩) (.int 1)]⟩

def ringBuffer : Buffer Binary64 := ⟨[2, 4], Array.replicate 8 (Binary64.ofInt 1)⟩

theorem exists_shift :
    ∃ m, Registered shiftSpecs m ∧ m.source? = some (.equations [] [shift] [[]]) ∧
      m.entry.arrays = [ringLine] ∧ m.entry.scalars = [] ∧ m.entry.registeredNames = ["v"] ∧
      m.isRinged "v" ∧ m.slotScalars = [slotScalar 0, slotScalar 1] ∧ m.before ++ m.after = [] := by
  have hm : Registered shiftSpecs _ := .source (.equations [] [shift] [[]])
    (.array (.start rfl) (rfl : addArray _ "v" [2, 4] .float64 false = .ok _))
  exact ⟨_, hm, rfl, rfl, rfl, rfl, rfl, rfl, rfl⟩

theorem wellFormed_completes_shift :
    ∃ m e k, Registered shiftSpecs m ∧ m.source? = some (.equations [] [shift] [[]]) ∧
      m.entryPoint = .ok e ∧ e.toKernel = .ok k ∧
      ∃ M', (({} : Machine Binary64).bindArray "v" ringBuffer).runKernel k = .done M' := by
  obtain ⟨m, hm, hsource, harrays, hscalars, hnames, hring, hslots, hguards⟩ := exists_shift
  have hconfigured := hm.invariant.1
  have htime : m.timeDim = ⟨"t", .time⟩ := hconfigured.timeDim
  have hspace : m.spaceDims = [⟨"x", .spatial⟩] := hconfigured.spaceDims
  have horder : m.order = 1 := hconfigured.order
  have hforward : m.forward = true := hconfigured.forward
  have hc : Cyclic shiftSpecs m := by
    refine ⟨by decide, by simp [shiftSpecs], ?_, ?_, ?_⟩
    · rw [harrays]
      intro a ha e he
      obtain rfl := List.mem_singleton.1 ha
      have hextent : e = .int 2 ∨ e = .int 4 := by simpa [ringLine] using he
      rcases hextent with rfl | rfl
      · exact ⟨2, rfl, by decide⟩
      · exact ⟨4, rfl, by decide⟩
    · rw [harrays]
      intro a ha _
      obtain rfl := List.mem_singleton.1 ha
      exact hring
    · rw [hnames]
      intro name hname s hs
      obtain rfl := List.mem_singleton.1 hname
      rw [hslots] at hs
      revert s
      decide
  have hreference : ∀ e es k, e.offset? = .ok (some (⟨"t", .time⟩, k)) → m.InRing k →
      List.Forall₂ shiftSpecs.Near es [⟨"x", .spatial⟩] →
      WellFormed shiftSpecs m (.access ringLine (e :: es)) := by
    intro e es k he hk hes
    refine .access (by simp [harrays]) ?_
    have hdims : ringLine.dims = m.timeDim :: m.spaceDims := by
      rw [htime, hspace]
      rfl
    rw [hdims]
    exact .timed (by rw [htime]; exact he) hk (by rw [hspace]; exact hes)
  have hwell : WellFormedSource shiftSpecs m [] [shift] [[]] := by
    refine ⟨rfl, by simp, ?_, by simp [hguards]⟩
    intro p hp
    obtain rfl := List.mem_singleton.1 hp
    have hring : ∀ k : Int64, k.toInt = 0 ∨ k.toInt = -1 → m.InRing k := by
      intro k hk
      rw [InRing, slotIndex, if_pos hforward, horder]
      have hone : (1 : UInt64).toNat = 1 := rfl
      omega
    exact ⟨hreference _ _ 0 rfl (hring 0 (by decide)) (.cons ⟨0, rfl, by decide⟩ .nil),
      .inr ⟨_, _, rfl⟩,
      hreference _ _ (-1) rfl (hring (-1) (by decide)) (.cons ⟨1, rfl, by decide⟩ .nil)⟩
  obtain ⟨e, k, he, hk, hruns⟩ := wellFormed_completes (R := Binary64) hm hc hsource hwell
  refine ⟨m, e, k, hm, hsource, he, hk, hruns _ ⟨?_, ?_⟩⟩
  · rw [harrays]
    intro a ha
    obtain rfl := List.mem_singleton.1 ha
    exact ⟨ringBuffer, by simp [ringLine], rfl, rfl⟩
  · rw [hscalars]
    simp

end GridKernel.March
