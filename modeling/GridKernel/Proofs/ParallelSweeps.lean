import GridKernel.Proofs.Coverage
import GridKernel.Proofs.EntryPoints
import GridKernel.Proofs.Places
import GridKernel.Proofs.Refinement
import GridKernel.Proofs.Sweeps

/-! Parallel sweeps. Updates that set the place of the current point, and find what is written only
there or in rows of other times, leave the same arrays whatever the order of the grid points. -/
namespace GridKernel

namespace Machine

variable {R : Type} [Arithmetic R] {written : String → Prop} {same : String → List Int64 → Prop}
  {m m' : Machine R}

mutual

/-- Machines with the same values in the cells that an expression finds in written arrays give it
the same value. -/
theorem Resembles.eval_seen (h : m.Resembles written same m')
    (hindices : ∀ name : String, m.indices[name]? = m'.indices[name]?) : (e : Expr) →
    (∀ b fs, .access b fs ∈ e.nodes → written b.name → ∀ is, m.evalIndices fs = .ok is →
      same b.name is) → m.eval e = m'.eval e
  | .int _, _ | .float _, _ | .symbol _, _ => rfl
  | .scalar s, _ => by rw [Machine.eval, Machine.eval, h.scalars]
  | .dim d, _ => by rw [Machine.eval, Machine.eval, hindices]
  | .size name, _ => by rw [Machine.eval, Machine.eval, h.sizes]
  | .access a es, hseen => by
    have hes := Resembles.evalIndices_seen h hindices es fun b fs hb =>
      hseen b fs (by simp [Expr.nodes, hb])
    have hcell := hseen a es (by simp [Expr.nodes])
    simp only [Machine.eval, ← hes]
    cases his : m.evalIndices es with
    | error e => rfl
    | ok is =>
      by_cases ha : written a.name
      · have hcells := h.cells a.name is (hcell ha is his)
        have htwins := h.twins a.name
        unfold cell? at hcells
        simp only [array, ok_bind]
        generalize m.arrays[a.name]? = b?, m'.arrays[a.name]? = c? at hcells htwins
        cases htwins with
        | none => rfl
        | some htwins =>
          simp only [Option.bind_some] at hcells
          simp only [bound, ok_bind, hcells, outside, htwins.dims]
      · simp only [array, h.arrays a.name ha]
  | .neg e, hseen => by
    have he := Resembles.eval_seen h hindices e fun b fs hb => hseen b fs (by simp [Expr.nodes, hb])
    rw [Machine.eval, Machine.eval, he]
  | .binary op l r, hseen => by
    have hl := Resembles.eval_seen h hindices l fun b fs hb => hseen b fs (by simp [Expr.nodes, hb])
    have hr := Resembles.eval_seen h hindices r fun b fs hb => hseen b fs (by simp [Expr.nodes, hb])
    rw [Machine.eval, Machine.eval, hl, hr]
termination_by structural e => e

theorem Resembles.evalIndices_seen (h : m.Resembles written same m')
    (hindices : ∀ name : String, m.indices[name]? = m'.indices[name]?) : (es : List Expr) →
    (∀ b fs, .access b fs ∈ Expr.nodesAll es → written b.name → ∀ is, m.evalIndices fs = .ok is →
      same b.name is) → m.evalIndices es = m'.evalIndices es
  | [], _ => rfl
  | e :: es, hseen => by
    have he := Resembles.eval_seen h hindices e fun b fs hb =>
      hseen b fs (by simp [Expr.nodesAll, hb])
    have hes := Resembles.evalIndices_seen h hindices es fun b fs hb =>
      hseen b fs (by simp [Expr.nodesAll, hb])
    rw [Machine.evalIndices, Machine.evalIndices, he, hes]
termination_by structural es => es

end

end Machine

namespace March

open Machine

variable {m : March} {specs : Specs} {timed : String → Bool} {written : String → Prop} {T : Int}
  {p q : List Int64} {ss : List Stmt} {same : String → List Int64 → Prop}

/-- An array that one of some equations sets. -/
def Written (eqns : List Equation) (name : String) : Prop :=
  ∃ eqn ∈ eqns, ∃ a es, eqn.lhs = .access a es ∧ a.name = name

/-- An equation sets an array at the current point, and reads written arrays there or at another
time. -/
structure Pointwise (m : March) (timed : String → Bool) (written : String → Prop)
    (eqn : Equation) : Prop where
  target : ∃ a es, eqn.lhs = .access a es ∧ m.Here (timed a.name) a es
  reads : ∀ b fs, .access b fs ∈ eqn.rhs.nodes → written b.name →
    m.Here (timed b.name) b fs ∨ timed b.name ∧ m.Elsewhen b fs

/-- A statement sets the place of the current point in a written array, and finds in written arrays
only what may be seen from there. -/
def SetsPlace (R : Type) [Arithmetic R] (specs : Specs) (m : March) (timed : String → Bool)
    (written : String → Prop) (T : Int) (s : Stmt) : Prop :=
  ∃ a es value, s = .assign (.access a es) value ∧ written a.name ∧
    ∀ p ∈ specs.points, ∀ M : Machine R, m.During T M → At M m.spaceCounters p →
      M.evalIndices es = .ok (m.place (timed a.name) a.name T p) ∧
      ∀ b fs, .access b fs ∈ value.nodes → written b.name → ∀ is, M.evalIndices fs = .ok is →
        m.Sees (timed b.name) b.name T p is

/-- The places of a grid point in the written arrays. -/
def Places (m : March) (timed : String → Bool) (written : String → Prop) (T : Int)
    (p : List Int64) (name : String) (is : List Int64) : Prop :=
  written name ∧ is = m.place (timed name) name T p

variable {R : Type} [Arithmetic R]

/-- The machine differs from that at the start of a sweep in counters of the space loops and in the
cells of written arrays only. -/
structure Swept (m : March) (written : String → Prop) (M₀ M : Machine R) : Prop where
  varies : M₀.Varies written M
  indices : ∀ name, ¬ m.Counting name → M.indices[name]? = M₀.indices[name]?

section Swept

variable {M₀ M M' : Machine R}

theorem Swept.during (hm : Configured specs m) (h₀ : m.During T M₀) (h : m.Swept written M₀ M) :
    m.During T M := by
  refine h₀.congr (h.indices _ ?_) fun s _ => by rw [h.varies.scalars]
  rintro ⟨d, hd, hname⟩
  exact timeCounter_ne hm hd hname

omit [Arithmetic R] in
theorem resembles_atPoint (m : March) (M : Machine R) (p : List Int64) :
    M.Resembles written same (m.atPoint M p) := by
  refine ⟨scalars_bindAll .., sizes_bindAll .., fun name _ => ?_, fun name => ?_,
    fun name is _ => ?_⟩
  · rw [March.atPoint, arrays_bindAll]
  · rw [March.atPoint, arrays_bindAll]
    exact rel_refl Buffer.Twins.refl _
  · rw [cell?, cell?, March.atPoint, arrays_bindAll]

omit [Arithmetic R] in
theorem Swept.atPoint (h : m.Swept written M₀ M) (p : List Int64) :
    m.Swept written M₀ (m.atPoint M p) where
  varies := h.varies.trans (resembles_atPoint m M p)
  indices name hname := (indices_atPoint hname M p).trans (h.indices name hname)

end Swept

/-- Two machines at one grid point of a step that resemble each other. -/
structure Together (m : March) (written : String → Prop) (same : String → List Int64 → Prop)
    (T : Int) (p : List Int64) (M M' : Machine R) : Prop where
  resembles : M.Resembles written same M'
  indices : ∀ name : String, M.indices[name]? = M'.indices[name]?
  during : m.During T M
  here : At M m.spaceCounters p

section Point

variable {s : Stmt} {M M' : Machine R} (hp : p ∈ specs.points)

theorem Together.during_right (h : m.Together written same T p M M') : m.During T M' :=
  h.during.congr (h.indices _).symm fun s _ => by rw [h.resembles.scalars]

theorem Together.here_right (h : m.Together written same T p M M') : At M' m.spaceCounters p :=
  h.here.imp fun _ _ hi => (h.indices _).symm.trans hi

include hp

/-- A statement at a grid point changes at most its place in a written array. -/
theorem SetsPlace.ends (hs : SetsPlace R specs m timed written T s) (hduring : m.During T M)
    (hat : At M m.spaceCounters p) : (run s M).machine = M ∨
      ∃ name b c x, written name ∧ M.arrays[name]? = some b ∧
        b.set? (m.place (timed name) name T p) x = some c ∧
        (run s M).machine = M.bindArray name c := by
  obtain ⟨a, es, value, rfl, ha, hplace⟩ := hs
  have hes := (hplace p hp M hduring hat).1
  rw [run]
  cases hx : M.eval value with
  | error e => exact .inl rfl
  | ok x =>
    rw [Outcome.attempt_ok]
    cases hstore : M.store (.access a es) x with
    | error e => exact .inl rfl
    | ok M₁ =>
      obtain ⟨is, b, c, his, hb, hset, rfl⟩ := store_access_eq_ok.1 hstore
      obtain rfl := Except.ok.inj (hes.symm.trans his)
      exact .inr ⟨a.name, b, c, x, ha, hb, hset, rfl⟩

/-- The statement keeps the machine at the grid point. -/
theorem SetsPlace.keeps (hs : SetsPlace R specs m timed written T s) (hduring : m.During T M)
    (hat : At M m.spaceCounters p) : (run s M).machine.indices = M.indices ∧
      m.During T (run s M).machine ∧ At (run s M).machine m.spaceCounters p := by
  rcases hs.ends hp hduring hat with h | ⟨name, b, c, x, -, -, -, h⟩
  · rw [h]
    exact ⟨rfl, hduring, hat⟩
  · rw [h]
    exact ⟨rfl, hduring.bindArray name c, hat⟩

/-- The statement runs alike in machines with the same values in what may be seen. -/
theorem SetsPlace.together (hs : SetsPlace R specs m timed written T s)
    (hsame : ∀ name is, written name → m.Sees (timed name) name T p is → same name is)
    (h : m.Together written same T p M M') :
    (run s M).Alike (m.Together written same T p) (run s M') := by
  obtain ⟨hindices, hduring, hat⟩ := hs.keeps hp h.during h.here
  obtain ⟨hindices', -, -⟩ := hs.keeps hp h.during_right h.here_right
  obtain ⟨a, es, value, rfl, ha, hplace⟩ := hs
  obtain ⟨hes, hreads⟩ := hplace p hp M h.during h.here
  have hes' := (hplace p hp M' h.during_right h.here_right).1
  have hvalue : M.eval value = M'.eval value :=
    h.resembles.eval_seen h.indices value fun b fs hb hwritten is his =>
      hsame b.name is hwritten (hreads b fs hb hwritten is his)
  have hrun : (run (.assign (.access a es) value) M).Alike (Resembles written same)
      (run (.assign (.access a es) value) M') := by
    refine .attempt h.resembles hvalue fun x _ => ?_
    exact h.resembles.store ha (hes.trans hes'.symm) x
  exact ⟨hrun.1, hrun.2, fun name => by rw [hindices, hindices', h.indices], hduring, hat⟩

theorem runAll_together (hss : ∀ s ∈ ss, SetsPlace R specs m timed written T s)
    (hsame : ∀ name is, written name → m.Sees (timed name) name T p is → same name is)
    (h : m.Together written same T p M M') :
    (runAll ss M).Alike (m.Together written same T p) (runAll ss M') := by
  induction ss generalizing M M' with
  | nil => exact Outcome.alike_done.2 h
  | cons s ss ih =>
    refine ((hss s (by simp)).together hp hsame h).andThen fun M M' h => ?_
    exact ih (fun s hs => hss s (by simp [hs])) h

/-- The statements at a grid point change at most its places. -/
theorem runAll_places (hss : ∀ s ∈ ss, SetsPlace R specs m timed written T s)
    (hduring : m.During T M) (hat : At M m.spaceCounters p) :
    M.ChangesOnly (m.Places timed written T p) (runAll ss M).machine ∧
      (runAll ss M).machine.indices = M.indices := by
  have hkeeps : ∀ s ∈ ss, ∀ M', (M.ChangesOnly (m.Places timed written T p) M' ∧
      M'.indices = M.indices) ∧ m.During T M' ∧ At M' m.spaceCounters p →
      (M.ChangesOnly (m.Places timed written T p) (run s M').machine ∧
        (run s M').machine.indices = M.indices) ∧ m.During T (run s M').machine ∧
        At (run s M').machine m.spaceCounters p := by
    rintro s hs M' ⟨⟨hchanges, hindices⟩, hduring, hat⟩
    obtain ⟨hkept, hstep⟩ := (hss s hs).keeps hp hduring hat
    refine ⟨⟨?_, hkept.trans hindices⟩, hstep⟩
    rcases (hss s hs).ends hp hduring hat with h | ⟨name, b, c, x, hname, hb, hset, h⟩
    · rwa [h]
    · rw [h]
      exact hchanges.set hb hset ⟨hname, rfl⟩
  exact (runAll_keeps_each hkeeps ⟨⟨.refl _ _ M, rfl⟩, hduring, hat⟩).1

end Point

section Sweep

variable (hm : Configured specs m) (hgrid : ∀ extent ∈ specs.shape, extent.toNat < 2 ^ 53)
  {M₀ : Machine R} (h₀ : m.During T M₀)
  (hss : ∀ s ∈ ss, SetsPlace R specs m timed written T s)
include hm hgrid h₀ hss

/-- A visit of a grid point changes at most the places of the point. -/
theorem visit_touches (hp : p ∈ specs.points) :
    Touches (m.Swept written M₀) written (m.Places timed written T p)
      fun M => run (.block ss) (m.atPoint M p) := by
  have hat := fun M : Machine R => at_atPoint hm (length_of_mem_points hm hgrid hp) M
  have hplaces : ∀ M, m.Swept written M₀ M →
      (m.atPoint M p).Resembles written (fun name is => ¬ m.Places timed written T p name is)
        (run (.block ss) (m.atPoint M p)).machine ∧
      (run (.block ss) (m.atPoint M p)).machine.indices = (m.atPoint M p).indices := by
    intro M hM
    obtain ⟨hchanges, hindices⟩ := runAll_places hp hss ((hM.atPoint p).during hm h₀) (hat M)
    exact ⟨Resembles.mono hchanges (fun name ⟨is, his⟩ => his.1) fun _ _ => id, hindices⟩
  constructor
  · intro M hM
    obtain ⟨hchanges, hindices⟩ := hplaces M hM
    have hswept := hM.atPoint p
    refine ⟨hswept.varies.trans hchanges.varies, fun name hname => ?_⟩
    rw [hindices, hswept.indices name hname]
  · intro M hM
    exact (resembles_atPoint m M p).trans (hplaces M hM).1

/-- A visit of a grid point goes alike in machines with the same values in what may be seen. -/
theorem visit_goesAlike (hp : p ∈ specs.points)
    (hsame : ∀ name is, written name → m.Sees (timed name) name T p is → same name is) :
    GoesAlike (m.Swept written M₀) written same fun M => run (.block ss) (m.atPoint M p) := by
  intro M M' hM hM' h
  have hlength := length_of_mem_points hm hgrid hp
  have hat := at_atPoint hm hlength M
  have htogether : m.Together written same T p (m.atPoint M p) (m.atPoint M' p) := by
    refine ⟨?_, fun name => ?_, (hM.atPoint p).during hm h₀, hat⟩
    · exact ((resembles_atPoint m M p).symm.trans h).trans (resembles_atPoint m M' p)
    · by_cases hname : m.Counting name
      · obtain ⟨d, hd, rfl⟩ := hname
        exact hat.same (at_atPoint hm hlength M') hd
      · rw [(hM.atPoint p).indices name hname, (hM'.atPoint p).indices name hname]
  obtain ⟨hfault, hends⟩ := runAll_together hp hss hsame htogether
  exact ⟨hfault, hends.resembles⟩

/-- Visits of different grid points are independent. -/
theorem visits_independent (hp : p ∈ specs.points) (hq : q ∈ specs.points) (hpq : p ≠ q) :
    Independent (m.Swept written M₀) written (fun _ _ => True)
      (fun M => run (.block ss) (m.atPoint M p)) fun M => run (.block ss) (m.atPoint M q) := by
  have hunseen : ∀ {p q}, p ≠ q → ∀ name is, written name → m.Sees (timed name) name T p is →
      ¬ m.Places timed written T q name is := by
    rintro p q hpq name is - hsees ⟨-, rfl⟩
    exact hpq hsees.eq.symm
  refine ⟨_, _, visit_touches hm hgrid h₀ hss hp, visit_touches hm hgrid h₀ hss hq,
    visit_goesAlike hm hgrid h₀ hss hp (hunseen hpq),
    visit_goesAlike hm hgrid h₀ hss hq (hunseen hpq.symm), fun name is _ => ?_⟩
  by_contra hboth
  simp only [not_or, not_not] at hboth
  obtain ⟨⟨-, hplace⟩, -, hplace'⟩ := hboth
  exact hpq (place_inj (hplace.symm.trans hplace'))

/-- A sweep over the grid points in another order ends with the same arrays. -/
theorem sweep_permuted {order : List (List Int64)} (hperm : order.Perm specs.points) :
    (m.sweep (.block ss) specs.points M₀).Follows (SameOff m.Counting)
      (m.sweep (.block ss) order M₀) := by
  have hstart : m.Swept written M₀ M₀ := ⟨.refl _ _ M₀, fun _ _ => rfl⟩
  have hkeeps : ∀ p ∈ specs.points, ∀ M, m.Swept written M₀ M →
      m.Swept written M₀ (run (.block ss) (m.atPoint M p)).machine :=
    fun p hp => (visit_touches hm hgrid h₀ hss hp).keeps
  have hmatches : Matches written (fun _ _ => True) (m.sweep (.block ss) specs.points M₀)
      (m.sweep (.block ss) order M₀) :=
    sequence_matches hperm.symm hkeeps
      (fun p hp => visit_goesAlike hm hgrid h₀ hss hp fun _ _ _ _ => trivial)
      ((Specs.nodup_points hgrid).imp_of_mem fun hp hq hpq =>
        visits_independent hm hgrid h₀ hss hp hq hpq) hstart
  intro hnone
  have hsame := hmatches.2 hnone
  have hfirst := sequence_keeps hkeeps hstart
  have hsecond := sequence_keeps (fun p hp => hkeeps p (hperm.mem_iff.1 hp)) hstart
  refine ⟨hmatches.1.1 hnone, fun name => (hsame.array_eq fun _ => trivial).symm, fun name => ?_,
    fun name => ?_, fun name hname => ?_⟩
  · rw [hsame.scalars]
  · rw [hsame.sizes]
  · exact (hfirst.indices name hname).trans (hsecond.indices name hname).symm

end Sweep

/-- A kernel that visits the grid points of every step in the order given for its time. -/
def runSweeps (m : March) (point : Stmt) (orders : Int → List (List Int64)) (M : Machine R) :
    Outcome R :=
  (runAll (m.entry.locals.map .declare ++ m.entry.arrays.map .view) M.idle).andThen
    (m.sweeps point orders)

variable [ExactIntegers R]

section March

variable (hm : Configured specs m) (hexact : m.steps.toNat + m.order.toNat < 2 ^ 53)
  (hgrid : ∀ extent ∈ specs.shape, extent.toNat < 2 ^ 53)
include hm hexact hgrid

/-- A pointwise equation is resolved to a statement that sets the place of the current point. -/
theorem Pointwise.resolved {eqn : Equation} (h : m.Pointwise timed written eqn)
    (hwritten : ∀ a es, eqn.lhs = .access a es → written a.name) (hT : T ∈ m.times) {s : Stmt}
    (hs : m.resolve eqn = .ok s) : SetsPlace R specs m timed written T s := by
  obtain @⟨target, value, htarget, hvalue⟩ := resolve_eq_ok.1 hs
  obtain ⟨a, es, hlhs, hhere⟩ := h.target
  rw [← resolveExpr_eq_ok, hlhs, resolveExpr_access] at htarget
  obtain ⟨slotted, hslots, htarget⟩ := bind_eq_ok.1 htarget
  obtain rfl := Except.ok.inj htarget
  refine ⟨a, _, value, rfl, hwritten a es hlhs, fun p hp M hduring hat => ⟨?_, ?_⟩⟩
  · exact hhere.evaluates hm hexact hgrid hslots hduring hp hat
  · intro b gs hb hname is his
    obtain ⟨fs, slotted', hfs, hslots', rfl⟩ := access_of_resolveExpr (resolveExpr_eq_ok.2 hvalue) hb
    rcases h.reads b fs hfs hname with hsame | ⟨htimed, hother⟩
    · have hplace := hsame.evaluates hm hexact hgrid hslots' hduring hp hat
      exact .inl (Except.ok.inj (his.symm.trans hplace))
    · exact .inr ⟨htimed, hother.evaluates hm hexact hslots' hT hduring his⟩

/-- Sweeps in any orders end with the same arrays as those in the order of the space loops. -/
theorem sweeps_permuted (hss : ∀ T ∈ m.times, ∀ s ∈ ss, SetsPlace R specs m timed written T s)
    {orders : Int → List (List Int64)} (horders : ∀ T ∈ m.times, (orders T).Perm specs.points)
    (M : Machine R) : (m.sweeps (.block ss) (fun _ => specs.points) M).Follows (SameOff m.Counting)
      (m.sweeps (.block ss) orders M) := by
  obtain ⟨M', hdeclares, -⟩ := run_declares m.slotScalars M
  rw [sweeps, sweeps, hdeclares, Outcome.done_andThen, Outcome.done_andThen]
  refine Outcome.sequence_follows (fun T hT N N' h => ?_) (.refl _ M')
  obtain ⟨N₁, henter, hentered⟩ := run_enter hexact hT N
  change m.enter T N = .done N₁ at henter
  obtain ⟨hfault, hsame⟩ := enter_alike hm T h
  rw [henter] at hfault hsame
  rw [henter, Outcome.done_andThen, Outcome.andThen_of_none hfault.symm]
  have hlengths : ∀ p ∈ orders T, m.spaceCounters.length = p.length :=
    fun p hp => length_of_mem_points hm hgrid ((horders T hT).mem_iff.1 hp)
  exact (sweep_permuted hm hgrid (hentered.during hT) (hss T hT) (horders T hT)).trans
    SameOff.trans (sweep_follows hm hlengths hsame)

end March

/-- The space loops of a march are parallel: where every equation sets an array at the current point
and reads written arrays there or at other times, a kernel that runs to its end would do so with the
grid points of every step in any other order, and leave the same arrays. Times and positions stay
among the integers that are exact. -/
theorem spaceLoops_parallel (hm : Registered specs m)
    (hexact : specs.steps.toNat + specs.order.toNat < 2 ^ 53)
    (hgrid : ∀ extent ∈ specs.shape, extent.toNat < 2 ^ 53)
    (hguards : m.before = [] ∧ m.after = []) {symbols : List String} {equations : List Equation}
    {rows : List (List Expr)} (hsource : m.source? = some (.equations symbols equations rows))
    (hequations : ∀ eqn ∈ instances symbols equations rows,
      m.Pointwise timed (Written (instances symbols equations rows)) eqn)
    {e : EntryPoint} {k : Kernel} (he : m.entryPoint = .ok e) (hk : e.toKernel = .ok k)
    {M M' : Machine R} (hrun : M.runKernel k = .done M') :
    ∃ ss, m.pointStmts symbols equations rows = .ok ss ∧
      ∀ orders : Int → List (List Int64), (∀ T ∈ m.times, (orders T).Perm specs.points) →
        ∃ M'', m.runSweeps (.block ss) orders M = .done M'' ∧
          ∀ name : String, M''.arrays[name]? = M'.arrays[name]? := by
  have hconfigured := hm.invariant.1
  rw [← hconfigured.steps, ← hconfigured.order] at hexact
  obtain ⟨ss, body, -, hss, hbody, rfl⟩ := entryPoint_eq_ok hsource he
  refine ⟨ss, hss, fun orders horders => ?_⟩
  have hsets : ∀ T ∈ m.times, ∀ s ∈ ss,
      SetsPlace R specs m timed (Written (instances symbols equations rows)) T s := by
    intro T hT s hs
    obtain ⟨eqn, heqn, hresolve⟩ := forall₂_mem_right (pointStmts_of_unguarded hguards hss) hs
    exact (hequations eqn heqn).resolved hconfigured hexact hgrid
      (fun a es hlhs => ⟨eqn, heqn, a, es, hlhs, rfl⟩) hT hresolve
  have hfollows : (M.runKernel k).Follows (SameOff m.Counting)
      (m.runSweeps (.block ss) orders M) := by
    rw [runKernel, EntryPoint.body_of_toKernel rfl hk, EntryPoint.statements, run, runAll_append]
    refine Outcome.Follows.andThen (S := Eq) (fun hnone => ⟨hnone, rfl⟩) fun N N' h => ?_
    obtain rfl := h
    rw [runAll_singleton]
    exact (loopNest_follows hconfigured hexact hgrid hbody (loops_pointStmts hss) N).trans
      SameOff.trans (sweeps_permuted hconfigured hexact hgrid hsets horders N)
  obtain ⟨hnone, hsame⟩ := hfollows (by rw [hrun]; rfl)
  refine ⟨(m.runSweeps (.block ss) orders M).machine, ?_, fun name => ?_⟩
  · rw [Outcome.done, ← hnone]
  · rw [← hsame.arrays name, hrun]
    rfl

/-- The update of a line by its neighbours a step before is pointwise. -/
theorem pointwise_neighboursAt (hm : Registered linesSpecs m) {name : String} {rows : Int64} :
    m.Pointwise (fun _ => true) written (neighboursAt (line name rows)) := by
  have hconfigured := hm.invariant.1
  have htime : m.timeDim = ⟨"t", .time⟩ := hconfigured.timeDim
  have hspace : m.spaceDims = [⟨"x", .spatial⟩] := hconfigured.spaceDims
  have hdims : (line name rows).dims = m.axes true := by rw [axes, htime, hspace]; rfl
  constructor
  · refine ⟨_, _, rfl, hdims, ?_⟩
    rw [axes, htime, hspace]
    exact .cons rfl (.cons rfl .nil)
  · intro b fs hb _
    have hprevious : ∀ x, m.Elsewhen (line name rows)
        [.binary .sub (.dim ⟨"t", .time⟩) (.int 1), x] := by
      refine fun x => .offset hdims (k := -1) (by rw [htime]; rfl) (by decide) fun _ => ?_
      refine ⟨by decide, fun T hT => ?_⟩
      have hbounds := mem_times hT
      rw [hconfigured.steps, hconfigured.order] at hbounds
      have hlast : T < 3 := by
        refine hbounds.2.trans_le ?_
        split <;> decide
      have hminus : (-1 : Int64).toInt = -1 := rfl
      omega
    simp only [neighboursAt, neighbours, Template.expr, Expr.nodes, Expr.nodesAll,
      List.append_nil, List.cons_append, List.nil_append, List.mem_cons, List.not_mem_nil,
      reduceCtorEq, false_or, or_false, Expr.access.injEq] at hb
    rcases hb with ⟨rfl, rfl⟩ | ⟨rfl, rfl⟩
    · exact .inr ⟨rfl, hprevious _⟩
    · exact .inr ⟨rfl, hprevious _⟩

theorem spaceLoops_parallel_lines :
    ∃ m e k M ss M', Registered linesSpecs m ∧ m.entryPoint = .ok e ∧ e.toKernel = .ok k ∧
      linesMachine.runKernel k = .done M ∧
      m.runSweeps (.block ss) (fun _ => linesSpecs.points.reverse) linesMachine = .done M' ∧
      ∀ name : String, M'.arrays[name]? = M.arrays[name]? := by
  obtain ⟨m, hm, -, hguards, hsource, e, k, M, he, hk, hrun⟩ := exists_lines
  let updates := [neighboursAt (line "u" 3), neighboursAt (line "v" 2)]
  have hinstances : instances [] updates [[], []] = updates := rfl
  have hequations : ∀ eqn ∈ instances [] updates [[], []],
      m.Pointwise (fun _ => true) (Written (instances [] updates [[], []])) eqn := by
    rw [hinstances]
    intro eqn heqn
    simp only [updates, List.mem_cons, List.not_mem_nil, or_false] at heqn
    rcases heqn with rfl | rfl
    · exact pointwise_neighboursAt hm
    · exact pointwise_neighboursAt hm
  obtain ⟨ss, -, horders⟩ := spaceLoops_parallel hm (by decide) (by simp [linesSpecs]) hguards
    hsource hequations he hk hrun
  obtain ⟨M', hM', harrays⟩ := horders (fun _ => linesSpecs.points.reverse) fun _ _ =>
    List.reverse_perm _
  exact ⟨m, e, k, M, ss, M', hm, he, hk, hrun, hM', harrays⟩

end March
end GridKernel
