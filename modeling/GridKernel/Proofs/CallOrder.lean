import GridKernel.Proofs.Registrations

/-! Calls of different kinds in any order. A registration neither reads nor writes the steps and the
source of a march, and these neither read nor write what is registered. So a kernel is built as if
all registrations came first, and its statements are placed with the rings of all of them. -/
namespace GridKernel.March

variable {m : March} {specs : Specs}

/-- What the statements of a grid point are built from. -/
structure Plan where
  before : List Guarded
  after : List Guarded
  source? : Option Source

def plan (m : March) : Plan := ⟨m.before, m.after, m.source?⟩

def withPlan (m : March) (p : Plan) : March :=
  { m with before := p.before, after := p.after, source? := p.source? }

theorem withPlan_plan (m : March) : m.withPlan m.plan = m := rfl

/-- The source that a call sets. -/
def Call.source? : Call → Option Source
  | guarded _ _ => none
  | source s => some s

namespace Session

/-- A call after whose refusal the caller goes on. -/
def tolerate {α : Type} (s : Session α) : Session Unit := ExceptT.mk do
  match ← s.run with
  | .ok _ => return .ok ()
  | .error (.cause _) => return .ok ()
  | .error e => return .error e

end Session

/-- Calls on a march before its entry point is asked for. -/
inductive Command where
  | register (c : Registration)
  | call (c : Call)

namespace Registration

/-- The march that a registration leaves behind. A refused one leaves it as it was. -/
def kept (m : March) (c : Registration) : Result March :=
  match c.transition m with
  | .ok (next, _) => .ok next
  | .error (.cause _) => .ok m
  | .error e => .error e

theorem call_tolerate (m : March) (c : Registration) :
    (Session.tolerate c.perform).call m = settle m ((·, ()) <$> c.kept m) := by
  have hcall := c.call_perform m
  unfold Session.call at hcall ⊢
  unfold Session.tolerate kept
  rw [ExceptT.run_mk, StateT.run_bind, hcall]
  cases c.transition m with
  | ok p => rfl
  | error e => cases e <;> rfl

/-- A registration passes over the steps and the source. -/
theorem transition_withPlan (m : March) (p : Plan) (c : Registration) :
    c.transition (m.withPlan p) = Prod.map (·.withPlan p) id <$> c.transition m := by
  have hentry : (m.withPlan p).entry = m.entry := rfl
  cases c with
  | array name shape element save =>
    have hrequest : (m.withPlan p).request name shape element save =
        m.request name shape element save := rfl
    rw [transition, transition, addArray_eq_request, addArray_eq_request, hrequest, hentry]
    cases m.request name shape element save with
    | error e => rfl
    | ok a => cases hadd : m.entry.addArray a <;> simp only [ok_bind, hadd] <;> rfl
  | scalar name element =>
    rw [transition, transition, addScalar_eq, addScalar_eq, hentry]
    cases Identifier.check name with
    | error e => rfl
    | ok n => cases hclaim : m.entry.claim n <;> simp only [ok_bind, hclaim] <;> rfl
  | localScalar name element =>
    rw [transition, transition, addLocal_eq, addLocal_eq, hentry]
    cases Identifier.check name with
    | error e => rfl
    | ok n => cases hclaim : m.entry.claim n <;> simp only [ok_bind, hclaim] <;> rfl

theorem kept_withPlan (m : March) (p : Plan) (c : Registration) :
    c.kept (m.withPlan p) = (·.withPlan p) <$> c.kept m := by
  unfold kept
  rw [transition_withPlan]
  cases c.transition m with
  | ok next => rfl
  | error e => cases e <;> rfl

end Registration

namespace Plan

/-- A plan with the steps of calls added and the last source of theirs. -/
def extend (p : Plan) (calls : List Call) : Plan where
  before := p.before ++ calls.filterMap (Call.step? true)
  after := p.after ++ calls.filterMap (Call.step? false)
  source? := (calls.filterMap Call.source?).getLast?.or p.source?

theorem extend_nil (p : Plan) : p.extend [] = p := by simp [extend]

theorem extend_cons (p : Plan) (c : Call) (calls : List Call) :
    p.extend (c :: calls) = (p.extend [c]).extend calls := by
  cases c with
  | guarded g first => cases first <;> simp [extend, Call.step?, Call.source?, List.filterMap_cons]
  | source s =>
    have hlast : (s :: calls.filterMap Call.source?).getLast?.or p.source? =
        (calls.filterMap Call.source?).getLast?.or (some s) := by
      cases hcalls : (calls.filterMap Call.source?).getLast? <;>
        simp [List.getLast?_cons, hcalls]
    simp [extend, Call.step?, Call.source?, List.filterMap_cons, hlast]

theorem apply_withPlan (m : March) (p : Plan) (c : Call) :
    c.apply (m.withPlan p) = m.withPlan (p.extend [c]) := by
  cases c with
  | guarded g first =>
    cases first <;> simp [Call.apply, addGuarded, withPlan, extend, Call.step?, Call.source?]
  | source s => simp [Call.apply, withSource, withPlan, extend, Call.step?, Call.source?]

end Plan

namespace Command

def registration? : Command → Option Registration
  | register c => some c
  | call _ => none

def call? : Command → Option Call
  | register _ => none
  | call c => some c

def step? (first : Bool) (c : Command) : Option Guarded := c.call?.bind (Call.step? first)

def source? (c : Command) : Option Source := c.call?.bind Call.source?

/-- The march that a call leaves behind. -/
def apply (m : March) : Command → Result March
  | register c => c.kept m
  | call c => .ok (c.apply m)

/-- A call in place. -/
def perform : Command → Session Unit
  | register c => Session.tolerate c.perform
  | call c => modify fun m => c.apply m

theorem call_perform (m : March) (c : Command) :
    c.perform.call m = settle m ((·, ()) <$> c.apply m) := by
  cases c with
  | register c => exact c.call_tolerate m
  | call c => rfl

/-- Calls build the march that their registrations alone build, with the plan that the others make. -/
theorem foldlM_apply (m : March) (p : Plan) (cs : List Command) :
    cs.foldlM apply (m.withPlan p) =
      (·.withPlan (p.extend (cs.filterMap call?))) <$>
        (cs.filterMap registration?).foldlM Registration.kept m := by
  induction cs generalizing m p with
  | nil => exact congrArg (fun p => Except.ok (m.withPlan p)) p.extend_nil.symm
  | cons c cs ih =>
    rw [List.foldlM_cons]
    cases c with
    | register c =>
      have hkept : (Command.register c).apply (m.withPlan p) = (·.withPlan p) <$> c.kept m :=
        Registration.kept_withPlan m p c
      have hfirst : (register c :: cs).filterMap registration? =
          c :: cs.filterMap registration? := rfl
      rw [hkept, hfirst, List.foldlM_cons]
      cases c.kept m with
      | error e => rfl
      | ok next => exact ih next p
    | call c =>
      have happly : (Command.call c).apply (m.withPlan p) = .ok (m.withPlan (p.extend [c])) :=
        congrArg Except.ok (Plan.apply_withPlan m p c)
      rw [happly, ok_bind, ih, ← p.extend_cons]
      rfl

end Command

namespace Session

def performAll (cs : List Command) : Session Unit := forM cs Command.perform

/-- The entry point that is built after calls. -/
def built (cs : List Command) : Session EntryPoint := do
  performAll cs
  ask entryPoint

/-- Calls one after another end in the march that they leave behind one by one. -/
theorem call_performAll (cs : List Command) (m : March) :
    ∃ last, (performAll cs).call m = ((fun _ => ()) <$> cs.foldlM Command.apply m, last) ∧
      ∀ next, cs.foldlM Command.apply m = .ok next → last = next := by
  unfold performAll
  induction cs generalizing m with
  | nil => exact ⟨m, rfl, fun next h => Except.ok.inj h⟩
  | cons c cs ih =>
    rw [List.forM_cons, call_bind, c.call_perform, List.foldlM_cons]
    cases c.apply m with
    | error e => exact ⟨m, rfl, fun next h => nomatch h⟩
    | ok next => exact ih next

theorem call_performAll_eq_ok {cs : List Command} {last : March} :
    (performAll cs).call m = (.ok (), last) ↔ cs.foldlM Command.apply m = .ok last := by
  obtain ⟨last', hcall, hlast⟩ := call_performAll cs m
  rw [hcall]
  cases hcs : cs.foldlM Command.apply m with
  | error e => simp
  | ok next =>
    obtain rfl := hlast next hcs
    simp

theorem call_built (cs : List Command) (m : March) :
    ((built cs).call m).1 = cs.foldlM Command.apply m >>= entryPoint := by
  obtain ⟨last, hcall, hlast⟩ := call_performAll cs m
  rw [built, call_bind, hcall]
  cases hcs : cs.foldlM Command.apply m with
  | error e => rfl
  | ok next =>
    obtain rfl := hlast next hcs
    rfl

/-- A kernel is built as if all registrations came first. -/
theorem call_built_eq (cs : List Command) (m : March) :
    ((built cs).call m).1 =
      (cs.filterMap Command.registration?).foldlM Registration.kept m >>= fun last =>
        (last.withPlan (m.plan.extend (cs.filterMap Command.call?))).entryPoint := by
  have hfold := Command.foldlM_apply m m.plan cs
  rw [withPlan_plan] at hfold
  rw [call_built, hfold]
  cases (cs.filterMap Command.registration?).foldlM Registration.kept m <;> rfl

end Session

theorem Registered.kept (hm : Registered specs m) {c : Registration} {next : March}
    (h : c.kept m = .ok next) : Registered specs next := by
  unfold Registration.kept at h
  split at h
  · rename_i hc
    obtain rfl := Except.ok.inj h
    exact hm.transition hc
  · obtain rfl := Except.ok.inj h
    exact hm
  · cases h

theorem Registered.command (hm : Registered specs m) {c : Command} {next : March}
    (h : c.apply m = .ok next) : Registered specs next := by
  cases c with
  | register c => exact hm.kept h
  | call c =>
    obtain rfl := Except.ok.inj h
    exact hm.apply [c]

/-- A registration that is carried out adds the flag of its array. -/
theorem Registered.saved_eq (hm : Registered specs m) {c : Registration} {next : March}
    {p : Parameter} (h : c.transition m = .ok (next, p)) :
    next.saved = m.saved ++ c.flag?.toList := by
  cases c with
  | array name shape element save =>
    obtain ⟨⟨next, a⟩, hadd, h⟩ := map_eq_ok.1 h
    obtain ⟨rfl, -⟩ := Prod.mk.inj h
    obtain ⟨-, -, -, rfl⟩ := addArray_eq_ok hm.invariant.1 hadd
    rfl
  | scalar name element =>
    obtain ⟨⟨next, s⟩, hadd, h⟩ := map_eq_ok.1 h
    obtain ⟨rfl, -⟩ := Prod.mk.inj h
    obtain ⟨-, -, rfl⟩ := addScalar_eq_ok hadd
    exact (List.append_nil _).symm
  | localScalar name element =>
    obtain ⟨⟨next, s⟩, hadd, h⟩ := map_eq_ok.1 h
    obtain ⟨rfl, -⟩ := Prod.mk.inj h
    obtain ⟨-, -, rfl⟩ := addLocal_eq_ok hadd
    exact (List.append_nil _).symm

/-- No call takes a flag away. -/
theorem Registered.saved_subset (hm : Registered specs m) {c : Command} {next : March}
    (h : c.apply m = .ok next) : m.saved ⊆ next.saved := by
  cases c with
  | register c =>
    rw [Command.apply, Registration.kept] at h
    split at h
    · rename_i hc
      obtain rfl := Except.ok.inj h
      rw [hm.saved_eq hc]
      exact List.subset_append_left _ _
    · obtain rfl := Except.ok.inj h
      exact List.Subset.refl _
    · cases h
  | call c =>
    obtain rfl := Except.ok.inj h
    cases c with
    | guarded g first => cases first <;> exact List.Subset.refl _
    | source s => exact List.Subset.refl _

/-- Calls lead from one registered march to another, whose flags include those of the first. -/
theorem Registered.commands (hm : Registered specs m) {cs : List Command} {last : March}
    (h : cs.foldlM Command.apply m = .ok last) : Registered specs last ∧ m.saved ⊆ last.saved := by
  induction cs generalizing m with
  | nil =>
    obtain rfl := Except.ok.inj h
    exact ⟨hm, List.Subset.refl _⟩
  | cons c cs ih =>
    obtain ⟨next, hnext, h⟩ := bind_eq_ok.1 h
    obtain ⟨hlast, hsaved⟩ := ih (hm.command hnext) h
    exact ⟨hlast, List.Subset.trans (hm.saved_subset hnext) hsaved⟩

/-- One of the calls registers an array of a name that is not saved, and is not refused. -/
def OpensRing (m : March) (cs : List Command) (name : String) : Prop :=
  ∃ early late shape element next p,
    cs = early ++ .register (.array name shape element false) :: late ∧
      (Session.performAll early).call m = (.ok (), next) ∧
      ((Registration.array name shape element false).perform.call next).1 = .ok p

/-- The march after calls has the rings of all of them, wherever they stand among the calls. -/
theorem Registered.isRinged (hm : Registered specs m) {cs : List Command} {last : March}
    (h : cs.foldlM Command.apply m = .ok last) {name : String} (hopens : m.OpensRing cs name) :
    last.isRinged name := by
  obtain ⟨early, late, shape, element, next, p, rfl, hearly, hcall⟩ := hopens
  have hearly := Session.call_performAll_eq_ok.1 hearly
  rw [List.foldlM_append, hearly, ok_bind] at h
  obtain ⟨ringed, hringed, hlate⟩ := bind_eq_ok.1 h
  obtain ⟨hnext, -⟩ := hm.commands hearly
  obtain ⟨hlast, hsaved⟩ := (hnext.command hringed).commands hlate
  rw [Registration.call_perform] at hcall
  rw [Command.apply, Registration.kept] at hringed
  cases htransition : (Registration.array name shape element false).transition next with
  | error e =>
    rw [htransition] at hcall
    cases hcall
  | ok q =>
    rw [htransition] at hringed
    obtain rfl := Except.ok.inj hringed
    refine hlast.invariant.2.isRinged_iff.2 (hsaved ?_)
    rw [hnext.saved_eq htransition]
    exact List.mem_append_right _ (List.mem_singleton_self _)

/-- The assignments of a grid point have slots. -/
theorem assignsSlots_pointStmts {symbols : List String} {equations : List Equation}
    {rows : List (List Expr)} {ss : List Stmt}
    (h : m.pointStmts symbols equations rows = .ok ss) :
    (Stmt.block ss).Everywhere m.AssignsSlots := by
  refine everywhere_pointStmts h (by simp [AssignsSlots, Stmt.assignment?]) ?_ ?_
  · exact fun _ _ _ hs => Everywhere.assignsSlots (resolved_slots (resolve_eq_ok.2 hs))
  · exact fun _ _ _ hs => (guarded_slots (guardedStmt_eq_ok.2 hs)).1

/-- **The order of calls of different kinds does not matter.** Registrations, steps before, steps
after and a last source build one kernel or stop with one fault, however they are interleaved. The
innermost space loop has the conditionals of the steps before, the assignments of the equations and
the conditionals of the steps after. Their sides are retimed in the rings of all registrations,
those that come later too. -/
theorem built_interleaved (hm : Registered specs m) {cs ds : List Command}
    (hregistrations : cs.filterMap Command.registration? = ds.filterMap Command.registration?)
    (hbefore : cs.filterMap (Command.step? true) = ds.filterMap (Command.step? true))
    (hafter : cs.filterMap (Command.step? false) = ds.filterMap (Command.step? false))
    (hsource : (cs.filterMap Command.source?).getLast? = (ds.filterMap Command.source?).getLast?) :
    ((Session.built cs).call m).1 = ((Session.built ds).call m).1 ∧
      ∀ e, ((Session.built cs).call m).1 = .ok e → ∃ last,
        (Session.performAll cs).call m = (.ok (), last) ∧ last.entryPoint = .ok e ∧
        (∀ name, m.OpensRing cs name → last.isRinged name) ∧
        ∀ symbols equations rows,
          (cs.filterMap Command.source?).getLast?.or m.source? =
            some (.equations symbols equations rows) →
          ∃ head own ss body, e.body? = some body ∧ last.loopNest (.block ss) = .ok body ∧
            last.spaceHeads.head? = some head ∧ .loop head (.block ss) ∈ body.nodes ∧
            equations.length = rows.length ∧ (∀ row ∈ rows, row.length = symbols.length) ∧
            List.Forall₂ last.AssignmentOf (instances symbols equations rows) own ∧
            last.Surrounds (m.before ++ cs.filterMap (Command.step? true))
              (m.after ++ cs.filterMap (Command.step? false)) own ss ∧
            (Stmt.block ss).Everywhere last.AssignsSlots := by
  have hplan (cs : List Command) : m.plan.extend (cs.filterMap Command.call?) =
      ⟨m.before ++ cs.filterMap (Command.step? true), m.after ++ cs.filterMap (Command.step? false),
        (cs.filterMap Command.source?).getLast?.or m.source?⟩ := by
    simp only [Plan.extend, List.filterMap_filterMap]
    rfl
  constructor
  · rw [Session.call_built_eq, Session.call_built_eq, hplan, hplan, hregistrations, hbefore, hafter,
      hsource]
  intro e he
  rw [Session.call_built] at he
  obtain ⟨last, hlast, he⟩ := bind_eq_ok.1 he
  refine ⟨last, Session.call_performAll_eq_ok.2 hlast, he, fun name => hm.isRinged hlast,
    fun symbols equations rows hlastSource => ?_⟩
  have hfold := Command.foldlM_apply m m.plan cs
  rw [withPlan_plan, hlast] at hfold
  obtain ⟨registered, -, rfl⟩ := map_eq_ok.1 hfold.symm
  rw [hplan] at he hlast ⊢
  obtain ⟨ss, body, hcount, hss, hnest, rfl⟩ := entryPoint_eq_ok hlastSource he
  obtain ⟨own, hown, haround⟩ := surrounds_of_pointStmts hss
  obtain ⟨head, hhead, hloop⟩ := exists_innermost (hm.commands hlast).1.invariant.1 hnest
  exact ⟨head, own, ss, body, rfl, hnest, hhead, hloop, hcount, rows_of_pointStmts hcount hss, hown,
    haround, assignsSlots_pointStmts hss⟩

/-- Every cell of a ringed line takes the value that it had a step before, and a growth. -/
def ringUpdate : Equation :=
  ⟨ringLevel, .binary .add (.access ringLine [.binary .sub (.dim ⟨"t", .time⟩) (.int 1),
    .dim ⟨"x", .spatial⟩]) (.symbol "growth")⟩

/-- The update of a ringed line with a growth of one. -/
def ringSource : Source := .equations ["growth"] [ringUpdate] [[.int 1]]

/-- The first cell of a ringed line is set to zero. -/
def ringEdge : Guarded := ⟨⟨.dim ⟨"x", .spatial⟩, .int 0⟩, ⟨ringLevel, .int 0⟩, none⟩

/-- A step and an equation on a ring that is registered only after them. -/
def stepFirst : List Command :=
  [.call (.guarded ringEdge false), .call (.source ringSource),
    .register (.array "v" [2, 4] .float64 false)]

/-- The same calls with the ring in front. -/
def stepLast : List Command :=
  [.register (.array "v" [2, 4] .float64 false), .call (.source ringSource),
    .call (.guarded ringEdge false)]

/-- The current cell of a ringed line in a slot. -/
def slotCell (k : Nat) : Expr :=
  .access ringLine [.scalar (slotScalar k), .dim ⟨"i1", .spatial⟩]

def slotUpdate : Stmt := .assign (slotCell 1) (.binary .add (slotCell 0) (.int 1))

def slotEdge : Stmt :=
  .when ((Expr.dim ⟨"i1", .spatial⟩).equals (.int 0)) (.assign (slotCell 1) (.int 0))

/-- A step and an equation that come before their ring have its slots. -/
theorem built_interleaved_ring :
    ∃ (m last : March) (e : EntryPoint) (head : LoopHead) (body : Stmt),
      ofSpecs ringSpecs = .ok m ∧ ((Session.built stepFirst).call m).1 = .ok e ∧
      ((Session.built stepLast).call m).1 = .ok e ∧ last.entryPoint = .ok e ∧ last.isRinged "v" ∧
      e.body? = some body ∧ .loop head (.block [slotUpdate, slotEdge]) ∈ body.nodes := by
  obtain ⟨m, e, last, hstart, hguards, hbuilt, hcalls, hopens, hupdate, hedge⟩ :
      ∃ m e last, ofSpecs ringSpecs = .ok m ∧ (m.before = [] ∧ m.after = []) ∧
        ((Session.built stepFirst).call m).1 = .ok e ∧
        (Session.performAll stepFirst).call m = (.ok (), last) ∧ m.OpensRing stepFirst "v" ∧
        last.resolve (ringUpdate.substitute [("growth", .int 1)]) = .ok slotUpdate ∧
        last.guardedStmt ringEdge = .ok slotEdge :=
    ⟨_, _, _, rfl, ⟨rfl, rfl⟩, rfl, rfl,
      ⟨[.call (.guarded ringEdge false), .call (.source ringSource)], [], [2, 4], .float64, _, _, rfl,
        rfl, rfl⟩, rfl, rfl⟩
  have hregistrations : stepFirst.filterMap Command.registration? =
      stepLast.filterMap Command.registration? := rfl
  obtain ⟨hsame, hfirst⟩ := built_interleaved (.start hstart) hregistrations rfl rfl rfl
  obtain ⟨last', hcalls', he, hrings, hplaced⟩ := hfirst e hbuilt
  obtain rfl : last = last' := (Prod.mk.inj (hcalls.symm.trans hcalls')).2
  obtain ⟨head, own, ss, body, hbody, -, -, hloop, -, -, hown, haround, -⟩ :=
    hplaced ["growth"] [ringUpdate] [[.int 1]] rfl
  obtain ⟨firsts, lasts, hfirsts, hlasts, rfl⟩ := haround
  rw [hguards.1] at hfirsts
  rw [hguards.2] at hlasts
  obtain rfl : firsts = [] := List.forall₂_nil_left_iff.1 hfirsts
  obtain ⟨s, _, hs, hnil, rfl⟩ := List.forall₂_cons_left_iff.1 hown
  obtain rfl := List.forall₂_nil_left_iff.1 hnil
  obtain ⟨t, _, ht, hnil, rfl⟩ := List.forall₂_cons_left_iff.1 hlasts
  obtain rfl := List.forall₂_nil_left_iff.1 hnil
  obtain rfl : slotUpdate = s := Except.ok.inj (hupdate.symm.trans (resolve_eq_ok.2 hs))
  obtain rfl : slotEdge = t := Except.ok.inj (hedge.symm.trans (guardedStmt_eq_ok.2 ht))
  exact ⟨m, last, e, head, body, hstart, hbuilt, hsame ▸ hbuilt, he, hrings "v" hopens, hbody,
    hloop⟩

end GridKernel.March
