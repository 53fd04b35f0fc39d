import GridKernel.Proofs.Loops
import GridKernel.Proofs.Retiming

/-! Statements of a grid point. Around the assignments of equations stand the conditionals of the
guarded assignments registered before and after them, in the order of their registration; a ready
body stands alone. -/
namespace GridKernel.March

variable {m : March} {specs : Specs}

/-- The equations of a source, each with its row of values for the symbols. -/
def instances (symbols : List String) (equations : List Equation) (rows : List (List Expr)) :
    List Equation :=
  (equations.zip rows).map fun p => p.1.substitute (symbols.zip p.2)

/-- The statements of a grid point for a source of equations. -/
def pointStmts (m : March) (symbols : List String) (equations : List Equation)
    (rows : List (List Expr)) : Result (List Stmt) := do
  let before ← m.before.mapM m.guardedStmt
  let updates ← (equations.zip rows).mapM fun (eqn, row) => m.instantiate symbols eqn row
  let after ← m.after.mapM m.guardedStmt
  return before ++ updates ++ after

/-- A built body is the loop nest around the statements of a grid point. -/
theorem build_eq_ok {symbols : List String} {equations : List Equation} {rows : List (List Expr)}
    {body : Stmt} : m.build symbols equations rows = .ok body ↔ equations.length = rows.length ∧
      ∃ ss, m.pointStmts symbols equations rows = .ok ss ∧ m.loopNest (.block ss) = .ok body := by
  unfold build
  split
  · rename_i hcount
    constructor
    · rintro ⟨⟩
    · exact fun h => absurd h.1 hcount
  · rename_i hcount
    simp only [pointStmts, bind_eq_ok, pure_eq_ok, not_not.1 hcount, true_and]
    constructor
    · rintro ⟨before, hbefore, updates, hupdates, after, hafter, hbody⟩
      exact ⟨_, ⟨before, hbefore, updates, hupdates, after, hafter, rfl⟩, hbody⟩
    · rintro ⟨ss, ⟨before, hbefore, updates, hupdates, after, hafter, hss⟩, hbody⟩
      obtain rfl := Except.ok.inj hss
      exact ⟨before, hbefore, updates, hupdates, after, hafter, hbody⟩

/-- The entry point of a source of equations has the loop nest around the statements of a grid point
for a body, and every equation has a row of values. -/
theorem entryPoint_eq_ok {symbols : List String} {equations : List Equation}
    {rows : List (List Expr)} (hsource : m.source? = some (.equations symbols equations rows))
    {e : EntryPoint} (he : m.entryPoint = .ok e) :
    ∃ ss body, equations.length = rows.length ∧ m.pointStmts symbols equations rows = .ok ss ∧
      m.loopNest (.block ss) = .ok body ∧ e = m.entry.withBody body := by
  rw [entryPoint, hsource] at he
  obtain ⟨body, hbody, he⟩ := bind_eq_ok.1 he
  obtain ⟨hcount, ss, hss, hnest⟩ := build_eq_ok.1 hbody
  exact ⟨ss, body, hcount, hss, hnest, (Except.ok.inj he).symm⟩

theorem instantiate_eq_ok {symbols : List String} {eqn : Equation} {row : List Expr} {s : Stmt}
    (h : m.instantiate symbols eqn row = .ok s) :
    row.length = symbols.length ∧ m.resolve (eqn.substitute (symbols.zip row)) = .ok s := by
  unfold instantiate at h
  split at h
  · exact ⟨‹_›, h⟩
  · cases h

/-- An expression as it stands at a grid point: retimed without its surplus indices, and with loop
counters for the axes. -/
def Placed (m : March) (e placed : Expr) : Prop :=
  ∃ slotted, m.Retimed (m.cropped e) slotted ∧ placed = slotted.replace m.toCounters

/-- The assignment that stands for an equation at a grid point. -/
inductive AssignmentOf (m : March) (eqn : Equation) : Stmt → Prop where
  | assign {target value : Expr} (htarget : m.Placed eqn.lhs target)
    (hvalue : m.Placed eqn.rhs value) : AssignmentOf m eqn (.assign target value)

/-- The conditional that stands for a guarded assignment at a grid point. Its branches are placed as
equations are; its test gets counters, but keeps the time indices that it was registered with. -/
inductive ConditionalOf (m : March) : Guarded → Stmt → Prop where
  | when {condition thenAssign : Equation} {thenBody : Stmt}
    (hthen : m.AssignmentOf thenAssign thenBody) :
    ConditionalOf m ⟨condition, thenAssign, none⟩
      (.when ((condition.lhs.replace m.toCounters).equals (condition.rhs.replace m.toCounters))
        thenBody)
  | ifElse {condition thenAssign elseAssign : Equation} {thenBody elseBody : Stmt}
    (hthen : m.AssignmentOf thenAssign thenBody) (helse : m.AssignmentOf elseAssign elseBody) :
    ConditionalOf m ⟨condition, thenAssign, some elseAssign⟩
      (.ifElse ((condition.lhs.replace m.toCounters).equals (condition.rhs.replace m.toCounters))
        thenBody elseBody)

theorem resolveExpr_eq_ok {e e' : Expr} : m.resolveExpr e = .ok e' ↔ m.Placed e e' := by
  rw [resolveExpr_eq, return_eq_ok, Placed]
  simp only [toSlots_eq_ok_iff, and_comm]

/-- An equation is resolved to its assignment. -/
theorem resolve_eq_ok {eqn : Equation} {s : Stmt} :
    m.resolve eqn = .ok s ↔ m.AssignmentOf eqn s := by
  rw [resolve, both_eq_ok]
  simp only [resolveExpr_eq_ok]
  constructor
  · rintro ⟨target, value, rfl, htarget, hvalue⟩
    exact .assign htarget hvalue
  · rintro ⟨htarget, hvalue⟩
    exact ⟨_, _, rfl, htarget, hvalue⟩

/-- A guarded assignment is resolved to its conditional. -/
theorem guardedStmt_eq_ok {g : Guarded} {s : Stmt} :
    m.guardedStmt g = .ok s ↔ m.ConditionalOf g s := by
  obtain ⟨condition, thenAssign, elseAssign?⟩ := g
  cases elseAssign? with
  | none =>
    simp only [guardedStmt, return_eq_ok, resolve_eq_ok]
    constructor
    · rintro ⟨thenBody, rfl, hthen⟩
      exact .when hthen
    · intro h
      cases h with
      | when hthen => exact ⟨_, rfl, hthen⟩
  | some elseAssign =>
    simp only [guardedStmt, both_eq_ok, resolve_eq_ok]
    constructor
    · rintro ⟨thenBody, elseBody, rfl, hthen, helse⟩
      exact .ifElse hthen helse
    · intro h
      cases h with
      | ifElse hthen helse => exact ⟨_, _, rfl, hthen, helse⟩

/-- The given statements stand between the conditionals of guarded assignments, each where it was
registered. -/
def Surrounds (m : March) (before after : List Guarded) (own ss : List Stmt) : Prop :=
  ∃ firsts lasts, List.Forall₂ m.ConditionalOf before firsts ∧
    List.Forall₂ m.ConditionalOf after lasts ∧ ss = firsts ++ own ++ lasts

/-- Built statements of a grid point are the assignments of the equations between the conditionals
of the guarded assignments. -/
theorem surrounds_of_pointStmts {symbols : List String} {equations : List Equation}
    {rows : List (List Expr)} {ss : List Stmt}
    (h : m.pointStmts symbols equations rows = .ok ss) :
    ∃ own, List.Forall₂ m.AssignmentOf (instances symbols equations rows) own ∧
      m.Surrounds m.before m.after own ss := by
  obtain ⟨before, hbefore, h⟩ := bind_eq_ok.1 h
  obtain ⟨own, hown, h⟩ := bind_eq_ok.1 h
  obtain ⟨after, hafter, h⟩ := bind_eq_ok.1 h
  obtain rfl := Except.ok.inj h
  refine ⟨own, List.forall₂_map_left_iff.2 ?_, before, after, ?_, ?_, rfl⟩
  · exact (mapM_eq_ok.1 hown).imp fun _ _ hs => resolve_eq_ok.1 (instantiate_eq_ok hs).2
  · exact (mapM_eq_ok.1 hbefore).imp fun _ _ hs => guardedStmt_eq_ok.1 hs
  · exact (mapM_eq_ok.1 hafter).imp fun _ _ hs => guardedStmt_eq_ok.1 hs

/-- Every row of a built kernel has a value for each of the symbols. -/
theorem rows_of_pointStmts {symbols : List String} {equations : List Equation}
    {rows : List (List Expr)} {ss : List Stmt} (hcount : equations.length = rows.length)
    (h : m.pointStmts symbols equations rows = .ok ss) :
    ∀ row ∈ rows, row.length = symbols.length := by
  intro row hrow
  obtain ⟨before, -, h⟩ := bind_eq_ok.1 h
  obtain ⟨own, hown, -⟩ := bind_eq_ok.1 h
  rw [← List.map_snd_zip hcount.ge] at hrow
  obtain ⟨p, hp, rfl⟩ := List.mem_map.1 hrow
  obtain ⟨s, -, hs⟩ := forall₂_mem_left (mapM_eq_ok.1 hown) hp
  exact (instantiate_eq_ok hs).1

/-- Without guarded assignments the statements of a grid point are the resolved equations. -/
theorem pointStmts_of_unguarded {symbols : List String} {equations : List Equation}
    {rows : List (List Expr)} {ss : List Stmt} (hguards : m.before = [] ∧ m.after = [])
    (h : m.pointStmts symbols equations rows = .ok ss) :
    List.Forall₂ (fun eqn s => m.resolve eqn = .ok s) (instances symbols equations rows) ss := by
  obtain ⟨own, hown, firsts, lasts, hfirsts, hlasts, rfl⟩ := surrounds_of_pointStmts h
  rw [hguards.1] at hfirsts
  rw [hguards.2] at hlasts
  cases hfirsts
  cases hlasts
  rw [List.nil_append, List.append_nil]
  exact hown.imp fun _ _ hs => resolve_eq_ok.2 hs

/-- What holds everywhere in the assignments and the conditionals of a grid point holds everywhere
at the grid point. -/
theorem everywhere_pointStmts {Q : Stmt → Prop} {symbols : List String} {equations : List Equation}
    {rows : List (List Expr)} {ss : List Stmt}
    (h : m.pointStmts symbols equations rows = .ok ss) (hblock : Q (.block ss))
    (hupdates : ∀ eqn ∈ instances symbols equations rows, ∀ s, m.AssignmentOf eqn s →
      s.Everywhere Q)
    (hguards : ∀ g ∈ m.before ++ m.after, ∀ s, m.ConditionalOf g s → s.Everywhere Q) :
    (Stmt.block ss).Everywhere Q := by
  obtain ⟨own, hown, before, after, hbefore, hafter, rfl⟩ := surrounds_of_pointStmts h
  refine Stmt.everywhere_block.2 ⟨hblock, fun s hs => ?_⟩
  rcases List.mem_append.1 hs with hs | hs
  · rcases List.mem_append.1 hs with hs | hs
    · obtain ⟨g, hg, hgs⟩ := forall₂_mem_right hbefore hs
      exact hguards g (List.mem_append_left _ hg) s hgs
    · obtain ⟨eqn, heqn, hes⟩ := forall₂_mem_right hown hs
      exact hupdates eqn heqn s hes
  · obtain ⟨g, hg, hgs⟩ := forall₂_mem_right hafter hs
    exact hguards g (List.mem_append_right _ hg) s hgs

theorem AssignmentOf.loops {eqn : Equation} {s : Stmt} (h : m.AssignmentOf eqn s) :
    s.loops = [] := by
  obtain @⟨target, value, -, -⟩ := h
  exact Stmt.loops_assign target value

theorem ConditionalOf.loops {g : Guarded} {s : Stmt} (h : m.ConditionalOf g s) : s.loops = [] := by
  cases h with
  | when hthen => rw [Stmt.loops_when, hthen.loops]
  | ifElse hthen helse => rw [Stmt.loops_ifElse, hthen.loops, helse.loops, List.append_nil]

/-- The statements of a grid point have no loops. -/
theorem loops_pointStmts {symbols : List String} {equations : List Equation}
    {rows : List (List Expr)} {ss : List Stmt}
    (h : m.pointStmts symbols equations rows = .ok ss) : (Stmt.block ss).loops = [] := by
  have hloops : (Stmt.block ss).Everywhere fun s => s.loop? = none :=
    everywhere_pointStmts h rfl
      (fun _ _ _ hs => List.filterMap_eq_nil_iff.1 hs.loops)
      fun _ _ _ hs => List.filterMap_eq_nil_iff.1 hs.loops
  exact List.filterMap_eq_nil_iff.2 hloops

/-- Around the statements of a grid point a loop nest has blocks and loops, declares the slots and
advances them. -/
theorem mem_nodes_loopNest {point body : Stmt} (h : m.loopNest point = .ok body) {x : Stmt}
    (hx : x ∈ body.nodes) :
    x ∈ point.nodes ∨ (∃ s ∈ m.slotScalars, x = .declare s) ∨ x ∈ m.advanceSlots ∨
      (∃ ss, x = .block ss) ∨ ∃ head inner, x = .loop head inner := by
  obtain ⟨bounds, -, h⟩ := bind_eq_ok.1 h
  obtain rfl := Except.ok.inj h
  rcases List.mem_cons.1 hx with rfl | hx
  · exact .inr (.inr (.inr (.inl ⟨_, rfl⟩)))
  obtain ⟨y, hy, hx⟩ := Stmt.mem_nodesAll.1 hx
  rcases List.mem_append.1 hy with hy | hy
  · obtain ⟨s, hs, rfl⟩ := List.mem_map.1 hy
    exact .inr (.inl ⟨s, hs, List.mem_singleton.1 hx⟩)
  · obtain rfl := List.mem_singleton.1 hy
    rcases List.mem_cons.1 hx with rfl | hx
    · exact .inr (.inr (.inr (.inr ⟨_, _, rfl⟩)))
    rcases List.mem_cons.1 hx with rfl | hx
    · exact .inr (.inr (.inr (.inl ⟨_, rfl⟩)))
    obtain ⟨y, hy, hx⟩ := Stmt.mem_nodesAll.1 hx
    rcases List.mem_append.1 hy with hy | hy
    · rw [(frame_advanceSlots hy).2, List.mem_singleton] at hx
      exact .inr (.inr (.inl (hx ▸ hy)))
    · obtain rfl := List.mem_singleton.1 hy
      rcases Stmt.mem_nodes_nest hx with hx | ⟨head, -, inner, rfl⟩
      · exact .inl hx
      · exact .inr (.inr (.inr (.inr ⟨head, inner, rfl⟩)))

/-- Slots are advanced by assignments. -/
theorem exists_assign_of_advance {x : Stmt} (hx : x ∈ m.advanceSlots) :
    ∃ s ∈ m.slotScalars, ∃ value, x = .assign (.scalar s) value := by
  obtain ⟨hring, n, hn, rfl⟩ := mem_advanceSlots_iff.1 hx
  exact ⟨_, mem_slotScalars hring (nthSlot_le hn), _, rfl⟩

/-- A loop nest declares the slots, and what the statements of a grid point declare. -/
theorem declared_of_loopNest {point body : Stmt} (h : m.loopNest point = .ok body) {s : Scalar}
    (hs : .declare s ∈ body.nodes) : s ∈ m.slotScalars ∨ .declare s ∈ point.nodes := by
  rcases mem_nodes_loopNest h hs with hs | ⟨t, ht, heq⟩ | hs | ⟨ss, heq⟩ | ⟨head, inner, heq⟩
  · exact .inr hs
  · exact .inl (Stmt.declare.inj heq ▸ ht)
  · obtain ⟨t, -, value, heq⟩ := exists_assign_of_advance hs
    cases heq
  · cases heq
  · cases heq

/-- The loop over the first space axis runs the statements of a grid point. -/
theorem exists_innermost (hm : Configured specs m) {point body : Stmt}
    (h : m.loopNest point = .ok body) :
    ∃ head, m.spaceHeads.head? = some head ∧ .loop head point ∈ body.nodes := by
  have hlength : 0 < m.spaceHeads.length := by
    have hrank := hm.rank.1
    simp [spaceHeads, hm.spaceCounters, hm.spaceBounds, gridCounters, gridBounds, hrank]
  cases hheads : m.spaceHeads with
  | nil => simp [hheads] at hlength
  | cons head heads =>
    obtain ⟨bounds, -, h⟩ := bind_eq_ok.1 h
    obtain rfl := Except.ok.inj h
    have hself : Stmt.loop head point ∈ (Stmt.loop head point).nodes := List.mem_cons_self ..
    have hnest : Stmt.loop head point ∈ ((Stmt.loop head point).nest heads).nodes :=
      Stmt.mem_nest hself
    refine ⟨head, rfl, ?_⟩
    rw [hheads, show point.nest (head :: heads) = (Stmt.loop head point).nest heads from rfl]
    simp [Stmt.nodes, Stmt.mem_nodesAll, hnest]

/-- A registration of a guarded assignment or of the kernel's source. -/
inductive Call where
  | guarded (g : Guarded) (first : Bool)
  | source (s : Source)

namespace Call

def apply (m : March) : Call → March
  | guarded g first => m.addGuarded g first
  | source s => m.withSource s

/-- The guarded assignment that a call registers on one side of the stencil updates. -/
def step? (first : Bool) : Call → Option Guarded
  | guarded g side => if side = first then some g else none
  | source _ => none

end Call

/-- Calls add their steps to those registered before, in order, and change no other entity. -/
theorem foldl_apply (m : March) (calls : List Call) :
    ∃ source?, calls.foldl Call.apply m = { m with
      before := m.before ++ calls.filterMap (Call.step? true)
      after := m.after ++ calls.filterMap (Call.step? false)
      source? } := by
  induction calls generalizing m with
  | nil => exact ⟨m.source?, by simp⟩
  | cons c calls ih =>
    obtain ⟨source?, hrest⟩ := ih (c.apply m)
    refine ⟨source?, ?_⟩
    rw [List.foldl_cons, hrest]
    cases c with
    | source s => simp [Call.apply, Call.step?, withSource, List.filterMap_cons]
    | guarded g first => cases first <;> simp [Call.apply, Call.step?, addGuarded]

theorem Registered.apply {m : March} (hm : Registered specs m) (calls : List Call) :
    Registered specs (calls.foldl Call.apply m) := by
  induction calls generalizing m with
  | nil => exact hm
  | cons c calls ih =>
    refine ih ?_
    cases c with
    | guarded g first => exact .guarded g first hm
    | source s => exact .source s hm

/-- Whatever the calls, the innermost space loop around equations runs the conditionals of the steps
registered before them, their assignments and the conditionals of the steps registered after them,
each list in the order of registration. Around a ready body it runs that body only. -/
theorem point_of_calls (hm : Registered specs m) (calls : List Call) {e : EntryPoint}
    (he : (calls.foldl Call.apply m).entryPoint = .ok e) :
    let m' := calls.foldl Call.apply m
    ∃ head point body, m'.spaceHeads.head? = some head ∧ e.body? = some body ∧
      .loop head point ∈ body.nodes ∧ m'.loopNest point = .ok body ∧
      ((∃ symbols equations rows own ss, m'.source? = some (.equations symbols equations rows) ∧
          equations.length = rows.length ∧ (∀ row ∈ rows, row.length = symbols.length) ∧
          List.Forall₂ m'.AssignmentOf (instances symbols equations rows) own ∧
          m'.Surrounds (m.before ++ calls.filterMap (Call.step? true))
            (m.after ++ calls.filterMap (Call.step? false)) own ss ∧
          point = .block ss ∧ point.loops = []) ∨
        m'.source? = some (.body point)) := by
  intro m'
  have hconfigured := (hm.apply calls).invariant.1
  have hsteps : m'.before = m.before ++ calls.filterMap (Call.step? true) ∧
      m'.after = m.after ++ calls.filterMap (Call.step? false) := by
    obtain ⟨source?, hm'⟩ := foldl_apply m calls
    simp [m', hm']
  rw [← hsteps.1, ← hsteps.2]
  change m'.entryPoint = .ok e at he
  cases hsource : m'.source? with
  | none =>
    rw [entryPoint, hsource] at he
    cases he
  | some source =>
    cases source with
    | body s =>
      rw [entryPoint, hsource] at he
      obtain ⟨body, hbody, he⟩ := bind_eq_ok.1 he
      obtain rfl := Except.ok.inj he
      obtain ⟨head, hhead, hloop⟩ := exists_innermost hconfigured hbody
      exact ⟨head, s, body, hhead, rfl, hloop, hbody, .inr rfl⟩
    | equations symbols equations rows =>
      obtain ⟨ss, body, hcount, hss, hbody, rfl⟩ := entryPoint_eq_ok hsource he
      obtain ⟨own, hown, haround⟩ := surrounds_of_pointStmts hss
      obtain ⟨head, hhead, hloop⟩ := exists_innermost hconfigured hbody
      exact ⟨head, .block ss, body, hhead, rfl, hloop, hbody, .inl
        ⟨symbols, equations, rows, own, ss, rfl, hcount, rows_of_pointStmts hcount hss, hown,
          haround, rfl, loops_pointStmts hss⟩⟩

/-- A step registered before a ready body stands nowhere in the loop nest. -/
theorem point_of_calls_ready :
    ∃ m e head body, Registered ringSpecs m ∧
      ([.guarded ringTest true, .source (.body (.block []))].foldl Call.apply m).entryPoint =
        .ok e ∧
      e.body? = some body ∧ .loop head (.block []) ∈ body.nodes := by
  have hm : Registered ringSpecs _ := .array (.start rfl)
    (rfl : addArray _ "v" [2, 4] .float64 false = .ok _)
  obtain ⟨head, point, body, -, hbody, hloop, -, hsource⟩ := point_of_calls hm
    [.guarded ringTest true, .source (.body (.block []))] (e := _) rfl
  rcases hsource with ⟨symbols, equations, rows, own, ss, hsource, -⟩ | hsource
  · cases hsource
  · obtain rfl : Stmt.block [] = point := Source.body.inj (Option.some.inj hsource)
    exact ⟨_, _, head, body, hm, rfl, hbody, hloop⟩

end GridKernel.March
