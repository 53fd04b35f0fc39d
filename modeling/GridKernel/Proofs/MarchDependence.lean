import GridKernel.Proofs.Dependence
import GridKernel.Proofs.EntryPoints
import GridKernel.Proofs.PointStatements
import GridKernel.Proofs.Refinement

/-! What the kernel of a march depends on. Every scalar that it reads is registered or declared
before, so that it is a function of the registered parameters and the sizes of axes. -/
namespace GridKernel

namespace March

open Machine

variable {m : March} {specs : Specs}

/-- A node of an expression refers to no array but one that is passed in. -/
def PassedIn : Expr → Prop
  | .access a _ => a.scope = .external
  | _ => True

instance : DecidablePred PassedIn
  | .access a _ => inferInstanceAs (Decidable (a.scope = .external))
  | .int _ | .float _ | .symbol _ | .scalar _ | .dim _ | .size _ | .neg _ | .binary _ _ _ =>
    inferInstanceAs (Decidable True)

/-- An expression refers to arrays that are passed in only. -/
def External (e : Expr) : Prop := ∀ n ∈ e.nodes, PassedIn n

instance (e : Expr) : Decidable (External e) :=
  inferInstanceAs (Decidable (∀ n ∈ e.nodes, PassedIn n))

/-- The equations of a guarded assignment: its test and its branches. -/
def Guarded.equations (g : Guarded) : List Equation :=
  g.condition :: g.thenAssign :: g.elseAssign?.toList

theorem headsOnly_passedIn (m : March) : m.HeadsOnly PassedIn :=
  ⟨fun _ _ _ => id, fun _ => trivial, fun _ _ _ => trivial, fun _ => trivial, fun _ _ => trivial⟩

theorem Flat.external {e : Expr} (h : Flat e) : External e := by
  intro n hn
  cases n with
  | access a es => exact absurd rfl (h _ hn a es)
  | _ => trivial

theorem External.replace {e : Expr} (h : External e) : External (e.replace m.toCounters) := by
  rw [External, Expr.nodes_replace m.toCounters_renamesAxes]
  intro n hn
  obtain ⟨y, hy, rfl⟩ := List.mem_map.1 hn
  exact (headsOnly_passedIn m).replace m.toCounters_renamesAxes (h y hy)

/-- A statement that refers to arrays that are passed in only, and views none. -/
structure Plain (s : Stmt) : Prop where
  exprs : ∀ e ∈ s.exprs, External e
  views : ∀ a, s ≠ .view a

theorem Frame.plain {s : Stmt} (h : Frame s) : Plain s := by
  cases h with
  | block ss => exact ⟨by simp [Stmt.exprs], by simp⟩
  | declare s => exact ⟨by simp [Stmt.exprs], by simp⟩
  | advance s hvalue =>
    exact ⟨by simp [Stmt.exprs, hvalue.external, (Flat.scalar s).external], by simp⟩
  | loop hlower hupper hcompanions =>
    exact ⟨by simp [Stmt.exprs, hcompanions, hlower.external, hupper.external], by simp⟩

theorem AssignmentOf.plain {eqn : Equation} {s : Stmt} (h : m.AssignmentOf eqn s)
    (heqn : External eqn.lhs ∧ External eqn.rhs) :
    s.Everywhere fun s => Plain s ∧ ∀ t, s ≠ .declare t := by
  obtain @⟨target, value, htarget, hvalue⟩ := h
  have htarget : External target :=
    nodes_resolveExpr (headsOnly_passedIn m) (resolveExpr_eq_ok.2 htarget) heqn.1
  have hvalue : External value :=
    nodes_resolveExpr (headsOnly_passedIn m) (resolveExpr_eq_ok.2 hvalue) heqn.2
  exact Stmt.everywhere_assign.2 ⟨⟨by simp [Stmt.exprs, htarget, hvalue], by simp⟩, by simp⟩

theorem ConditionalOf.plain {g : Guarded} {s : Stmt} (h : m.ConditionalOf g s)
    (hg : ∀ eqn ∈ g.equations, External eqn.lhs ∧ External eqn.rhs) :
    s.Everywhere fun s => Plain s ∧ ∀ t, s ≠ .declare t := by
  obtain ⟨hlhs, hrhs⟩ := hg g.condition (by simp [Guarded.equations])
  have htest : External ((g.condition.lhs.replace m.toCounters).equals
      (g.condition.rhs.replace m.toCounters)) :=
    Expr.nodes_of_binary trivial hlhs.replace hrhs.replace
  cases h with
  | when hthen =>
    have hbody := hthen.plain (hg _ (by simp [Guarded.equations]))
    exact Stmt.everywhere_when.2 ⟨⟨⟨by simpa [Stmt.exprs] using htest, by simp⟩, by simp⟩, hbody⟩
  | ifElse hthen helse =>
    have hbody := hthen.plain (hg _ (by simp [Guarded.equations]))
    have hother := helse.plain (hg _ (by simp [Guarded.equations]))
    exact Stmt.everywhere_ifElse.2
      ⟨⟨⟨by simpa [Stmt.exprs] using htest, by simp⟩, by simp⟩, hbody, hother⟩

/-- All equations of a march: those of its source, the tests and the branches. -/
def allEquations (m : March) (symbols : List String) (equations : List Equation)
    (rows : List (List Expr)) : List Equation :=
  instances symbols equations rows ++ (m.before ++ m.after).flatMap Guarded.equations

/-- What the kernel of a march may refer to: the registered parameters, the locals and the slots. -/
def covering (m : March) : List Parameter :=
  m.entry.parameters ++ m.entry.locals.map .scalar ++ m.slotScalars.map .scalar

section Source

variable {symbols : List String} {equations : List Equation} {rows : List (List Expr)}
  {ss : List Stmt} {body : Stmt}
  (hexternal : ∀ eqn ∈ m.allEquations symbols equations rows,
    External eqn.lhs ∧ External eqn.rhs)
  (hss : m.pointStmts symbols equations rows = .ok ss)
include hexternal hss

theorem plain_pointStmts : (Stmt.block ss).Everywhere fun s => Plain s ∧ ∀ t, s ≠ .declare t := by
  refine everywhere_pointStmts hss ⟨⟨by simp [Stmt.exprs], by simp⟩, by simp⟩
    (fun eqn heqn s hs => ?_) fun g hg s hs => ?_
  · exact hs.plain (hexternal eqn (List.mem_append_left _ heqn))
  · refine hs.plain fun eqn heqn => hexternal eqn ?_
    exact List.mem_append_right _ (List.mem_flatMap.2 ⟨g, hg, heqn⟩)

theorem plain_loopNest (hm : Configured specs m) (hbody : m.loopNest (.block ss) = .ok body) :
    body.Everywhere Plain :=
  (everywhere_loopNest hm (fun _ => Frame.plain) hbody).2
    fun s hs => (plain_pointStmts hexternal hss s hs).1

/-- The body of a kernel refers to registered parameters, to locals and to slots. -/
theorem covered_of_toKernel (hm : Configured specs m) (hbody : m.loopNest (.block ss) = .ok body)
    {k : Kernel} (hk : (m.entry.withBody body).toKernel = .ok k) :
    body.Everywhere fun s => ∀ e ∈ s.exprs, ∀ n ∈ e.nodes, n.CoveredBy m.covering := by
  obtain ⟨-, used, hused, hregistered⟩ := EntryPoint.toKernel_eq_ok rfl hk
  have hplain := plain_loopNest hexternal hss hm hbody
  intro s hs
  refine Stmt.covered_of_parameters hused (fun p hp => ?_) (fun t ht => ?_)
    (fun s hs e he a es ha => ?_) s ?_
  · obtain ⟨q, hq, hsame⟩ := hregistered p hp
    obtain ⟨hname, harray⟩ := Parameter.eq_of_same hsame
    exact ⟨q, List.mem_append_left _ (List.mem_append_left _ hq), hname.symm, harray.symm⟩
  · rcases EntryPoint.mem_nodes_statements ht with heq | ⟨r, hr, heq⟩ | ⟨a, -, heq⟩ | ht
    · cases heq
    · obtain rfl := Stmt.declare.inj heq
      exact List.mem_append_left _ (List.mem_append_right _ (List.mem_map_of_mem hr))
    · cases heq
    · rcases declared_of_loopNest hbody ht with ht | ht
      · exact List.mem_append_right _ (List.mem_map_of_mem ht)
      · exact absurd rfl ((plain_pointStmts hexternal hss _ ht).2 t)
  · rcases EntryPoint.mem_nodes_statements hs with rfl | ⟨r, -, rfl⟩ | ⟨b, -, rfl⟩ | hs
    · cases he
    · cases he
    · cases he
    · exact (hplain s hs).exprs e he _ ha
  · refine List.mem_cons_of_mem _ (Stmt.mem_nodesAll.2 ⟨body, ?_, hs⟩)
    exact List.mem_append_right _ (List.mem_singleton_self body)

end Source

theorem IsParameter.literal {a : GridArray} {save : Bool} (ha : IsParameter specs a save)
    {e : Expr} (he : e ∈ a.shape) : ∃ n, e = .ofSize n := by
  rcases ha.shape with ⟨-, hshape⟩ | ⟨slots, -, hshape, -⟩
  · rw [hshape] at he
    obtain ⟨n, -, rfl⟩ := List.mem_map.1 he
    exact ⟨n, rfl⟩
  · rw [hshape] at he
    rcases List.mem_cons.1 he with rfl | he
    · exact ⟨slots, rfl⟩
    · obtain ⟨n, -, rfl⟩ := List.mem_map.1 he
      exact ⟨n, rfl⟩

section Run

variable {R : Type} [Arithmetic R] {M M' : Machine R} {ps : List Parameter}

/-- Views of the registered arrays go alike: the extents that they check are literals. -/
theorem views_agree (hm : Registered specs m) (h : AgreeOn ps M M')
    (hps : ∀ a ∈ m.entry.arrays, .array a ∈ ps) :
    (runAll (m.entry.arrays.map .view) M).Alike (AgreeOn ps)
      (runAll (m.entry.arrays.map .view) M') := by
  have hnodes : ∀ s ∈ (Stmt.block (m.entry.arrays.map .view)).nodes,
      s = .block (m.entry.arrays.map .view) ∨ ∃ a ∈ m.entry.arrays, s = .view a := by
    intro s hs
    refine (List.mem_cons.1 hs).imp_right fun hs => ?_
    obtain ⟨x, hx, hs⟩ := Stmt.mem_nodesAll.1 hs
    obtain ⟨a, ha, rfl⟩ := List.mem_map.1 hx
    exact ⟨a, ha, by simpa [Stmt.nodes] using hs⟩
  refine h.run (s := .block (m.entry.arrays.map .view)) (fun s hs e he => ?_) fun a ha => ?_
  · rcases hnodes s hs with rfl | ⟨a, -, rfl⟩
    · cases he
    · cases he
  · rcases hnodes _ ha with heq | ⟨b, hb, heq⟩
    · cases heq
    obtain rfl := Stmt.view.inj heq
    refine ⟨hps a hb, fun axis e => GridArray.nodes_of_allocation (fun _ => trivial)
      (fun _ _ _ => trivial) fun size hsize => ?_⟩
    obtain ⟨save, -, -, hparameter⟩ := forall₂_mem_left hm.invariant.2.arrays hb
    obtain ⟨n, rfl⟩ := hparameter.literal hsize
    exact Expr.nodes_of_leaf rfl trivial

/-- A loop nest goes alike in machines that agree on what it refers to but for the slots, which it
declares. -/
theorem loopNest_agrees {point body : Stmt} (hbody : m.loopNest point = .ok body)
    (hcovered : body.Everywhere fun s => ∀ e ∈ s.exprs, ∀ n ∈ e.nodes,
      n.CoveredBy (ps ++ m.slotScalars.map .scalar))
    (hplain : body.Everywhere Plain) (h : AgreeOn ps M M') :
    (run body M).Alike (AgreeOn ps) (run body M') := by
  obtain ⟨loop, rfl⟩ : ∃ loop, body = .block (m.slotScalars.map .declare ++ [loop]) := by
    obtain ⟨bounds, -, hbody⟩ := bind_eq_ok.1 hbody
    exact ⟨_, (Except.ok.inj hbody).symm⟩
  have hloop : loop ∈ m.slotScalars.map .declare ++ [loop] := by simp
  rw [run, run, runAll_append, runAll_append]
  refine (h.declares m.slotScalars).andThen_mono (fun _ _ h => h.mono (by simp)) fun N N' h => ?_
  rw [runAll_singleton, runAll_singleton]
  refine (h.run ((Stmt.everywhere_block.1 hcovered).2 loop hloop) fun a ha => ?_).mono
    fun _ _ h => h.mono (by simp)
  exact absurd rfl (((Stmt.everywhere_block.1 hplain).2 loop hloop _ ha).views a)

end Run

/-- The kernel of a march is a function of the registered parameters: in machines that bind those
alike, and the sizes of axes, it ends alike, whatever else they bind. -/
theorem runKernel_of_registered {R : Type} [Arithmetic R] (hm : Registered specs m)
    {symbols : List String} {equations : List Equation} {rows : List (List Expr)}
    (hsource : m.source? = some (.equations symbols equations rows))
    (hexternal : ∀ eqn ∈ m.allEquations symbols equations rows,
      External eqn.lhs ∧ External eqn.rhs)
    {e : EntryPoint} {k : Kernel} (he : m.entryPoint = .ok e) (hk : e.toKernel = .ok k)
    {M M' : Machine R} (hparameters : ∀ p ∈ m.entry.parameters, M.SameParameter M' p)
    (hsizes : ∀ name : String, M.sizes[name]? = M'.sizes[name]?) :
    (M.runKernel k).fault? = (M'.runKernel k).fault? ∧
      ∀ p ∈ m.entry.parameters,
        (M.runKernel k).machine.SameParameter (M'.runKernel k).machine p := by
  have hconfigured := hm.invariant.1
  obtain ⟨ss, body, -, hss, hbody, rfl⟩ := entryPoint_eq_ok hsource he
  have hidle : AgreeOn m.entry.parameters M.idle M'.idle := by
    refine ⟨fun p hp => ?_, hsizes, fun _ => rfl⟩
    cases p with
    | array a => exact hparameters _ hp
    | scalar s => exact hparameters _ hp
  have hends : (M.runKernel k).Alike (AgreeOn m.entry.parameters) (M'.runKernel k) := by
    rw [runKernel, runKernel, EntryPoint.body_of_toKernel rfl hk, EntryPoint.statements, run, run,
      List.append_assoc, runAll_append, runAll_append]
    refine (hidle.declares m.entry.locals).andThen_mono (fun _ _ h => h.mono (by simp)) ?_
    intro N N' h
    rw [runAll_append, runAll_append]
    refine (views_agree hm h fun a ha => ?_).andThen_mono (fun _ _ h => h.mono (by simp)) ?_
    · exact List.mem_append_left _ (List.mem_append_left _ (List.mem_map_of_mem ha))
    intro N N' h
    rw [runAll_singleton, runAll_singleton]
    exact (loopNest_agrees hbody (covered_of_toKernel hexternal hss hconfigured hbody hk)
      (plain_loopNest hexternal hss hconfigured hbody) h).mono fun _ _ h => h.mono (by simp)
  exact ⟨hends.1, hends.2.parameters⟩

/-- A cell of the line with a ring is set to a local scalar. -/
def localCell : Guarded :=
  ⟨⟨.dim ⟨"x", .spatial⟩, .int 1⟩,
    ⟨.access (line "v" 2) [.dim ⟨"t", .time⟩, .dim ⟨"x", .spatial⟩], .scalar ⟨"c", .float64⟩⟩, none⟩

/-- The lines in a machine that also binds a slot, the local scalar and another array. -/
def staleMachine : Machine Binary64 :=
  ((linesMachine.bindScalar "t0" (Binary64.ofInt 9)).bindScalar "c" (Binary64.ofInt 7)).bindArray
    "w" (ones 1)

theorem exists_localCell : ∃ m, Registered linesSpecs m ∧ m.source? = some linesSource ∧
    m.before = [localCell] ∧ m.after = [] ∧
    m.entry.parameters = [.array (line "u" 3), .array (line "v" 2)] ∧
    ∃ e k M, m.entryPoint = .ok e ∧ e.toKernel = .ok k ∧ linesMachine.runKernel k = .done M := by
  have hm : Registered linesSpecs _ := .source linesSource (.guarded localCell true
    (.localScalar (.array (.array (.start rfl) (rfl : addArray _ "u" [3, 4] .float64 true = .ok _))
      (rfl : addArray _ "v" [2, 4] .float64 false = .ok _))
      (rfl : addLocal _ "c" .float64 = .ok _)))
  exact ⟨_, hm, rfl, rfl, rfl, rfl, exists_done_of_any (by decide +kernel)⟩

theorem runKernel_of_registered_lines :
    ∃ m e k M, Registered linesSpecs m ∧ m.before = [localCell] ∧ m.source? = some linesSource ∧
      m.entryPoint = .ok e ∧ e.toKernel = .ok k ∧ linesMachine.runKernel k = .done M ∧
      (staleMachine.runKernel k).fault? = none ∧
      ∀ name ∈ ["u", "v"], (staleMachine.runKernel k).machine.arrays[name]? = M.arrays[name]? := by
  obtain ⟨m, hm, hsource, hbefore, hafter, hparameters, e, k, M, he, hk, hrun⟩ := exists_localCell
  have hequations : m.allEquations [] [neighboursAt (line "u" 3), neighboursAt (line "v" 2)]
      [[], []] = [neighboursAt (line "u" 3), neighboursAt (line "v" 2), localCell.condition,
        localCell.thenAssign] := by
    rw [allEquations, hbefore, hafter]
    rfl
  have hexternal : ∀ eqn ∈ m.allEquations [] [neighboursAt (line "u" 3),
      neighboursAt (line "v" 2)] [[], []], External eqn.lhs ∧ External eqn.rhs := by
    rw [hequations]
    decide +kernel
  have hbinds : ∀ p ∈ m.entry.parameters, linesMachine.SameParameter staleMachine p := by
    simp [hparameters, SameParameter, linesMachine, staleMachine, line]
  obtain ⟨hfault, hends⟩ := runKernel_of_registered hm hsource hexternal he hk hbinds fun _ => rfl
  rw [hrun] at hfault hends
  refine ⟨m, e, k, M, hm, hbefore, hsource, he, hk, hrun, hfault.symm, fun name hname => ?_⟩
  have hlines : ∃ rows, .array (line name rows) ∈ m.entry.parameters := by
    rw [hparameters]
    simp only [List.mem_cons, List.not_mem_nil, or_false] at hname
    rcases hname with rfl | rfl
    · exact ⟨3, List.mem_cons_self⟩
    · exact ⟨2, List.mem_cons_of_mem _ List.mem_cons_self⟩
  obtain ⟨rows, hline⟩ := hlines
  exact (hends _ hline).symm

end March
end GridKernel
