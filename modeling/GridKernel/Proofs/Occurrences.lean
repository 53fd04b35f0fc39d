import Mathlib.Data.List.Nodup
import GridKernel.Proofs.Sameness

/-! Occurrences. A walk over a statement meets arrays, scalars and untyped names one after another.
What the statement neither declares nor allocates is its stream, and its parameters are the arrays
and then the scalars of the stream, each at its first occurrence, unless an occurrence comes that is
untyped or gives a name met before to another entity. -/
namespace GridKernel

mutual

/-- The entities and untyped names in an expression, an array before its indices. -/
def Expr.occurrences : Expr → List Use
  | .symbol name => [.unknown name]
  | .scalar t => [.entity (.scalar t)]
  | .access a indices => .entity (.array a) :: occurrencesAll indices
  | .neg e => e.occurrences
  | .binary _ l r => l.occurrences ++ r.occurrences
  | _ => []
termination_by structural e => e

def Expr.occurrencesAll : List Expr → List Use
  | [] => []
  | e :: es => e.occurrences ++ occurrencesAll es
termination_by structural es => es

end

/-- The occurrences in the start and the step of an index that advances with a loop. -/
def Dimension.occurrences (d : Dimension) : List Use :=
  match d.role with
  | .incremented _ start step => start.occurrences ++ step.occurrences
  | _ => []

mutual

/-- The entities and untyped names in a statement, those of a loop's head or of a condition before
those of the bodies. -/
def Stmt.occurrences : Stmt → List Use
  | .assign target value => target.occurrences ++ value.occurrences
  | .loop head body =>
    head.bounds.lower.occurrences ++ head.bounds.upper.occurrences ++
      head.companions.flatMap Dimension.occurrences ++ body.occurrences
  | .when c body => c.occurrences ++ body.occurrences
  | .ifElse c thenBody elseBody =>
    c.occurrences ++ thenBody.occurrences ++ elseBody.occurrences
  | .block body => occurrencesAll body
  | .view a => [.entity (.array a)]
  | .declare _ => []
  | .kernel _ body => body.occurrences
termination_by structural s => s

def Stmt.occurrencesAll : List Stmt → List Use
  | [] => []
  | s :: ss => s.occurrences ++ occurrencesAll ss
termination_by structural ss => ss

end

namespace Use

/-- An array from outside, a scalar under a name that is not declared, or an untyped name. -/
def isExternal (declared : List String) : Use → Bool
  | .entity (.array a) => a.scope = .external
  | .entity (.scalar t) => t.name ∉ declared
  | .unknown _ => true

def entity? : Use → Option Parameter
  | .entity p => some p
  | .unknown _ => none

/-- Why an occurrence is refused, if it is. -/
def cause : Use → Cause
  | .entity p => .twoEntities p.name
  | .unknown name => .untypedSymbol name

end Use

/-- The occurrences in a statement of what it does not provide itself. -/
def Stmt.stream (s : Stmt) : List Use := s.occurrences.filter (Use.isExternal s.declaredNames)

section Walk

variable (declared : List String)

theorem Use.ofArray?_toList (a : GridArray) :
    (ofArray? a).toList = [entity (.array a)].filter (isExternal declared) := by
  cases hscope : a.scope <;> simp [ofArray?, isExternal, hscope]

mutual

theorem Expr.uses_eq (e : Expr) :
    e.nodes.filterMap (Use.ofExpr? declared) = e.occurrences.filter (Use.isExternal declared) := by
  cases e with
  | scalar t =>
    by_cases h : t.name ∈ declared <;> simp [nodes, occurrences, Use.ofExpr?, Use.isExternal, h]
  | access a es =>
    have harray := Use.ofArray?_toList declared a
    rw [nodes, occurrences, ← List.singleton_append (l := nodesAll es),
      ← List.singleton_append (l := occurrencesAll es), List.filterMap_append, List.filter_append,
      ← harray, ← usesAll_eq es]
    rfl
  | neg e =>
    have hself : Use.ofExpr? declared (.neg e) = none := rfl
    rw [nodes, occurrences, List.filterMap_cons_none hself, uses_eq e]
  | binary op l r =>
    have hself : Use.ofExpr? declared (.binary op l r) = none := rfl
    rw [nodes, occurrences, List.filterMap_cons_none hself, List.filterMap_append,
      List.filter_append, uses_eq l, uses_eq r]
  | _ => rfl
termination_by structural e

theorem Expr.usesAll_eq (es : List Expr) :
    (nodesAll es).filterMap (Use.ofExpr? declared) =
      (occurrencesAll es).filter (Use.isExternal declared) := by
  cases es with
  | nil => rfl
  | cons e es =>
    rw [nodesAll, occurrencesAll, List.filterMap_append, List.filter_append, uses_eq e,
      usesAll_eq es]
termination_by structural es

end

theorem Expr.usesOf_eq (es : List Expr) :
    (es.flatMap nodes).filterMap (Use.ofExpr? declared) =
      (es.flatMap occurrences).filter (Use.isExternal declared) := by
  induction es with
  | nil => rfl
  | cons e es ih =>
    rw [List.flatMap_cons, List.flatMap_cons, List.filterMap_append, List.filter_append,
      e.uses_eq declared, ih]

theorem Dimension.occurrences_stepping (d : Dimension) :
    d.stepping.flatMap Expr.occurrences = d.occurrences := by
  rcases d with ⟨name, role⟩
  cases role <;> simp [stepping, occurrences]

/-- A statement that is no view uses itself what the walk over its own expressions meets. -/
theorem Stmt.uses_of_exprs {s : Stmt} (h : ∀ a, s ≠ .view a) :
    s.ownUses declared =
      (s.exprs.flatMap Expr.occurrences).filter (Use.isExternal declared) := by
  rw [← Expr.usesOf_eq]
  cases s with
  | view a => exact absurd rfl (h a)
  | _ => rfl

mutual

theorem Stmt.walk_eq (s : Stmt) :
    s.nodes.flatMap (ownUses declared) = s.occurrences.filter (Use.isExternal declared) := by
  cases s with
  | assign target value =>
    simp [nodes, uses_of_exprs, exprs, occurrences]
  | loop head body =>
    simp [nodes, uses_of_exprs, exprs, occurrences, walk_eq body, List.flatMap_assoc,
      Dimension.occurrences_stepping]
  | when c body => simp [nodes, uses_of_exprs, exprs, occurrences, walk_eq body]
  | ifElse c t e => simp [nodes, uses_of_exprs, exprs, occurrences, walk_eq t, walk_eq e]
  | block body => simp [nodes, uses_of_exprs, exprs, occurrences, walkAll_eq body]
  | view a => simp [nodes, ownUses, occurrences, Use.ofArray?_toList declared]
  | declare t => rfl
  | kernel signature body => simp [nodes, uses_of_exprs, exprs, occurrences, walk_eq body]
termination_by structural s

theorem Stmt.walkAll_eq (ss : List Stmt) :
    (nodesAll ss).flatMap (ownUses declared) =
      (occurrencesAll ss).filter (Use.isExternal declared) := by
  cases ss with
  | nil => rfl
  | cons s ss =>
    rw [nodesAll, occurrencesAll, List.flatMap_append, List.filter_append, walk_eq s, walkAll_eq ss]
termination_by structural ss

end

end Walk

/-- The uses listed node by node are those that the walk meets. -/
theorem Stmt.uses_eq_stream (s : Stmt) : s.uses = s.stream := s.walk_eq s.declaredNames

section Fold

variable {uses : List Use} {met ps : List Parameter}

/-- A use is met, or it is refused for its own cause. -/
theorem addUse_eq_ok_or (met : List Parameter) (u : Use) :
    (∃ next, addUse met u = .ok next) ∨ addUse met u = refuse u.cause := by
  cases u with
  | unknown name => exact .inr rfl
  | entity p =>
    cases hfind : met.find? (·.name == p.name) with
    | some q =>
      simp only [addUse, hfind]
      split
      · exact .inl ⟨met, rfl⟩
      · exact .inr rfl
    | none => exact .inl ⟨met ++ [p], by simp only [addUse, hfind]⟩

/-- An entity is met again, or it is met first, under a name of its own. -/
theorem addUse_eq_ok {p : Parameter} (h : addUse met (.entity p) = .ok ps) :
    (ps = met ∧ ∃ q ∈ met, q.same p) ∨ (ps = met ++ [p] ∧ ∀ q ∈ met, q.name ≠ p.name) := by
  cases hfind : met.find? (·.name == p.name) with
  | some q =>
    simp only [addUse, hfind] at h
    split at h
    · rename_i hsame
      exact .inl ⟨(Except.ok.inj h).symm, q, List.mem_of_find?_eq_some hfind, hsame⟩
    · cases h
  | none =>
    simp only [addUse, hfind] at h
    refine .inr ⟨(Except.ok.inj h).symm, fun q hq => ?_⟩
    simpa using List.find?_eq_none.1 hfind q hq

/-- The entities met have names of their own. -/
theorem names_of_foldlM_addUse (h : uses.foldlM addUse met = .ok ps)
    (hmet : (met.map Parameter.name).Nodup) : (ps.map Parameter.name).Nodup := by
  induction uses generalizing met with
  | nil =>
    obtain rfl := Except.ok.inj h
    exact hmet
  | cons u uses ih =>
    rw [List.foldlM_cons] at h
    obtain ⟨next, hnext, h⟩ := bind_eq_ok.1 h
    refine ih h ?_
    cases u with
    | unknown name => cases hnext
    | entity p =>
      rcases addUse_eq_ok hnext with ⟨rfl, -⟩ | ⟨rfl, hfresh⟩
      · exact hmet
      · rw [List.map_append, List.nodup_append]
        refine ⟨hmet, List.nodup_singleton _, fun n hn m hm => ?_⟩
        obtain ⟨q, hq, rfl⟩ := List.mem_map.1 hn
        obtain rfl := List.mem_singleton.1 hm
        exact hfresh q hq

/-- Uses that are all met are consistent. -/
theorem consistent_of_foldlM_addUse (h : uses.foldlM addUse [] = .ok ps) : Consistent uses := by
  refine ⟨entity_of_foldlM_addUse h, fun p q hp hq hname => ?_⟩
  have hnames := names_of_foldlM_addUse h List.nodup_nil
  obtain ⟨r, hr, hrp, hsame⟩ := (mem_of_foldlM_addUse h).2 p hp
  obtain ⟨r', hr', hrq, hsame'⟩ := (mem_of_foldlM_addUse h).2 q hq
  obtain rfl : r = r' := List.inj_on_of_nodup_map hnames hr hr' (by rw [hrp, hrq, hname])
  exact Parameter.same_of_same hsame hsame'

theorem foldlM_addUse_eq_ok_iff : (∃ ps, uses.foldlM addUse [] = .ok ps) ↔ Consistent uses := by
  constructor
  · rintro ⟨ps, h⟩
    exact consistent_of_foldlM_addUse h
  · intro h
    exact foldlM_addUse h.1 fun p q hp => h.2 p q (by simpa using hp)

/-- Uses are refused for the first one that is not consistent with those before it. -/
theorem foldlM_addUse_eq_error {fault : Fault} : uses.foldlM addUse [] = .error fault ↔
    ∃ before u after, uses = before ++ u :: after ∧ Consistent before ∧
      ¬ Consistent (before ++ [u]) ∧ fault = .cause u.cause := by
  rw [foldlM_eq_error]
  -- what one more use does to the entities met before it
  have hstep : ∀ {before met} (u : Use), before.foldlM addUse [] = .ok met →
      (before ++ [u]).foldlM addUse [] = addUse met u := by
    intro before met u hbefore
    rw [List.foldlM_append, hbefore, ok_bind, List.foldlM_cons]
    exact bind_pure (addUse met u)
  constructor
  · rintro ⟨before, u, after, met, rfl, hbefore, hu⟩
    refine ⟨before, u, after, rfl, consistent_of_foldlM_addUse hbefore, ?_, ?_⟩
    · rw [← foldlM_addUse_eq_ok_iff, hstep u hbefore, hu]
      rintro ⟨ps, ⟨⟩⟩
    · rcases addUse_eq_ok_or met u with ⟨next, hnext⟩ | hcause
      · rw [hnext] at hu
        cases hu
      · rw [hcause] at hu
        exact (Except.error.inj hu).symm
  · rintro ⟨before, u, after, rfl, hbefore, hu, rfl⟩
    obtain ⟨met, hmet⟩ := foldlM_addUse_eq_ok_iff.2 hbefore
    refine ⟨before, u, after, met, rfl, hmet, ?_⟩
    rw [← foldlM_addUse_eq_ok_iff, hstep u hmet] at hu
    exact (addUse_eq_ok_or met u).resolve_left hu

/-- An entity is the same as none met before. -/
def Parameter.isNew (met : List Parameter) (p : Parameter) : Bool := !met.any (·.same p)

@[simp] theorem Parameter.isNew_nil : isNew [] = fun _ => true := rfl

theorem Parameter.isNew_concat (p q : Parameter) :
    q.isNew (met ++ [p]) = (decide (q.same p = false) && q.isNew met) := by
  rw [isNew, isNew, q.same_comm p]
  cases hp : p.same q <;> simp [hp]

theorem Parameter.isNew_of_names {p : Parameter} (h : ∀ q ∈ met, q.name ≠ p.name) :
    p.isNew met = true := by
  rw [isNew, Bool.not_eq_true', List.any_eq_false]
  intro q hq hsame
  exact h q hq (eq_of_same hsame).1

/-- The entities met are those met before and, once each, the new ones among those used. -/
theorem eq_of_foldlM_addUse (h : uses.foldlM addUse met = .ok ps) :
    ps = met ++ ((uses.filterMap Use.entity?).filter (Parameter.isNew met)).eraseDupsBy
      Parameter.same := by
  induction uses generalizing met with
  | nil =>
    obtain rfl := Except.ok.inj h
    simp
  | cons u uses ih =>
    rw [List.foldlM_cons] at h
    obtain ⟨next, hnext, h⟩ := bind_eq_ok.1 h
    rw [ih h]
    cases u with
    | unknown name => cases hnext
    | entity p =>
      rw [List.filterMap_cons_some (f := Use.entity?) rfl]
      rcases addUse_eq_ok hnext with ⟨rfl, hmet⟩ | ⟨rfl, hfresh⟩
      · have hmet : (next.any (·.same p)) = true := List.any_eq_true.2 hmet
        have hold : ¬ p.isNew next := by simp [Parameter.isNew, hmet]
        rw [List.filter_cons_of_neg hold]
      · -- what is new beside the entity added is new before it and differs from it
        have hrest : (uses.filterMap Use.entity?).filter (Parameter.isNew (met ++ [p])) =
            ((uses.filterMap Use.entity?).filter (Parameter.isNew met)).filter
              fun q => decide (q.same p = false) := by
          rw [List.filter_filter]
          exact List.filter_congr fun q _ => p.isNew_concat q
        rw [List.filter_cons_of_pos (Parameter.isNew_of_names hfresh), List.eraseDupsBy_cons, hrest,
          List.append_assoc, List.singleton_append]

end Fold

/-- A property that related entries share is kept by removing entries related to an earlier one. -/
theorem filter_eraseDupsBy {α : Type} {r : α → α → Bool} {P : α → Bool}
    (hP : ∀ a b, r a b → P a = P b) (xs : List α) :
    (xs.eraseDupsBy r).filter P = (xs.filter P).eraseDupsBy r := by
  cases xs with
  | nil => simp
  | cons a xs =>
    rw [List.eraseDupsBy_cons]
    have hrest := filter_eraseDupsBy hP (xs.filter fun b => decide (r b a = false))
    cases ha : P a with
    | true =>
      rw [List.filter_cons_of_pos ha, List.filter_cons_of_pos ha, List.eraseDupsBy_cons, hrest,
        List.filter_comm]
    | false =>
      have hapart : (xs.filter fun b => decide (r b a = false)).filter P = xs.filter P := by
        rw [List.filter_filter]
        refine List.filter_congr fun b _ => ?_
        cases hb : P b with
        | true =>
          have hba : r b a = false := by
            by_contra hba
            have hsame := hP b a (by simpa using hba)
            rw [hb, ha] at hsame
            cases hsame
          simp [hba]
        | false => rfl
      rw [List.filter_cons_of_neg (by simp [ha]), List.filter_cons_of_neg (by simp [ha]), hrest,
        hapart]
termination_by xs.length
decreasing_by
  have hle := List.length_filter_le (fun b => decide (r b a = false)) xs
  simp only [List.length_cons]
  omega

namespace Stmt

variable (s : Stmt)

/-- The entities of the stream, in order. -/
def streamed : List Parameter := s.stream.filterMap Use.entity?

/-- The arrays and then the scalars of the stream, each at its first occurrence. -/
def firstOccurrences : List Parameter :=
  (s.streamed.filter Parameter.isArray).eraseDupsBy Parameter.same ++
    (s.streamed.filter (!·.isArray)).eraseDupsBy Parameter.same

/-- The parameters are found exactly when the stream is consistent. They are then the arrays and the
scalars of the stream in order of first occurrence, with distinct names. Otherwise the first
occurrence that is not consistent with those before it is refused. -/
theorem parameters_of_stream :
    (∀ ps, s.parameters = .ok ps ↔ Consistent s.stream ∧ ps = s.firstOccurrences) ∧
      (∀ ps, s.parameters = .ok ps → (ps.map Parameter.name).Nodup) ∧
      ∀ fault, s.parameters = .error fault ↔
        ∃ before u after, s.stream = before ++ u :: after ∧ Consistent before ∧
          ¬ Consistent (before ++ [u]) ∧ fault = .cause u.cause := by
  have hsame : ∀ p q : Parameter, p.same q → p.isArray = q.isArray := fun p q h =>
    (Parameter.eq_of_same h).2
  have hparts : ∀ met, s.uses.foldlM addUse [] = .ok met →
      met.filter Parameter.isArray ++ met.filter (!·.isArray) = s.firstOccurrences := by
    intro met hmet
    have hall : met = s.streamed.eraseDupsBy Parameter.same := by
      rw [eq_of_foldlM_addUse hmet, s.uses_eq_stream]
      simp [streamed]
    rw [hall, filter_eraseDupsBy hsame, filter_eraseDupsBy fun p q h => by rw [hsame p q h],
      firstOccurrences]
  refine ⟨fun ps => ?_, fun ps hps => ?_, fun fault => ?_⟩
  · rw [← s.uses_eq_stream, ← foldlM_addUse_eq_ok_iff, parameters, bind_eq_ok]
    constructor
    · rintro ⟨met, hmet, hps⟩
      exact ⟨⟨met, hmet⟩, (Except.ok.inj hps).symm.trans (hparts met hmet)⟩
    · rintro ⟨⟨met, hmet⟩, rfl⟩
      exact ⟨met, hmet, by rw [← hparts met hmet]; rfl⟩
  · obtain ⟨met, hmet, hps⟩ := bind_eq_ok.1 hps
    obtain rfl := Except.ok.inj hps
    have hnames := names_of_foldlM_addUse hmet List.nodup_nil
    -- the two parts together are the entities met, in another order
    have hperm := List.filter_append_perm Parameter.isArray met
    exact ((hperm.map Parameter.name).nodup_iff).2 hnames
  · rw [← s.uses_eq_stream, ← foldlM_addUse_eq_error, parameters, bind_eq_error]
    simp

/-- A loop up to `c` that fills `a` by way of a scalar of its own. -/
def filling : Stmt :=
  .loop ⟨⟨"x", .spatial⟩, .upTo (.scalar ⟨"c", .int32⟩), [], .parallel⟩ (.block [
    .declare ⟨"t", .int32⟩,
    .assign (.scalar ⟨"t", .int32⟩) (.scalar ⟨"k", .int32⟩),
    .assign (.access ⟨"a", .int32, [⟨"x", .spatial⟩], [.size "x"], [.none], .external⟩
      [.dim ⟨"x", .spatial⟩]) (.binary .add (.scalar ⟨"t", .int32⟩) (.scalar ⟨"c", .int32⟩))])

/-- Two types under one name, before an untyped name. -/
def conflicting : Stmt :=
  .block [.assign (.scalar ⟨"a", .int32⟩) (.scalar ⟨"a", .float64⟩),
    .assign (.symbol "u") (.int 1)]

theorem parameters_of_stream_filling :
    (∃ ps, filling.parameters = .ok ps ∧ ps.map Parameter.name = ["a", "c", "k"] ∧
      (ps.map Parameter.name).Nodup) ∧
    conflicting.parameters = .error (.cause (.twoEntities "a")) := by
  have hfilling : ∃ ps, filling.parameters = .ok ps ∧
      ps.map Parameter.name = ["a", "c", "k"] := ⟨_, rfl, rfl⟩
  obtain ⟨ps, hps, hnames⟩ := hfilling
  refine ⟨⟨ps, hps, hnames, filling.parameters_of_stream.2.1 ps hps⟩, ?_⟩
  refine (conflicting.parameters_of_stream.2.2 _).2
    ⟨[.entity (.scalar ⟨"a", .int32⟩)], .entity (.scalar ⟨"a", .float64⟩), [.unknown "u"], rfl,
      ?_, ?_, rfl⟩
  · exact foldlM_addUse_eq_ok_iff.1 ⟨_, rfl⟩
  · rw [← foldlM_addUse_eq_ok_iff]
    rintro ⟨ps, ⟨⟩⟩

end Stmt

end GridKernel
