import GridKernel.Proofs.EntryPoints
import GridKernel.Proofs.Sameness

/-! Entities of a kernel. The kernel of an entry point is made when everything that its statements
refer to, but do not provide themselves, is registered. One name then denotes one entity among the
parameters and those references. Scalars that the statements declare and arrays that they allocate
are compared with nothing, so each of them may share its name with another entity. -/
namespace GridKernel

/-- The array or scalar that a node refers to. -/
def Expr.entity? : Expr → Option Parameter
  | .access a _ => some (.array a)
  | .scalar t => some (.scalar t)
  | _ => none

namespace Stmt

/-- An array that a statement views, or an array or a scalar in one of its expressions. -/
inductive Refers (s : Stmt) : Parameter → Prop where
  | view {a : GridArray} (h : .view a ∈ s.nodes) : Refers s (.array a)
  | node {x : Stmt} {e n : Expr} {p : Parameter} (hx : x ∈ s.nodes) (he : e ∈ x.exprs)
    (hn : n ∈ e.nodes) (hp : n.entity? = some p) : Refers s p

/-- A scalar under a name that a statement declares, or an array that it allocates. -/
def Provides (s : Stmt) : Parameter → Prop
  | .array a => a.scope = .internal
  | .scalar t => t.name ∈ s.declaredNames

/-- An entity in a statement: a parameter of a kernel, a scalar declared, a reference, or a reference
in the shape of an array in the statement. -/
inductive Mentions (s : Stmt) : Parameter → Prop where
  | parameter {signature : Signature} {body : Stmt} {p : Parameter}
    (h : .kernel signature body ∈ s.nodes) (hp : p ∈ signature.parameters) : Mentions s p
  | declared {t : Scalar} (h : .declare t ∈ s.nodes) : Mentions s (.scalar t)
  | refers {p : Parameter} (h : s.Refers p) : Mentions s p
  | extent {a : GridArray} {e n : Expr} {p : Parameter} (ha : Mentions s (.array a))
    (he : e ∈ a.shape) (hn : n ∈ e.nodes) (hp : n.entity? = some p) : Mentions s p

/-- One name denotes one entity, with one type and one layout. -/
def OneEntity (s : Stmt) : Prop :=
  ∀ p q, s.Mentions p → s.Mentions q → p.name = q.name → p.same q

variable {s : Stmt} {p : Parameter}

theorem ofArray?_eq_some {a : GridArray} :
    Use.ofArray? a = some (.entity p) ↔ .array a = p ∧ ¬ s.Provides p := by
  cases hscope : a.scope with
  | external =>
    simp only [Use.ofArray?, hscope, Option.some.injEq, Use.entity.injEq]
    constructor
    · rintro rfl
      exact ⟨rfl, by simp [Provides, hscope]⟩
    · exact fun h => h.1
  | internal =>
    simp only [Use.ofArray?, hscope, reduceCtorEq, false_iff]
    rintro ⟨rfl, h⟩
    exact h hscope

theorem ofExpr?_eq_some {n : Expr} :
    Use.ofExpr? s.declaredNames n = some (.entity p) ↔ n.entity? = some p ∧ ¬ s.Provides p := by
  cases n with
  | access a es => simp only [Use.ofExpr?, Expr.entity?, Option.some.injEq, ofArray?_eq_some (s := s)]
  | scalar t =>
    simp only [Use.ofExpr?, Expr.entity?, Option.ite_none_left_eq_some, Option.some.injEq,
      Use.entity.injEq]
    constructor
    · rintro ⟨hfree, rfl⟩
      exact ⟨rfl, hfree⟩
    · rintro ⟨rfl, hfree⟩
      exact ⟨hfree, rfl⟩
  | _ => simp [Use.ofExpr?, Expr.entity?]

/-- The entities that a statement uses are those that it refers to and does not provide. -/
theorem mem_uses_iff : .entity p ∈ s.uses ↔ s.Refers p ∧ ¬ s.Provides p := by
  constructor
  · intro h
    rcases mem_uses h with ⟨a, ha, huse⟩ | ⟨x, hx, e, he, n, hn, huse⟩
    · obtain ⟨rfl, hprovides⟩ := (ofArray?_eq_some (s := s)).1 huse
      exact ⟨.view ha, hprovides⟩
    · obtain ⟨hp, hprovides⟩ := ofExpr?_eq_some.1 huse
      exact ⟨.node hx he hn hp, hprovides⟩
  · rintro ⟨h, hprovides⟩
    cases h with
    | view h => exact use_of_view h (ofArray?_eq_some.2 ⟨rfl, hprovides⟩)
    | node hx he hn hp => exact use_of_node hx he hn (ofExpr?_eq_some.2 ⟨hp, hprovides⟩)

theorem ofArray?_ne_unknown {a : GridArray} {name : String} :
    Use.ofArray? a ≠ some (.unknown name) := by
  cases hscope : a.scope <;> simp [Use.ofArray?, hscope]

/-- A statement uses a name without an entity where one of its expressions holds that symbol. -/
theorem unknown_mem_uses_iff {name : String} :
    .unknown name ∈ s.uses ↔ ∃ x ∈ s.nodes, ∃ e ∈ x.exprs, .symbol name ∈ e.nodes := by
  constructor
  · intro h
    rcases mem_uses h with ⟨a, -, huse⟩ | ⟨x, hx, e, he, n, hn, huse⟩
    · cases ofArray?_ne_unknown huse
    · cases n with
      | symbol n =>
        obtain rfl := Use.unknown.inj (Option.some.inj huse)
        exact ⟨x, hx, e, he, hn⟩
      | access a es => cases ofArray?_ne_unknown huse
      | scalar t => simp [Use.ofExpr?] at huse
      | _ => cases huse
  · rintro ⟨x, hx, e, he, hn⟩
    exact use_of_node hx he hn rfl

end Stmt

namespace EntryPoint

variable {e : EntryPoint}

/-- The entry points that registrations and bodies lead to. -/
inductive Reached : EntryPoint → Prop where
  | empty (name : String) : Reached (.empty name)
  | array {e e' : EntryPoint} {a : GridArray} (he : Reached e) (h : e.addArray a = .ok e') :
    Reached e'
  | scalar {e e' : EntryPoint} {s : Scalar} (he : Reached e) (h : e.addScalar s = .ok e') :
    Reached e'
  | localScalar {e e' : EntryPoint} {s : Scalar} (he : Reached e) (h : e.addLocal s = .ok e') :
    Reached e'
  | body {e : EntryPoint} (he : Reached e) (s : Stmt) : Reached (e.withBody s)

/-- No name is registered twice. -/
theorem Reached.names (he : Reached e) : e.registeredNames.Nodup := by
  induction he with
  | empty name => exact List.nodup_nil
  | array _ h ih =>
    obtain ⟨_, hclaim, h⟩ := bind_eq_ok.1 h
    obtain rfl := Except.ok.inj h
    have hnodup := List.nodup_cons.2 ⟨claim_eq_ok.1 hclaim, ih⟩
    exact (perm_addArray _ _).nodup_iff.2 hnodup
  | scalar _ h ih =>
    obtain ⟨_, hclaim, h⟩ := bind_eq_ok.1 h
    obtain rfl := Except.ok.inj h
    have hnodup := List.nodup_cons.2 ⟨claim_eq_ok.1 hclaim, ih⟩
    exact (perm_addScalar _ _).nodup_iff.2 hnodup
  | localScalar _ h ih =>
    obtain ⟨_, hclaim, h⟩ := bind_eq_ok.1 h
    obtain rfl := Except.ok.inj h
    have hnodup := List.nodup_cons.2 ⟨claim_eq_ok.1 hclaim, ih⟩
    exact (perm_addLocal _ _).nodup_iff.2 hnodup
  | body _ s ih => exact ih

/-- The kernel of an entry point around a body. -/
def kernel (e : EntryPoint) (body : Stmt) : Kernel :=
  ⟨⟨e.name, none, e.parameters, []⟩, e.statements body⟩

/-- Parameters of one name are one parameter. -/
theorem parameter_eq (hnames : e.registeredNames.Nodup) {p q : Parameter} (hp : p ∈ e.parameters)
    (hq : q ∈ e.parameters) (h : p.name = q.name) : p = q := by
  have hparameters : e.parameters.map Parameter.name =
      e.arrays.map GridArray.name ++ e.scalars.map Scalar.name := by
    simp [parameters, Function.comp_def, Parameter.name]
  have hnodup : (e.parameters.map Parameter.name).Nodup := by
    rw [hparameters]
    exact (List.nodup_append.1 hnames).1
  exact List.inj_on_of_nodup_map hnodup hp hq h

/-- Entities that are each the same as a parameter are the same when they share a name. -/
theorem same_of_registered (hnames : e.registeredNames.Nodup) {p q : Parameter}
    (hp : ∃ r ∈ e.parameters, p.same r) (hq : ∃ r ∈ e.parameters, q.same r)
    (h : p.name = q.name) : p.same q := by
  obtain ⟨r, hr, hpr⟩ := hp
  obtain ⟨r', hr', hqr'⟩ := hq
  have hname : r.name = r'.name := by
    rw [← (Parameter.eq_of_same hpr).1, h, (Parameter.eq_of_same hqr').1]
  obtain rfl := parameter_eq hnames hr hr' hname
  exact Parameter.same_trans hpr (Parameter.same_symm hqr')

/-- A kernel is made exactly when its statements hold no untyped name and all entities that they use
are registered. -/
theorem toKernel_iff (hnames : e.registeredNames.Nodup) {body : Stmt} (hbody : e.body? = some body)
    {k : Kernel} :
    e.toKernel = .ok k ↔ k = e.kernel body ∧ ∀ u ∈ (e.statements body).uses,
      ∃ p, u = .entity p ∧ ∃ q ∈ e.parameters, p.same q := by
  constructor
  · intro hk
    obtain ⟨-, used, hused, hregistered⟩ := toKernel_eq_ok hbody hk
    constructor
    · rw [toKernel, hbody] at hk
      simp only [hused, ok_bind] at hk
      split at hk
      · cases hk
      · exact (Except.ok.inj hk).symm
    · intro u hu
      obtain ⟨p, rfl⟩ := Stmt.entity_of_parameters hused hu
      obtain ⟨r, hr, -, hrp⟩ := Stmt.exists_parameter hused hu
      obtain ⟨q, hq, hrq⟩ := hregistered r hr
      exact ⟨p, rfl, q, hq, Parameter.same_of_same hrp hrq⟩
  · rintro ⟨rfl, huses⟩
    have hconsistent : Consistent (e.statements body).uses := by
      constructor
      · intro u hu
        obtain ⟨p, rfl, -⟩ := huses u hu
        exact ⟨p, rfl⟩
      · intro p q hp hq hname
        obtain ⟨_, ⟨⟩, hp⟩ := huses _ hp
        obtain ⟨_, ⟨⟩, hq⟩ := huses _ hq
        exact same_of_registered hnames hp hq hname
    obtain ⟨used, hused⟩ := Stmt.parameters_of_consistent hconsistent
    have hregistered : (used.find? fun p => !e.parameters.any p.same) = none := by
      rw [List.find?_eq_none]
      intro p hp
      obtain ⟨_, ⟨⟩, q, hq, hpq⟩ := huses _ (Stmt.used_of_parameter hused hp)
      have hany : e.parameters.any p.same := List.any_eq_true.2 ⟨q, hq, hpq⟩
      simp [hany]
    rw [toKernel, hbody]
    simp only [hused, ok_bind, hregistered]
    rfl

end EntryPoint

/-- A parameter, or a reference that the kernel does not provide itself. -/
def Kernel.Compares (k : Kernel) (p : Parameter) : Prop :=
  p ∈ k.signature.parameters ∨ k.body.Refers p ∧ ¬ k.body.Provides p

namespace EntryPoint

variable {e : EntryPoint}

/-- A name of a parameter is declared in the statements of an entry point exactly when its body
declares it. -/
theorem declared_of_parameter (hnames : e.registeredNames.Nodup) {body : Stmt} {p : Parameter}
    (hp : p ∈ e.parameters) :
    p.name ∈ (e.statements body).declaredNames ↔ p.name ∈ body.declaredNames := by
  have hparameter : p.name ∈ e.arrays.map GridArray.name ++ e.scalars.map Scalar.name := by
    rcases List.mem_append.1 hp with hp | hp
    · obtain ⟨a, ha, rfl⟩ := List.mem_map.1 hp
      exact List.mem_append_left _ (List.mem_map_of_mem ha)
    · obtain ⟨s, hs, rfl⟩ := List.mem_map.1 hp
      exact List.mem_append_right _ (List.mem_map_of_mem hs)
  constructor
  · intro h
    obtain ⟨t, ht, hname⟩ := Stmt.mem_declaredNames.1 h
    rcases mem_nodes_statements ht with heq | ⟨s, hs, heq⟩ | ⟨a, -, heq⟩ | ht
    · cases heq
    · obtain rfl := Stmt.declare.inj heq
      have hapart := (List.nodup_append.1 hnames).2.2 _ hparameter _ (List.mem_map_of_mem hs)
      exact absurd hname.symm hapart
    · cases heq
    · exact Stmt.mem_declaredNames.2 ⟨t, ht, hname⟩
  · intro h
    exact Stmt.declaredNames_block.2 ⟨body, by simp, h⟩

/-- Every use is of a registered entity exactly when nothing is untyped and every reference to what is
not provided is to a parameter. -/
theorem uses_registered_iff {s : Stmt} :
    (∀ u ∈ s.uses, ∃ p, u = .entity p ∧ ∃ q ∈ e.parameters, p.same q) ↔
      (∀ x ∈ s.nodes, ∀ f ∈ x.exprs, ∀ name, .symbol name ∉ f.nodes) ∧
        ∀ p, s.Refers p → ¬ s.Provides p → ∃ q ∈ e.parameters, p.same q := by
  constructor
  · intro h
    constructor
    · intro x hx f hf name hsymbol
      obtain ⟨_, ⟨⟩, -⟩ := h _ (Stmt.unknown_mem_uses_iff.2 ⟨x, hx, f, hf, hsymbol⟩)
    · intro p hrefers hprovides
      obtain ⟨_, ⟨⟩, hregistered⟩ := h _ (Stmt.mem_uses_iff.2 ⟨hrefers, hprovides⟩)
      exact hregistered
  · rintro ⟨htyped, hregistered⟩ u hu
    cases u with
    | unknown name =>
      obtain ⟨x, hx, f, hf, hsymbol⟩ := Stmt.unknown_mem_uses_iff.1 hu
      exact absurd hsymbol (htyped x hx f hf name)
    | entity p =>
      obtain ⟨hrefers, hprovides⟩ := Stmt.mem_uses_iff.1 hu
      exact ⟨p, rfl, hregistered p hrefers hprovides⟩

/-- A kernel is made exactly when nothing in it is untyped and everything that it refers to, but does
not provide, is a parameter. Among its parameters and those references one name denotes one entity.
In the whole kernel it does exactly when what is not compared agrees with everything of its name, and
a parameter is declared again exactly when the given body does so. -/
theorem Reached.named_entities (he : e.Reached) {body : Stmt} (hbody : e.body? = some body) :
    (∀ k, e.toKernel = .ok k ↔ k = e.kernel body ∧
      (∀ x ∈ k.body.nodes, ∀ f ∈ x.exprs, ∀ name, .symbol name ∉ f.nodes) ∧
      ∀ p, k.body.Refers p → ¬ k.body.Provides p → ∃ q ∈ e.parameters, p.same q) ∧
    ∀ k, e.toKernel = .ok k →
      (∀ p q, k.Compares p → k.Compares q → p.name = q.name → p.same q) ∧
      (k.toStmt.OneEntity ↔ ∀ p q, k.toStmt.Mentions p → k.toStmt.Mentions q → ¬ k.Compares p →
        p.name = q.name → p.same q) ∧
      ((∃ p ∈ k.signature.parameters, p.name ∈ k.body.declaredNames) ↔
        ∃ p ∈ e.parameters, p.name ∈ body.declaredNames) := by
  have hnames := he.names
  constructor
  · intro k
    rw [toKernel_iff hnames hbody]
    constructor
    · rintro ⟨rfl, huses⟩
      exact ⟨rfl, uses_registered_iff.1 huses⟩
    · rintro ⟨rfl, huses⟩
      exact ⟨rfl, uses_registered_iff.2 huses⟩
  · intro k hk
    obtain ⟨rfl, huses⟩ := (toKernel_iff hnames hbody).1 hk
    have hcompared : ∀ p q, (e.kernel body).Compares p → (e.kernel body).Compares q →
        p.name = q.name → p.same q := by
      have hregistered : ∀ p, (e.kernel body).Compares p → ∃ r ∈ e.parameters, p.same r := by
        intro p hp
        rcases hp with hp | hp
        · exact ⟨p, hp, p.same_self⟩
        · obtain ⟨_, ⟨⟩, hr⟩ := huses _ (Stmt.mem_uses_iff.2 hp)
          exact hr
      intro p q hp hq hname
      exact same_of_registered hnames (hregistered p hp) (hregistered q hq) hname
    refine ⟨hcompared, ?_, ?_⟩
    · constructor
      · intro h p q hp hq _ hname
        exact h p q hp hq hname
      · intro h p q hp hq hname
        by_cases hp' : (e.kernel body).Compares p
        · by_cases hq' : (e.kernel body).Compares q
          · exact hcompared p q hp' hq' hname
          · exact Parameter.same_symm (h q p hq hp hq' hname.symm)
        · exact h p q hp hq hp' hname
    · constructor
      · rintro ⟨p, hp, hdeclared⟩
        exact ⟨p, hp, (declared_of_parameter hnames hp).1 hdeclared⟩
      · rintro ⟨p, hp, hdeclared⟩
        exact ⟨p, hp, (declared_of_parameter hnames hp).2 hdeclared⟩

/-- A body that declares a scalar under the name of a registered one, with another type. -/
def redeclaring : Stmt :=
  .block [.declare ⟨"a", .float64⟩, .assign (.scalar ⟨"a", .float64⟩) (.int 1)]

theorem exists_redeclaring :
    ∃ e k, Reached e ∧ e.parameters = [.scalar ⟨"a", .int32⟩] ∧ e.body? = some redeclaring ∧
      e.toKernel = .ok k := by
  have he : Reached _ := .body (.scalar (.empty "kernel")
    (rfl : addScalar _ ⟨"a", .int32⟩ = .ok _)) redeclaring
  exact ⟨_, _, he, rfl, rfl, rfl⟩

/-- The kernel takes an integer and declares a float under its name. -/
theorem named_entities_redeclared :
    ∃ e k, Reached e ∧ e.body? = some redeclaring ∧ e.toKernel = .ok k ∧ ¬ k.toStmt.OneEntity ∧
      ∃ p ∈ k.signature.parameters, p.name ∈ k.body.declaredNames := by
  obtain ⟨e, k, he, hparameters, hbody, hk⟩ := exists_redeclaring
  obtain ⟨hmade, hkernel⟩ := he.named_entities hbody
  have hdeclared := (hkernel k hk).2.2
  obtain ⟨rfl, -⟩ := (hmade k).1 hk
  have hparameter : Parameter.scalar ⟨"a", .int32⟩ ∈ e.parameters := by simp [hparameters]
  have hshadowed := hdeclared.2 ⟨_, hparameter, by decide⟩
  refine ⟨e, _, he, hbody, hk, ?_, hshadowed⟩
  intro h
  have hnode : Stmt.declare ⟨"a", .float64⟩ ∈ (e.statements redeclaring).nodes := by
    apply List.mem_cons_of_mem
    exact Stmt.mem_nodesAll.2 ⟨redeclaring, by simp, by simp [redeclaring, Stmt.nodes, Stmt.nodesAll]⟩
  have hdeclares : (e.kernel redeclaring).toStmt.Mentions (.scalar ⟨"a", .float64⟩) :=
    .declared (List.mem_cons_of_mem _ hnode)
  have htakes : (e.kernel redeclaring).toStmt.Mentions (.scalar ⟨"a", .int32⟩) :=
    .parameter (List.mem_cons_self ..) hparameter
  have hsame := h _ _ hdeclares htakes rfl
  cases hsame

end EntryPoint

end GridKernel
