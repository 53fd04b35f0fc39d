import GridKernel.Proofs.Results
import GridKernel.Stmt.Parameters

/-! Parameters of statements. The parameters of a statement are found when every use is of a known
entity and no two uses give one name to different entities. -/
namespace GridKernel

/-- Every use is of an entity, and a name denotes one entity. -/
def Consistent (uses : List Use) : Prop :=
  (∀ u ∈ uses, ∃ p, u = .entity p) ∧
    ∀ p q, Use.entity p ∈ uses → Use.entity q ∈ uses → p.name = q.name → p.same q

theorem Parameter.same_self (p : Parameter) : p.same p = true := by
  cases p with
  | array a => exact a.same_self
  | scalar s => simp [Parameter.same]

theorem foldlM_addUse {uses : List Use} {met : List Parameter}
    (hentity : ∀ u ∈ uses, ∃ p, u = .entity p)
    (hsame : ∀ p q, p ∈ met ∨ Use.entity p ∈ uses → Use.entity q ∈ uses → p.name = q.name →
      p.same q) :
    ∃ ps, uses.foldlM addUse met = .ok ps := by
  induction uses generalizing met with
  | nil => exact ⟨met, rfl⟩
  | cons u uses ih =>
    obtain ⟨q, rfl⟩ := hentity u (by simp)
    have hrest : ∀ u ∈ uses, ∃ p, u = .entity p := fun u hu => hentity u (by simp [hu])
    rw [List.foldlM_cons]
    cases hfind : met.find? (·.name == q.name) with
    | some p =>
      have hname : p.name = q.name := by simpa using List.find?_some hfind
      have hp := hsame p q (.inl (List.mem_of_find?_eq_some hfind)) (by simp) hname
      simp only [addUse, hfind, hp, if_true, ok_bind]
      apply ih hrest
      intro p q' hp hq' hname
      exact hsame p q' (hp.imp_right fun h => by simp [h]) (by simp [hq']) hname
    | none =>
      simp only [addUse, hfind, ok_bind]
      apply ih hrest
      intro p q' hp hq' hname
      refine hsame p q' ?_ (by simp [hq']) hname
      rcases hp with hp | hp
      · rcases List.mem_append.1 hp with hp | hp
        · exact .inl hp
        · obtain rfl := List.mem_singleton.1 hp
          exact .inr (by simp)
      · exact .inr (by simp [hp])

/-- The parameters of a statement with consistent uses are found. -/
theorem Stmt.parameters_of_consistent {s : Stmt} (h : Consistent s.uses) :
    ∃ ps, s.parameters = .ok ps := by
  have hsame : ∀ p q, p ∈ ([] : List Parameter) ∨ Use.entity p ∈ s.uses → Use.entity q ∈ s.uses →
      p.name = q.name → p.same q := fun p q hp => h.2 p q (by simpa using hp)
  obtain ⟨ps, hps⟩ := foldlM_addUse h.1 hsame
  exact ⟨ps.filter Parameter.isArray ++ ps.filter (!·.isArray), by simp [Stmt.parameters, hps]⟩

/-- The entities met so far and those used are among those met at the end. -/
theorem mem_of_foldlM_addUse {uses : List Use} {met ps : List Parameter}
    (h : uses.foldlM addUse met = .ok ps) :
    met ⊆ ps ∧ ∀ p, Use.entity p ∈ uses → ∃ q ∈ ps, q.name = p.name ∧ q.same p := by
  induction uses generalizing met with
  | nil =>
    obtain rfl := Except.ok.inj h
    exact ⟨List.Subset.refl _, by simp⟩
  | cons u uses ih =>
    rw [List.foldlM_cons] at h
    obtain ⟨met', hmet', h⟩ := bind_eq_ok.1 h
    obtain ⟨hsub, hrest⟩ := ih h
    -- the use itself is met by the entity found, or by the one added
    obtain ⟨hkept, hused⟩ : met ⊆ met' ∧ ∀ p, u = .entity p →
        ∃ q ∈ met', q.name = p.name ∧ q.same p := by
      cases u with
      | unknown name => cases hmet'
      | entity p =>
        cases hfind : met.find? (·.name == p.name) with
        | some q =>
          simp only [addUse, hfind] at hmet'
          split at hmet'
          · rename_i hsame
            obtain rfl := Except.ok.inj hmet'
            refine ⟨List.Subset.refl _, ?_⟩
            rintro _ ⟨⟩
            exact ⟨q, List.mem_of_find?_eq_some hfind, by simpa using List.find?_some hfind, hsame⟩
          · cases hmet'
        | none =>
          simp only [addUse, hfind] at hmet'
          obtain rfl := Except.ok.inj hmet'
          refine ⟨List.subset_append_left _ _, ?_⟩
          rintro _ ⟨⟩
          exact ⟨p, by simp, rfl, p.same_self⟩
    refine ⟨List.Subset.trans hkept hsub, fun p hp => ?_⟩
    rcases List.mem_cons.1 hp with rfl | hp
    · obtain ⟨q, hq, hqp⟩ := hused p rfl
      exact ⟨q, hsub hq, hqp⟩
    · exact hrest p hp

theorem entity_of_foldlM_addUse {uses : List Use} {met ps : List Parameter}
    (h : uses.foldlM addUse met = .ok ps) : ∀ u ∈ uses, ∃ p, u = .entity p := by
  induction uses generalizing met with
  | nil => simp
  | cons u uses ih =>
    rw [List.foldlM_cons] at h
    obtain ⟨next, hnext, h⟩ := bind_eq_ok.1 h
    intro v hv
    rcases List.mem_cons.1 hv with rfl | hv
    · cases v with
      | entity p => exact ⟨p, rfl⟩
      | unknown name => cases hnext
    · exact ih h v hv

/-- The entities met at the end were met before or are used. -/
theorem used_of_foldlM_addUse {uses : List Use} {met ps : List Parameter}
    (h : uses.foldlM addUse met = .ok ps) {p : Parameter} (hp : p ∈ ps) :
    p ∈ met ∨ .entity p ∈ uses := by
  induction uses generalizing met with
  | nil =>
    obtain rfl := Except.ok.inj h
    exact .inl hp
  | cons u uses ih =>
    rw [List.foldlM_cons] at h
    obtain ⟨met', hmet', h⟩ := bind_eq_ok.1 h
    rcases ih h with hmet | hused
    · cases u with
      | unknown name => cases hmet'
      | entity q =>
        unfold addUse at hmet'
        split at hmet'
        · cases hmet'
        · rename_i q' hq
          obtain rfl : q = q' := Use.entity.inj hq
          split at hmet'
          · split at hmet'
            · obtain rfl := Except.ok.inj hmet'
              exact .inl hmet
            · cases hmet'
          · obtain rfl := Except.ok.inj hmet'
            rcases List.mem_append.1 hmet with hmet | hmet
            · exact .inl hmet
            · obtain rfl := List.mem_singleton.1 hmet
              exact .inr (by simp)
    · exact .inr (by simp [hused])

/-- Statements whose parameters are found use entities only. -/
theorem Stmt.entity_of_parameters {s : Stmt} {ps : List Parameter} (h : s.parameters = .ok ps) {u : Use}
    (hu : u ∈ s.uses) : ∃ p, u = .entity p := by
  obtain ⟨met, hmet, -⟩ := bind_eq_ok.1 h
  exact entity_of_foldlM_addUse hmet u hu

/-- Every parameter of a statement is an entity that it uses. -/
theorem Stmt.used_of_parameter {s : Stmt} {ps : List Parameter} (h : s.parameters = .ok ps)
    {p : Parameter} (hp : p ∈ ps) : .entity p ∈ s.uses := by
  obtain ⟨met, hmet, h⟩ := bind_eq_ok.1 h
  obtain rfl := Except.ok.inj h
  have hmem : p ∈ met := by
    rcases List.mem_append.1 hp with hp | hp
    · exact (List.mem_filter.1 hp).1
    · exact (List.mem_filter.1 hp).1
  rcases used_of_foldlM_addUse hmet hmem with hnil | hused
  · cases hnil
  · exact hused

/-- Every entity that a statement uses is among its parameters. -/
theorem Stmt.exists_parameter {s : Stmt} {ps : List Parameter} (h : s.parameters = .ok ps)
    {p : Parameter} (hp : .entity p ∈ s.uses) : ∃ q ∈ ps, q.name = p.name ∧ q.same p := by
  obtain ⟨met, hmet, h⟩ := bind_eq_ok.1 h
  obtain rfl := Except.ok.inj h
  obtain ⟨q, hq, hqp⟩ := (mem_of_foldlM_addUse hmet).2 p hp
  refine ⟨q, ?_, hqp⟩
  cases hq' : q.isArray <;> simp [hq, hq']

theorem Parameter.eq_of_same {p q : Parameter} (h : p.same q) :
    p.name = q.name ∧ p.isArray = q.isArray := by
  cases p with
  | array a =>
    cases q with
    | array b =>
      rcases a with ⟨m, _, _, _, _, _⟩
      rcases b with ⟨n, _, _, _, _, _⟩
      simp only [Parameter.same, GridArray.same, Bool.and_eq_true, beq_iff_eq] at h
      exact ⟨h.1.1.1.1.1, rfl⟩
    | scalar t => cases h
  | scalar s =>
    cases q with
    | array b => cases h
    | scalar t =>
      simp only [Parameter.same, beq_iff_eq] at h
      exact ⟨congrArg Scalar.name h, rfl⟩

/-- A node of an expression refers to an array or a scalar under the name of a parameter. -/
def Expr.CoveredBy (ps : List Parameter) : Expr → Prop
  | .access a _ => ∃ p ∈ ps, p.isArray ∧ p.name = a.name
  | .scalar s => ∃ p ∈ ps, !p.isArray ∧ p.name = s.name
  | _ => True

namespace Stmt

/-- A nest keeps the statements inside it. -/
theorem mem_nest {s x : Stmt} {heads : List LoopHead} (h : x ∈ s.nodes) :
    x ∈ (s.nest heads).nodes := by
  induction heads generalizing s with
  | nil => exact h
  | cons head heads ih => exact ih (List.mem_cons_of_mem _ h)

theorem mem_nodes_nest {s x : Stmt} {heads : List LoopHead} (h : x ∈ (s.nest heads).nodes) :
    x ∈ s.nodes ∨ ∃ head ∈ heads, ∃ body, x = .loop head body := by
  induction heads generalizing s with
  | nil => exact .inl h
  | cons head heads ih =>
    rcases ih h with hx | ⟨inner, hinner, body, rfl⟩
    · rcases List.mem_cons.1 hx with rfl | hx
      · exact .inr ⟨head, by simp, s, rfl⟩
      · exact .inl hx
    · exact .inr ⟨inner, by simp [hinner], body, rfl⟩

/-- A nest around an assignment has only loops besides it. -/
theorem mem_nodes_nest_assign {target value : Expr} {heads : List LoopHead} {x : Stmt}
    (h : x ∈ ((Stmt.assign target value).nest heads).nodes) :
    x = .assign target value ∨ ∃ head body, x = .loop head body := by
  rcases mem_nodes_nest h with h | ⟨head, -, body, rfl⟩
  · exact .inl (List.mem_singleton.1 h)
  · exact .inr ⟨head, body, rfl⟩

theorem mem_nodesAll {x : Stmt} {ss : List Stmt} : x ∈ nodesAll ss ↔ ∃ s ∈ ss, x ∈ s.nodes := by
  induction ss with
  | nil => simp [nodesAll]
  | cons s ss ih => simp [nodesAll, ih]

/-- A use in a statement is made by an array viewed or by a node of an expression. -/
theorem mem_uses {s : Stmt} {u : Use} (h : u ∈ s.uses) :
    (∃ a, .view a ∈ s.nodes ∧ Use.ofArray? a = some u) ∨
      ∃ x ∈ s.nodes, ∃ e ∈ x.exprs, ∃ n ∈ e.nodes, Use.ofExpr? s.declaredNames n = some u := by
  obtain ⟨x, hx, hu⟩ := List.mem_flatMap.1 h
  have hexprs : u ∈ (x.exprs.flatMap Expr.nodes).filterMap (Use.ofExpr? s.declaredNames) →
      ∃ x ∈ s.nodes, ∃ e ∈ x.exprs, ∃ n ∈ e.nodes, Use.ofExpr? s.declaredNames n = some u := by
    intro hu
    obtain ⟨n, hn, hu⟩ := List.mem_filterMap.1 hu
    obtain ⟨e, he, hn⟩ := List.mem_flatMap.1 hn
    exact ⟨x, hx, e, he, n, hn, hu⟩
  cases x with
  | view a => exact .inl ⟨a, hx, by simpa [ownUses] using hu⟩
  | _ => exact .inr (hexprs hu)

/-- A node of an expression in a statement makes its use. -/
theorem use_of_node {s x : Stmt} {e n : Expr} {u : Use} (hx : x ∈ s.nodes) (he : e ∈ x.exprs)
    (hn : n ∈ e.nodes) (hu : Use.ofExpr? s.declaredNames n = some u) : u ∈ s.uses := by
  refine List.mem_flatMap.2 ⟨x, hx, ?_⟩
  have hown : u ∈ (x.exprs.flatMap Expr.nodes).filterMap (Use.ofExpr? s.declaredNames) :=
    List.mem_filterMap.2 ⟨n, List.mem_flatMap.2 ⟨e, he, hn⟩, hu⟩
  cases x with
  | view a => cases he
  | _ => exact hown

/-- A view makes the use of its array. -/
theorem use_of_view {s : Stmt} {a : GridArray} {u : Use} (ha : .view a ∈ s.nodes)
    (hu : Use.ofArray? a = some u) : u ∈ s.uses :=
  List.mem_flatMap.2 ⟨.view a, ha, by simp [ownUses, hu]⟩

theorem mem_declaredNames {s : Stmt} {name : String} :
    name ∈ s.declaredNames ↔ ∃ t, .declare t ∈ s.nodes ∧ t.name = name := by
  have hdeclared : ∀ x t, declared? x = some t ↔ x = declare t := by
    intro x t
    cases x <;> simp [declared?]
  simp [declaredNames, hdeclared]

/-- What is registered under the names of a statement's parameters covers its expressions, together
with what it declares, if no access is to an array of its own. -/
theorem covered_of_parameters {s : Stmt} {used ps : List Parameter}
    (hused : s.parameters = .ok used)
    (hregistered : ∀ p ∈ used, ∃ q ∈ ps, q.name = p.name ∧ q.isArray = p.isArray)
    (hdeclared : ∀ t, .declare t ∈ s.nodes → .scalar t ∈ ps)
    (hexternal : ∀ x ∈ s.nodes, ∀ e ∈ x.exprs, ∀ a es, .access a es ∈ e.nodes →
      a.scope = .external) :
    ∀ x ∈ s.nodes, ∀ e ∈ x.exprs, ∀ n ∈ e.nodes, n.CoveredBy ps := by
  have hentity : ∀ p, Use.entity p ∈ s.uses →
      ∃ q ∈ ps, q.name = p.name ∧ q.isArray = p.isArray := by
    intro p hp
    obtain ⟨r, hr, hname, hsame⟩ := exists_parameter hused hp
    obtain ⟨q, hq, hqr⟩ := hregistered r hr
    exact ⟨q, hq, hqr.1.trans hname, hqr.2.trans (Parameter.eq_of_same hsame).2⟩
  intro x hx e he n hn
  cases n with
  | access a es =>
    have huse : Use.ofExpr? s.declaredNames (.access a es) = some (.entity (.array a)) := by
      rw [Use.ofExpr?, Use.ofArray?, hexternal x hx e he a es hn]
    obtain ⟨q, hq, hname, harray⟩ := hentity _ (use_of_node hx he hn huse)
    exact ⟨q, hq, harray, hname⟩
  | scalar t =>
    by_cases hlocal : t.name ∈ s.declaredNames
    · obtain ⟨r, hr, hname⟩ := mem_declaredNames.1 hlocal
      exact ⟨.scalar r, hdeclared r hr, rfl, hname⟩
    · have huse : Use.ofExpr? s.declaredNames (.scalar t) = some (.entity (.scalar t)) := by
        rw [Use.ofExpr?, if_neg hlocal]
      obtain ⟨q, hq, hname, hscalar⟩ := hentity _ (use_of_node hx he hn huse)
      exact ⟨q, hq, by rw [hscalar]; rfl, hname⟩
  | _ => trivial

/-- Every loop of a nest is among its statements. -/
theorem loop_mem_nest {s : Stmt} {heads : List LoopHead} {head : LoopHead} (h : head ∈ heads) :
    ∃ body, .loop head body ∈ (s.nest heads).nodes := by
  induction heads generalizing s with
  | nil => cases h
  | cons outer heads ih =>
    rcases List.mem_cons.1 h with rfl | h
    · have hself : Stmt.loop head s ∈ (Stmt.loop head s).nodes := List.mem_cons_self ..
      have hnest : Stmt.loop head s ∈ ((Stmt.loop head s).nest heads).nodes := mem_nest hself
      exact ⟨s, hnest⟩
    · exact ih h

end Stmt

theorem Expr.mem_nodesAll {x : Expr} {es : List Expr} :
    x ∈ nodesAll es ↔ ∃ e ∈ es, x ∈ e.nodes := by
  induction es with
  | nil => simp [nodesAll]
  | cons e es ih => simp [nodesAll, ih]

def Expr.scalar? : Expr → Option Scalar
  | scalar s => some s
  | _ => none

theorem Expr.scalar?_eq_some {e : Expr} {s : Scalar} : e.scalar? = some s ↔ e = .scalar s := by
  cases e <;> simp [Expr.scalar?]

/-- The entities that expressions may refer to. -/
structure Entities where
  arrays : List GridArray
  scalars : List Scalar

namespace Entities

/-- No name denotes two different entities. -/
structure Apart (u : Entities) : Prop where
  arrays : ∀ a ∈ u.arrays, ∀ b ∈ u.arrays, a.name = b.name → a.same b
  scalars : ∀ s ∈ u.scalars, ∀ t ∈ u.scalars, s.name = t.name → s = t
  across : ∀ a ∈ u.arrays, ∀ s ∈ u.scalars, a.name ≠ s.name

/-- A node of an expression refers to known entities only. -/
def Knows (u : Entities) : Expr → Prop
  | .access a _ => a ∈ u.arrays
  | .scalar s => s ∈ u.scalars
  | .symbol _ => False
  | _ => True

/-- The statements of a nest view and mention known entities only. -/
def KnowsAll (u : Entities) (s : Stmt) : Prop :=
  (∀ a, .view a ∈ s.nodes → a ∈ u.arrays) ∧
    ∀ x ∈ s.nodes, ∀ e ∈ x.exprs, ∀ n ∈ e.nodes, u.Knows n

/-- A use in a statement is of an array that the statement knows, or of a scalar that it knows and
does not declare. -/
theorem KnowsAll.uses {u : Entities} {s : Stmt} (hs : u.KnowsAll s) {use : Use}
    (huse : use ∈ s.uses) : (∃ a ∈ u.arrays, use = .entity (.array a)) ∨
      ∃ t ∈ u.scalars, t.name ∉ s.declaredNames ∧ use = .entity (.scalar t) := by
  have hview : ∀ a, Use.ofArray? a = some use → use = .entity (.array a) := by
    intro a huse
    cases hscope : a.scope <;> simp_all [Use.ofArray?]
  rcases Stmt.mem_uses huse with ⟨a, ha, huse⟩ | ⟨x, hx, e, he, n, hn, huse⟩
  · exact .inl ⟨a, hs.1 a ha, hview a huse⟩
  have hknown := hs.2 x hx e he n hn
  cases n with
  | access a es => exact .inl ⟨a, hknown, hview a huse⟩
  | scalar t =>
    simp only [Use.ofExpr?, Option.ite_none_left_eq_some] at huse
    exact .inr ⟨t, hknown, huse.1, (Option.some.inj huse.2).symm⟩
  | symbol name => cases hknown
  | _ => cases huse

theorem parameters {u : Entities} (hu : u.Apart) {s : Stmt} (hs : u.KnowsAll s) :
    ∃ ps, s.parameters = .ok ps := by
  apply Stmt.parameters_of_consistent
  constructor
  · intro use huse
    rcases hs.uses huse with ⟨a, -, rfl⟩ | ⟨t, -, -, rfl⟩
    · exact ⟨_, rfl⟩
    · exact ⟨_, rfl⟩
  · intro p q hp hq hname
    rcases hs.uses hp with ⟨a, ha, h⟩ | ⟨r, hr, -, h⟩ <;>
      rcases hs.uses hq with ⟨b, hb, h'⟩ | ⟨t, ht, -, h'⟩ <;>
      cases h <;> cases h'
    · exact hu.arrays a ha b hb hname
    · exact absurd hname (hu.across a ha t ht)
    · exact absurd hname.symm (hu.across b hb r hr)
    · have hrt := hu.scalars r hr t ht hname
      simp [Parameter.same, hrt]

variable {u : Entities}

theorem KnowsAll.view {a : GridArray} (ha : a ∈ u.arrays) : u.KnowsAll (.view a) := by
  constructor
  · intro b hb
    cases hb with
    | head => exact ha
    | tail _ hb => cases hb
  · intro x hx e he
    obtain rfl : x = .view a := by simpa [Stmt.nodes] using hx
    cases he

theorem KnowsAll.block {ss : List Stmt} (h : ∀ s ∈ ss, u.KnowsAll s) : u.KnowsAll (.block ss) := by
  have hnodes : ∀ x ∈ (Stmt.block ss).nodes, x = .block ss ∨ ∃ s ∈ ss, x ∈ s.nodes := by
    intro x hx
    rcases List.mem_cons.1 hx with rfl | hx
    · exact .inl rfl
    · exact .inr (Stmt.mem_nodesAll.1 hx)
  constructor
  · intro a ha
    rcases hnodes _ ha with heq | ⟨s, hs, ha⟩
    · cases heq
    · exact (h s hs).1 a ha
  · intro x hx e he
    rcases hnodes x hx with rfl | ⟨s, hs, hx⟩
    · cases he
    · exact (h s hs).2 x hx e he

theorem KnowsAll.when {c : Expr} {s : Stmt} (hc : ∀ n ∈ c.nodes, u.Knows n) (hs : u.KnowsAll s) :
    u.KnowsAll (.when c s) := by
  constructor
  · intro a ha
    rcases List.mem_cons.1 ha with heq | ha
    · cases heq
    · exact hs.1 a ha
  · intro x hx e he n hn
    rcases List.mem_cons.1 hx with rfl | hx
    · obtain rfl : e = c := by simpa [Stmt.exprs] using he
      exact hc n hn
    · exact hs.2 x hx e he n hn

theorem KnowsAll.nest {s : Stmt} {heads : List LoopHead} (hs : u.KnowsAll s)
    (hheads : ∀ head ∈ heads, ∀ e ∈ (Stmt.loop head s).exprs, ∀ n ∈ e.nodes, u.Knows n) :
    u.KnowsAll (s.nest heads) := by
  constructor
  · intro a ha
    rcases Stmt.mem_nodes_nest ha with ha | ⟨head, -, body, heq⟩
    · exact hs.1 a ha
    · cases heq
  · intro x hx e he
    rcases Stmt.mem_nodes_nest hx with hx | ⟨head, hhead, body, rfl⟩
    · exact hs.2 x hx e he
    · exact hheads head hhead e he

theorem KnowsAll.declare (s : Scalar) : u.KnowsAll (.declare s) := by
  constructor
  · intro a ha
    simp [Stmt.nodes] at ha
  · intro x hx e he
    obtain rfl : x = .declare s := by simpa [Stmt.nodes] using hx
    cases he

theorem KnowsAll.ifElse {c : Expr} {s t : Stmt} (hc : ∀ n ∈ c.nodes, u.Knows n)
    (hs : u.KnowsAll s) (ht : u.KnowsAll t) : u.KnowsAll (.ifElse c s t) := by
  constructor
  · intro a ha
    rcases List.mem_cons.1 ha with heq | ha
    · cases heq
    · exact (List.mem_append.1 ha).elim (hs.1 a) (ht.1 a)
  · intro x hx e he n hn
    rcases List.mem_cons.1 hx with rfl | hx
    · obtain rfl : e = c := by simpa [Stmt.exprs] using he
      exact hc n hn
    · rcases List.mem_append.1 hx with hx | hx
      · exact hs.2 x hx e he n hn
      · exact ht.2 x hx e he n hn

theorem KnowsAll.assign {target value : Expr} (htarget : ∀ n ∈ target.nodes, u.Knows n)
    (hvalue : ∀ n ∈ value.nodes, u.Knows n) : u.KnowsAll (.assign target value) := by
  constructor
  · intro c hc
    simp [Stmt.nodes] at hc
  · intro x hx e he n hn
    obtain rfl := List.mem_singleton.1 hx
    rcases List.mem_cons.1 he with rfl | he
    · exact htarget n hn
    · obtain rfl := List.mem_singleton.1 he
      exact hvalue n hn

/-- An assignment of one cell to another knows the arrays and what their indices refer to. -/
theorem KnowsAll.assign_access {a b : GridArray} {ses tes : List Expr} (ha : a ∈ u.arrays)
    (hb : b ∈ u.arrays) (hses : ∀ e ∈ ses, ∀ n ∈ e.nodes, u.Knows n)
    (htes : ∀ e ∈ tes, ∀ n ∈ e.nodes, u.Knows n) :
    u.KnowsAll (.assign (.access b tes) (.access a ses)) := by
  have haccess (c : GridArray) (es : List Expr) (hc : c ∈ u.arrays)
      (hes : ∀ e ∈ es, ∀ n ∈ e.nodes, u.Knows n) : ∀ n ∈ (Expr.access c es).nodes, u.Knows n := by
    intro n hn
    rcases List.mem_cons.1 hn with rfl | hn
    · exact hc
    · obtain ⟨e, he, hn⟩ := Expr.mem_nodesAll.1 hn
      exact hes e he n hn
  exact .assign (haccess b tes hb htes) (haccess a ses ha hses)

end Entities

end GridKernel
