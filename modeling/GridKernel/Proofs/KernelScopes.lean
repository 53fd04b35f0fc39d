import GridKernel.Proofs.NamedEntities

/-! Scopes of declared scalars. A declaration is local to the kernel around it, so a reference
outside that kernel is free. The parameters of a statement are the scalars whose names are declared
nowhere in it, in a kernel or not: a declaration in one kernel hides the free references of its name
everywhere. Places in a statement are paths of positions among the statements directly inside. -/
namespace GridKernel

namespace Stmt

/-- The statement at a place. -/
def at? : Stmt → List Nat → Option Stmt
  | s, [] => some s
  | s, i :: place => s.children[i]?.bind fun x => x.at? place

theorem nodes_eq (s : Stmt) : s.nodes = s :: nodesAll s.children := by
  cases s <;> simp [nodes, children, nodesAll]

theorem sizeOf_lt_of_mem_children {s x : Stmt} (h : x ∈ s.children) : sizeOf x < sizeOf s := by
  cases s with
  | block body =>
    have hlt : sizeOf x < sizeOf body := List.sizeOf_lt_of_mem h
    simp only [block.sizeOf_spec]
    omega
  | ifElse c t e =>
    simp only [children, List.mem_cons, List.not_mem_nil, or_false] at h
    rcases h with rfl | rfl <;> simp only [ifElse.sizeOf_spec] <;> omega
  | loop head body =>
    obtain rfl := List.mem_singleton.1 h
    simp only [loop.sizeOf_spec]
    omega
  | when c body =>
    obtain rfl := List.mem_singleton.1 h
    simp only [when.sizeOf_spec]
    omega
  | kernel signature body =>
    obtain rfl := List.mem_singleton.1 h
    simp only [kernel.sizeOf_spec]
    omega
  | _ => cases h

/-- The statements inside a statement are those at its places. -/
theorem mem_nodes_iff_at? {s x : Stmt} : x ∈ s.nodes ↔ ∃ place, s.at? place = some x := by
  rw [nodes_eq, List.mem_cons, mem_nodesAll]
  constructor
  · rintro (rfl | ⟨y, hy, hx⟩)
    · exact ⟨[], rfl⟩
    · have hlt := sizeOf_lt_of_mem_children hy
      obtain ⟨place, hplace⟩ := mem_nodes_iff_at?.1 hx
      obtain ⟨i, hi⟩ := List.getElem?_of_mem hy
      exact ⟨i :: place, by rw [at?, hi, Option.bind_some, hplace]⟩
  · rintro ⟨place, hplace⟩
    cases place with
    | nil => exact .inl (Option.some.inj hplace).symm
    | cons i place =>
      obtain ⟨y, hy, hplace⟩ := Option.bind_eq_some_iff.1 hplace
      have hmem := List.mem_of_getElem? hy
      have hlt := sizeOf_lt_of_mem_children hmem
      exact .inr ⟨y, hmem, mem_nodes_iff_at?.2 ⟨place, hplace⟩⟩
termination_by sizeOf s

/-- An expression of the statement at a place refers to a scalar. -/
def RefersAt (s : Stmt) (place : List Nat) (t : Scalar) : Prop :=
  ∃ x, s.at? place = some x ∧ ∃ e ∈ x.exprs, .scalar t ∈ e.nodes

/-- The statement at a place declares a name. -/
def DeclaresAt (s : Stmt) (place : List Nat) (name : String) : Prop :=
  ∃ t, s.at? place = some (.declare t) ∧ t.name = name

def KernelAt (s : Stmt) (place : List Nat) : Prop :=
  ∃ signature body, s.at? place = some (.kernel signature body)

/-- Every kernel around a declaration contains the place. -/
def InForce (s : Stmt) (declaration place : List Nat) : Prop :=
  ∀ k, s.KernelAt k → k <+: declaration → k <+: place

/-- A scalar is referenced at a place where no declaration of its name is in force. -/
def FreeAt (s : Stmt) (place : List Nat) (t : Scalar) : Prop :=
  s.RefersAt place t ∧ ∀ q, s.DeclaresAt q t.name → ¬ s.InForce q place

variable {s : Stmt} {t : Scalar}

theorem refers_scalar_iff : s.Refers (.scalar t) ↔ ∃ place, s.RefersAt place t := by
  constructor
  · intro h
    cases h with
    | @node x e n _ hx he hn hp =>
      obtain ⟨place, hplace⟩ := mem_nodes_iff_at?.1 hx
      cases n with
      | scalar u =>
        obtain rfl := Parameter.scalar.inj (Option.some.inj hp)
        exact ⟨place, x, hplace, e, he, hn⟩
      | _ => cases hp
  · rintro ⟨place, x, hplace, e, he, hn⟩
    exact .node (mem_nodes_iff_at?.2 ⟨place, hplace⟩) he hn rfl

theorem provides_scalar_iff : s.Provides (.scalar t) ↔ ∃ place, s.DeclaresAt place t.name := by
  rw [Provides, mem_declaredNames]
  constructor
  · rintro ⟨u, hu, hname⟩
    obtain ⟨place, hplace⟩ := mem_nodes_iff_at?.1 hu
    exact ⟨place, u, hplace, hname⟩
  · rintro ⟨place, u, hplace, hname⟩
    exact ⟨u, mem_nodes_iff_at?.2 ⟨place, hplace⟩, hname⟩

/-- The scalars among the parameters are those that are referenced and declared nowhere. -/
theorem scalar_mem_parameters_iff {ps : List Parameter} (h : s.parameters = .ok ps) :
    .scalar t ∈ ps ↔ (∃ place, s.RefersAt place t) ∧ ∀ q, ¬ s.DeclaresAt q t.name := by
  have huse : Use.entity (.scalar t) ∈ s.uses ↔
      (∃ place, s.RefersAt place t) ∧ ∀ q, ¬ s.DeclaresAt q t.name := by
    rw [mem_uses_iff, refers_scalar_iff, provides_scalar_iff, not_exists]
  rw [← huse]
  constructor
  · exact used_of_parameter h
  · intro hused
    obtain ⟨q, hq, -, hsame⟩ := exists_parameter h hused
    cases q with
    | array a => cases hsame
    | scalar u =>
      obtain rfl := eq_of_beq hsame
      exact hq

/-- A name that is free at a place is declared, if at all, in a kernel that does not contain it. -/
theorem FreeAt.outside {place q : List Nat} (h : s.FreeAt place t) (hq : s.DeclaresAt q t.name) :
    ∃ k, s.KernelAt k ∧ k <+: q ∧ ¬ k <+: place := by
  have hforce := h.2 q hq
  simp only [InForce, not_forall] at hforce
  obtain ⟨k, hk, hinside, houtside⟩ := hforce
  exact ⟨k, hk, hinside, houtside⟩

theorem FreeAt.mem_parameters_iff {place : List Nat} (h : s.FreeAt place t) {ps : List Parameter}
    (hps : s.parameters = .ok ps) : .scalar t ∈ ps ↔ ∀ q, ¬ s.DeclaresAt q t.name := by
  rw [scalar_mem_parameters_iff hps]
  exact ⟨fun hmem => hmem.2, fun hnone => ⟨⟨place, h.1⟩, hnone⟩⟩

/-- A free reference is to a parameter exactly when its name is declared nowhere, and a scalar that
is a parameter is free wherever it is referenced. If a free reference is to no parameter, its name is
declared in a kernel that does not contain the reference. So the free scalars are all among the
parameters exactly when no kernel declares a name that is free elsewhere. -/
theorem free_parameters {s : Stmt} {ps : List Parameter} (h : s.parameters = .ok ps) :
    (∀ place t, s.FreeAt place t → (.scalar t ∈ ps ↔ ∀ q, ¬ s.DeclaresAt q t.name)) ∧
      (∀ t, .scalar t ∈ ps → (∃ place, s.RefersAt place t) ∧
        ∀ place, s.RefersAt place t → s.FreeAt place t) ∧
      (∀ place t, s.FreeAt place t → .scalar t ∉ ps →
        ∃ q k, s.DeclaresAt q t.name ∧ s.KernelAt k ∧ k <+: q ∧ ¬ k <+: place) ∧
      ((∀ t, .scalar t ∈ ps ↔ ∃ place, s.FreeAt place t) ↔
        ∀ q k t place, s.DeclaresAt q t.name → s.KernelAt k → k <+: q → ¬ k <+: place →
          ¬ s.FreeAt place t) := by
  have hfree : ∀ t, .scalar t ∈ ps → (∃ place, s.RefersAt place t) ∧
      ∀ place, s.RefersAt place t → s.FreeAt place t := by
    intro t hmem
    obtain ⟨hrefers, hnone⟩ := (scalar_mem_parameters_iff h).1 hmem
    exact ⟨hrefers, fun place hplace => ⟨hplace, fun q hq => absurd hq (hnone q)⟩⟩
  have hhidden : ∀ place t, s.FreeAt place t → .scalar t ∉ ps →
      ∃ q k, s.DeclaresAt q t.name ∧ s.KernelAt k ∧ k <+: q ∧ ¬ k <+: place := by
    intro place t hplace hmissing
    rw [hplace.mem_parameters_iff h] at hmissing
    obtain ⟨q, hq⟩ := not_forall_not.1 hmissing
    obtain ⟨k, houtside⟩ := hplace.outside hq
    exact ⟨q, k, hq, houtside⟩
  refine ⟨fun place t hplace => hplace.mem_parameters_iff h, hfree, hhidden, ?_⟩
  constructor
  · intro hall q k t place hq _ _ _ hplace
    exact (hplace.mem_parameters_iff h).1 ((hall t).2 ⟨place, hplace⟩) q hq
  · intro hnone t
    constructor
    · intro hmem
      obtain ⟨⟨place, hplace⟩, hwherever⟩ := hfree t hmem
      exact ⟨place, hwherever place hplace⟩
    · rintro ⟨place, hplace⟩
      by_contra hmissing
      obtain ⟨q, k, hq, hk, hinside, houtside⟩ := hhidden place t hplace hmissing
      exact hnone q k t place hq hk hinside houtside hplace

/-- A kernel that declares `a`, and after it a reference to another `a`. -/
def eclipsing : Stmt :=
  .block [
    .kernel ⟨"k", none, [], []⟩ (.block [.declare ⟨"a", .int32⟩,
      .assign (.scalar ⟨"a", .int32⟩) (.int 2)]),
    .assign (.scalar ⟨"b", .int32⟩) (.scalar ⟨"a", .int32⟩)]

/-- The reference to `a` outside the kernel is free, and its scalar is not a parameter. -/
theorem free_parameters_eclipsing :
    eclipsing.parameters = .ok [.scalar ⟨"b", .int32⟩] ∧ eclipsing.FreeAt [1] ⟨"a", .int32⟩ ∧
      .scalar ⟨"a", .int32⟩ ∉ [Parameter.scalar ⟨"b", .int32⟩] := by
  have hparameters : eclipsing.parameters = .ok [.scalar ⟨"b", .int32⟩] := rfl
  have hdeclares : eclipsing.DeclaresAt [0, 0, 0] "a" := ⟨⟨"a", .int32⟩, rfl, rfl⟩
  have hfree : eclipsing.FreeAt [1] ⟨"a", .int32⟩ := by
    refine ⟨⟨_, rfl, .scalar ⟨"a", .int32⟩, by simp [exprs], by simp [Expr.nodes]⟩, ?_⟩
    rintro q ⟨t, ht, -⟩ hforce
    -- outside the kernel nothing is declared
    rcases q with _ | ⟨_ | _ | i, q⟩
    · cases ht
    · have hcontains := hforce [0] ⟨_, _, rfl⟩ ⟨q, rfl⟩
      simp at hcontains
    · cases q <;> cases ht
    · cases ht
  refine ⟨hparameters, hfree, ?_⟩
  intro hmem
  exact ((free_parameters hparameters).1 [1] _ hfree).1 hmem _ hdeclares

end Stmt

end GridKernel
