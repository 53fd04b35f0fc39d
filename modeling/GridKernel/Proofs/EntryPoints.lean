import Mathlib.Data.List.Nodup
import GridKernel.EntryPoint
import GridKernel.Proofs.Uses

/-! Entry points. A kernel is built from a body that mentions nothing but what is registered and
scalars of its own that it declares. -/
namespace GridKernel

namespace Stmt

theorem declaredNames_block {ss : List Stmt} {name : String} :
    name ∈ (block ss).declaredNames ↔ ∃ s ∈ ss, name ∈ s.declaredNames := by
  simp only [declaredNames, nodes, List.filterMap_cons, declared?, List.mem_map,
    List.mem_filterMap, mem_nodesAll]
  constructor
  · rintro ⟨t, ⟨x, ⟨s, hs, hx⟩, hxt⟩, rfl⟩
    exact ⟨s, hs, t, ⟨x, hx, hxt⟩, rfl⟩
  · rintro ⟨s, hs, t, ⟨x, hx, hxt⟩, rfl⟩
    exact ⟨t, ⟨x, ⟨s, hs, hx⟩, hxt⟩, rfl⟩

theorem mem_declaredNames_declare (s : Scalar) : s.name ∈ (declare s).declaredNames := by
  simp [declaredNames, nodes, declared?]

end Stmt

namespace EntryPoint

variable {e : EntryPoint}

theorem perm_addArray (e : EntryPoint) (a : GridArray) :
    ({ e with arrays := e.arrays ++ [a] } : EntryPoint).registeredNames.Perm
      (a.name :: e.registeredNames) := by
  simp [registeredNames, List.perm_middle]

theorem perm_addScalar (e : EntryPoint) (s : Scalar) :
    ({ e with scalars := e.scalars ++ [s] } : EntryPoint).registeredNames.Perm
      (s.name :: e.registeredNames) := by
  have hmiddle : (e.arrays.map GridArray.name ++ e.scalars.map Scalar.name ++
      s.name :: e.locals.map Scalar.name).Perm (s.name :: e.registeredNames) := List.perm_middle
  simpa [registeredNames] using hmiddle

theorem perm_addLocal (e : EntryPoint) (s : Scalar) :
    ({ e with locals := e.locals ++ [s] } : EntryPoint).registeredNames.Perm
      (s.name :: e.registeredNames) := by
  simpa [registeredNames] using List.perm_append_singleton s.name e.registeredNames

theorem claim_eq_ok {name : String} : e.claim name = .ok () ↔ name ∉ e.registeredNames := by
  unfold claim
  split <;> simp_all

theorem mem_nodes_statements {body s : Stmt} (h : s ∈ (e.statements body).nodes) :
    s = e.statements body ∨ (∃ t ∈ e.locals, s = .declare t) ∨ (∃ a ∈ e.arrays, s = .view a) ∨
      s ∈ body.nodes := by
  refine (List.mem_cons.1 h).imp_right fun h => ?_
  obtain ⟨x, hx, hs⟩ := Stmt.mem_nodesAll.1 h
  simp only [List.mem_append, List.mem_map, List.mem_singleton] at hx
  rcases hx with (⟨t, ht, rfl⟩ | ⟨a, ha, rfl⟩) | rfl
  · exact .inl ⟨t, ht, by simpa [Stmt.nodes] using hs⟩
  · exact .inr (.inl ⟨a, ha, by simpa [Stmt.nodes] using hs⟩)
  · exact .inr (.inr hs)

/-- A kernel is the entry point's statements around its body, whose parameters are registered. -/
theorem toKernel_eq_ok {body : Stmt} (hbody : e.body? = some body) {k : Kernel}
    (hk : e.toKernel = .ok k) : k.body = e.statements body ∧
      ∃ used, (e.statements body).parameters = .ok used ∧
        ∀ p ∈ used, ∃ q ∈ e.parameters, p.same q := by
  rw [toKernel, hbody] at hk
  obtain ⟨used, hused, hk⟩ := bind_eq_ok.1 hk
  split at hk
  · cases hk
  · rename_i hnone
    refine ⟨(Kernel.mk.inj (Except.ok.inj hk)).2.symm, used, hused, fun p hp => ?_⟩
    simpa using List.find?_eq_none.1 hnone p hp

/-- The statements of a kernel are those of the entry point around its body. -/
theorem body_of_toKernel {body : Stmt} (hbody : e.body? = some body) {k : Kernel}
    (hk : e.toKernel = .ok k) : k.body = e.statements body := (toKernel_eq_ok hbody hk).1

/-- What a body may refer to: everything registered, and some scalars of its own. -/
def entities (e : EntryPoint) (own : List Scalar) : Entities :=
  ⟨e.arrays, e.scalars ++ e.locals ++ own⟩

/-- The scalars of a body's own differ from each other and from everything registered. -/
structure Fresh (e : EntryPoint) (own : List Scalar) : Prop where
  nodup : (own.map Scalar.name).Nodup
  unregistered : ∀ s ∈ own, s.name ∉ e.registeredNames

/-- Unique registered names and fresh names of a body's own tell all entities apart. -/
theorem apart_entities {own : List Scalar} (hnames : e.registeredNames.Nodup)
    (hown : e.Fresh own) : (e.entities own).Apart := by
  have hlists : e.registeredNames =
      e.arrays.map GridArray.name ++ (e.scalars ++ e.locals).map Scalar.name := by
    simp [registeredNames]
  have hdisjoint : ∀ name ∈ e.registeredNames, name ∉ own.map Scalar.name := by
    intro name hname hmem
    obtain ⟨s, hs, rfl⟩ := List.mem_map.1 hmem
    exact hown.unregistered s hs hname
  have hall : (e.arrays.map GridArray.name ++
      (e.scalars ++ e.locals ++ own).map Scalar.name).Nodup := by
    rw [List.map_append, ← List.append_assoc, ← hlists]
    exact List.nodup_append'.2 ⟨hnames, hown.nodup, fun name h h' => hdisjoint name h h'⟩
  obtain ⟨harrays, hscalars, hacross⟩ := List.nodup_append'.1 hall
  constructor
  · intro a ha b hb hname
    obtain rfl := List.inj_on_of_nodup_map harrays ha hb hname
    exact a.same_self
  · intro s hs t ht hname
    exact List.inj_on_of_nodup_map hscalars hs ht hname
  · intro a ha s hs hname
    exact hacross (List.mem_map_of_mem ha) (hname ▸ List.mem_map_of_mem hs)

/-- A kernel is built from a body that knows the registered entities and scalars of its own, where
it declares those. -/
theorem toKernel_of_knowsAll {body : Stmt} {own : List Scalar} (hbody : e.body? = some body)
    (hnames : e.registeredNames.Nodup) (hown : e.Fresh own)
    (hdeclared : ∀ s ∈ own, s.name ∈ body.declaredNames) (h : (e.entities own).KnowsAll body) :
    e.toKernel = .ok ⟨⟨e.name, none, e.parameters, []⟩, e.statements body⟩ := by
  have hknows : (e.entities own).KnowsAll (e.statements body) := by
    apply Entities.KnowsAll.block
    intro s hs
    simp only [List.mem_append, List.mem_map, List.mem_singleton] at hs
    rcases hs with (⟨t, -, rfl⟩ | ⟨a, ha, rfl⟩) | rfl
    · exact .declare t
    · exact .view ha
    · exact h
  obtain ⟨used, hused⟩ := Entities.parameters (apart_entities hnames hown) hknows
  -- a scalar that is no parameter is a local or the body's own, so it is declared
  have hregistered : ∀ p ∈ used, e.parameters.any p.same = true := by
    intro p hp
    rcases hknows.uses (Stmt.used_of_parameter hused hp) with ⟨a, ha, hpa⟩ | ⟨t, ht, hfree, hpt⟩
    · obtain rfl := Use.entity.inj hpa
      exact List.any_eq_true.2 ⟨.array a, by simp [parameters, show a ∈ e.arrays from ha],
        Parameter.same_self _⟩
    · obtain rfl := Use.entity.inj hpt
      have hscalar : t ∈ e.scalars := by
        rcases List.mem_append.1 ht with ht | ht
        · rcases List.mem_append.1 ht with ht | ht
          · exact ht
          · refine absurd (Stmt.declaredNames_block.2 ⟨.declare t, ?_, ?_⟩) hfree
            · simp [ht]
            · exact Stmt.mem_declaredNames_declare t
        · exact absurd (Stmt.declaredNames_block.2 ⟨body, by simp, hdeclared t ht⟩) hfree
      exact List.any_eq_true.2 ⟨.scalar t, by simp [parameters, hscalar], Parameter.same_self _⟩
  have hnone : (used.find? fun p => !e.parameters.any p.same) = none := by
    rw [List.find?_eq_none]
    intro p hp
    simp [hregistered p hp]
  rw [toKernel, hbody]
  simp only [hused, ok_bind, hnone]
  rfl

end EntryPoint
end GridKernel
