import GridKernel.Proofs.HaloRun

/-! Running the kernels of a halo exchange along one axis. Where the masks of all other axes are
zero, a kernel moves the two sides of one axis, left before right. -/
namespace GridKernel.Halo

theorem forall₂_append_left {α β : Type} {P : α → β → Prop} {xs ys : List α} {zs : List β}
    (h : List.Forall₂ P (xs ++ ys) zs) :
    ∃ us vs, zs = us ++ vs ∧ List.Forall₂ P xs us ∧ List.Forall₂ P ys vs := by
  induction xs generalizing zs with
  | nil => exact ⟨[], zs, rfl, .nil, h⟩
  | cons x xs ih =>
    cases h with
    | cons hx h =>
      obtain ⟨us, vs, rfl, hus, hvs⟩ := ih h
      exact ⟨_ :: us, vs, rfl, .cons hx hus, hvs⟩

theorem pairs_append (xs ys : List GridAxis) : pairs (xs ++ ys) = pairs xs ++ pairs ys := by
  simp only [pairs, List.filter_append, List.flatMap_append]

theorem pairs_cons_free {x : GridAxis} (h : x.cls.isPinned = false) (xs : List GridAxis) :
    pairs (x :: xs) = (x, .left) :: (x, .right) :: pairs xs := by
  simp [pairs, h, Side.all]

variable {R : Type} [Arithmetic R] [ExactIntegers R] {m m' : Machine R} {a : GridArray}
  {classes : List AxisClass} {slot : String} {xs : List GridAxis} {x : GridAxis} {e : Exchange}
  {direction : Direction}

/-- The mask of a side has a value, which is zero unless the side is one of the given axis. -/
def Masked (m : Machine R) (x : GridAxis) (p : GridAxis × Side) : Prop :=
  ∃ v, m.scalars[(maskOf p).name]? = some v ∧ (Arithmetic.isTrue v ↔ p.1.dim.name = x.dim.name)

omit [ExactIntegers R] in
theorem Masked.agrees {p : GridAxis × Side} (h : Masked m x p) (hm : m.Agrees m') :
    Masked m' x p := by
  obtain ⟨v, hv, hiff⟩ := h
  exact ⟨v, by rw [hm.1, hv], hiff⟩

omit [ExactIntegers R] in
theorem run_masked {p : GridAxis × Side} (h : Masked m x p) (s : Stmt) :
    Machine.run (.when (.scalar (maskOf p)) s) m =
      if p.1.dim.name = x.dim.name then Machine.run s m else .done m := by
  obtain ⟨v, hv, hiff⟩ := h
  have heval : m.eval (.scalar (maskOf p)) = .ok v := by
    rw [Machine.eval, hv]
    rfl
  rw [Machine.run, heval, Outcome.attempt_ok]
  simp only [hiff]

omit [ExactIntegers R] in
/-- The moves of other axes are skipped. -/
theorem runAll_skipped {ps : List (GridAxis × Side)} {moves : List Stmt}
    (hmoves : List.Forall₂ (IsGuarded a classes slot xs direction) ps moves)
    (rest : List Stmt) (hmasks : ∀ p ∈ ps, Masked m x p ∧ p.1.dim.name ≠ x.dim.name) :
    Machine.runAll (moves ++ rest) m = Machine.runAll rest m := by
  induction hmoves with
  | nil => rfl
  | @cons p s ps moves hs _ ih =>
    obtain ⟨t, c, -, -, rfl⟩ := hs
    obtain ⟨hmask, hne⟩ := hmasks p (by simp)
    rw [List.cons_append, Machine.runAll, run_masked hmask, if_neg hne, Outcome.done_andThen]
    exact ih fun p hp => hmasks p (by simp [hp])

omit [ExactIntegers R] in
/-- A kernel runs the moves of both sides of the axis whose masks are not zero. -/
theorem run_kernel (h : Surveyed a classes slot xs) (hbuilt : Built a classes slot xs e)
    (hx : x ∈ xs) (hfree : x.cls.isPinned = false) {tl tr : Transfer} {cl cr : Stmt}
    (htl : transfer a .own slot (xs.map GridAxis.toAxis) x.toAxis .left = .ok tl)
    (htr : transfer a .own slot (xs.map GridAxis.toAxis) x.toAxis .right = .ok tr)
    (hcl : move a classes tl direction = .ok cl) (hcr : move a classes tr direction = .ok cr)
    (hviews : ∀ b ∈ a :: e.buffers.map fun q => q.2.2.buffer,
      ∃ c, m.arrays[b.name]? = some c ∧ m.Fits b c)
    (hmasks : ∀ p ∈ pairs xs, Masked m x p) {m₁ m₂ : Machine R}
    (hleft : Machine.run cl m = .done m₁) (hm₁ : m.Agrees m₁)
    (hright : Machine.run cr m₁ = .done m₂) (hm₂ : m₁.Agrees m₂) :
    Machine.run (e.kernel direction).body m = .done m₂ := by
  obtain ⟨moves, hbody, hmoves⟩ := hbuilt.body direction
  obtain ⟨pre, post, hsplit⟩ := List.append_of_mem hx
  have hdistinct := h.distinct
  rw [hsplit, List.map_append, List.map_cons, List.nodup_middle, List.nodup_cons] at hdistinct
  have hne : ∀ p ∈ pairs pre ++ pairs post, p.1.dim.name ≠ x.dim.name := by
    intro p hp heq
    apply hdistinct.1
    rw [← heq, ← List.map_append]
    rw [← pairs_append] at hp
    exact List.mem_map_of_mem (mem_pairs.1 hp).1
  have hpairs : pairs xs = pairs pre ++ ((x, .left) :: (x, .right) :: pairs post) := by
    rw [hsplit, pairs_append, pairs_cons_free hfree]
  rw [hpairs] at hmoves hmasks
  obtain ⟨before, rest, rfl, hbefore, hrest⟩ := forall₂_append_left hmoves
  cases hrest with
  | cons hl hrest =>
  cases hrest with
  | cons hr hafter =>
  obtain ⟨t, c, ht, hc, rfl⟩ := hl
  obtain rfl := Except.ok.inj (ht.symm.trans htl)
  obtain rfl := Except.ok.inj (hc.symm.trans hcl)
  obtain ⟨t, c, ht, hc, rfl⟩ := hr
  obtain rfl := Except.ok.inj (ht.symm.trans htr)
  obtain rfl := Except.ok.inj (hc.symm.trans hcr)
  have hbeforeMasks : ∀ p ∈ pairs pre, Masked m x p ∧ p.1.dim.name ≠ x.dim.name := by
    intro p hp
    exact ⟨hmasks p (by simp [hp]), hne p (by simp [hp])⟩
  have hafterMasks : ∀ p ∈ pairs post, Masked m₂ x p ∧ p.1.dim.name ≠ x.dim.name := by
    intro p hp
    exact ⟨((hmasks p (by simp [hp])).agrees hm₁).agrees hm₂, hne p (by simp [hp])⟩
  have hleftMask := hmasks (x, .left) (by simp)
  have hrightMask := (hmasks (x, .right) (by simp)).agrees hm₁
  rw [hbody, Machine.run, Machine.runAll_views _ _ hviews,
    runAll_skipped hbefore _ hbeforeMasks]
  simp only [Machine.runAll]
  rw [run_masked hleftMask, if_pos rfl, hleft, Outcome.done_andThen, run_masked hrightMask,
    if_pos rfl, hright, Outcome.done_andThen]
  have hskip := runAll_skipped hafter [] hafterMasks
  rwa [List.append_nil, Machine.runAll] at hskip

end GridKernel.Halo
