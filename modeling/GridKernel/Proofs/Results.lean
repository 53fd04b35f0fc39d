import Mathlib.Data.List.Flatten
import Mathlib.Data.List.Forall2
import Mathlib.Data.List.Perm.Basic
import GridKernel.Fault

/-! Results of computations that may stop. A chain of steps gives a value when each of its steps
does, and a list is treated entry by entry. -/
namespace GridKernel

variable {α β : Type}

@[simp] theorem ok_bind (a : α) (f : α → Result β) : (Except.ok a >>= f) = f a := rfl

@[simp] theorem error_bind (e : Fault) (f : α → Result β) :
    ((Except.error e : Result α) >>= f) = .error e := rfl

@[simp] theorem pure_eq_ok (a : α) : (pure a : Result α) = .ok a := rfl

@[simp] theorem map_ok (f : α → β) (a : α) : f <$> (Except.ok a : Result α) = .ok (f a) := rfl

@[simp] theorem refuse_ne_ok (c : Cause) (a : α) : refuse c ≠ .ok a := by simp [refuse]

theorem bind_eq_ok {x : Result α} {f : α → Result β} {b : β} :
    x >>= f = .ok b ↔ ∃ a, x = .ok a ∧ f a = .ok b := by
  cases x <;> simp

theorem map_eq_ok {f : α → β} {x : Result α} {b : β} :
    f <$> x = .ok b ↔ ∃ a, x = .ok a ∧ f a = b := by
  cases x with
  | error e => simp [Functor.map, Except.map]
  | ok a => simp

theorem return_eq_ok {x : Result α} {f : α → β} {b : β} :
    (do return f (← x)) = .ok b ↔ ∃ a, b = f a ∧ x = .ok a := by
  simp only [bind_eq_ok, pure_eq_ok, Except.ok.injEq]
  exact ⟨fun ⟨a, ha, hb⟩ => ⟨a, hb.symm, ha⟩, fun ⟨a, hb, ha⟩ => ⟨a, ha, hb.symm⟩⟩

theorem both_eq_ok {γ : Type} {x : Result α} {y : Result β} {f : α → β → γ} {c : γ} :
    (do return f (← x) (← y)) = .ok c ↔ ∃ a b, c = f a b ∧ x = .ok a ∧ y = .ok b := by
  simp only [bind_eq_ok, pure_eq_ok, Except.ok.injEq]
  constructor
  · rintro ⟨a, ha, b, hb, rfl⟩
    exact ⟨a, b, rfl, ha, hb⟩
  · rintro ⟨a, b, rfl, ha, hb⟩
    exact ⟨a, ha, b, hb, rfl⟩

theorem entryAt_eq_ok {xs : List α} {i : Nat} {x : α} : entryAt xs i = .ok x ↔ xs[i]? = some x := by
  unfold entryAt
  cases xs[i]? <;> simp

theorem mapM_eq_ok {f : α → Result β} {xs : List α} {ys : List β} :
    xs.mapM f = .ok ys ↔ List.Forall₂ (fun x y => f x = .ok y) xs ys := by
  induction xs generalizing ys with
  | nil => cases ys <;> simp
  | cons x xs ih =>
    simp only [List.mapM_cons, bind_eq_ok, pure_eq_ok]
    constructor
    · rintro ⟨y, hy, zs, hzs, h⟩
      injection h with h
      subst h
      exact .cons hy (ih.1 hzs)
    · rintro (_ | ⟨hy, hys⟩)
      exact ⟨_, hy, _, ih.2 hys, rfl⟩

theorem bind_eq_error {x : Result α} {f : α → Result β} {e : Fault} :
    x >>= f = .error e ↔ x = .error e ∨ ∃ a, x = .ok a ∧ f a = .error e := by
  cases x <;> simp

theorem map_eq_error {f : α → β} {x : Result α} {e : Fault} :
    f <$> x = .error e ↔ x = .error e := by
  cases x with
  | error e' => simp [Functor.map, Except.map]
  | ok a => simp

/-- A list is treated up to the first entry with a fault. -/
theorem mapM_eq_error {f : α → Result β} {xs : List α} {e : Fault} :
    xs.mapM f = .error e ↔ ∃ before x after, xs = before ++ x :: after ∧
      (∀ y ∈ before, ∃ z, f y = .ok z) ∧ f x = .error e := by
  induction xs with
  | nil => simp
  | cons x xs ih =>
    simp only [List.mapM_cons, bind_eq_error, ih, pure_eq_ok, reduceCtorEq, and_false, exists_false,
      or_false]
    constructor
    · rintro (h | ⟨y, hy, before, x', after, rfl, hbefore, h⟩)
      · exact ⟨[], x, xs, rfl, by simp, h⟩
      · exact ⟨x :: before, x', after, rfl, by simpa [hy] using hbefore, h⟩
    · rintro ⟨before, x', after, heq, hbefore, h⟩
      rcases List.cons_eq_append_iff.1 heq with ⟨rfl, heq⟩ | ⟨before, rfl, rfl⟩
      · obtain ⟨rfl, rfl⟩ := List.cons.inj heq
        exact .inl h
      · obtain ⟨y, hy⟩ := hbefore x (by simp)
        exact .inr ⟨y, hy, before, x', after, rfl, fun z hz => hbefore z (by simp [hz]), h⟩

/-- A list is folded up to the first entry with a fault. -/
theorem foldlM_eq_error {f : β → α → Result β} {xs : List α} {b : β} {e : Fault} :
    xs.foldlM f b = .error e ↔ ∃ before x after c, xs = before ++ x :: after ∧
      before.foldlM f b = .ok c ∧ f c x = .error e := by
  constructor
  · intro h
    induction xs generalizing b with
    | nil => cases h
    | cons x xs ih =>
      rw [List.foldlM_cons] at h
      rcases bind_eq_error.1 h with h | ⟨c, hc, h⟩
      · exact ⟨[], x, xs, b, rfl, rfl, h⟩
      · obtain ⟨before, y, after, d, rfl, hbefore, hy⟩ := ih h
        exact ⟨x :: before, y, after, d, rfl, by rw [List.foldlM_cons, hc, ok_bind, hbefore], hy⟩
  · rintro ⟨before, x, after, c, rfl, hbefore, hx⟩
    rw [List.foldlM_append, hbefore, ok_bind, List.foldlM_cons, hx, error_bind]

theorem forall₂_mem_right {P : α → β → Prop} {xs : List α} {ys : List β}
    (h : List.Forall₂ P xs ys) {y : β} (hy : y ∈ ys) : ∃ x ∈ xs, P x y := by
  induction h with
  | nil => cases hy
  | cons hxy _ ih =>
    rcases List.mem_cons.1 hy with rfl | hy
    · exact ⟨_, by simp, hxy⟩
    · obtain ⟨x, hx, hxy⟩ := ih hy
      exact ⟨x, by simp [hx], hxy⟩

theorem forall₂_mem_left {P : α → β → Prop} {xs : List α} {ys : List β}
    (h : List.Forall₂ P xs ys) {x : α} (hx : x ∈ xs) : ∃ y ∈ ys, P x y :=
  forall₂_mem_right h.flip hx

theorem forall₂_mem {P : α → β → Prop} {xs : List α} {ys : List β} (h : List.Forall₂ P xs ys) :
    List.Forall₂ (fun x y => x ∈ xs ∧ P x y) xs ys :=
  (List.forall₂_and_left _ _).2 ⟨fun _ => id, h⟩

theorem forall₂_getElem? {P : α → β → Prop} {xs : List α} {ys : List β}
    (h : List.Forall₂ P xs ys) {i : Nat} {x : α} (hx : xs[i]? = some x) :
    ∃ y, ys[i]? = some y ∧ P x y := by
  obtain ⟨hi, hx⟩ := List.getElem?_eq_some_iff.1 hx
  have hi' : i < ys.length := h.length_eq ▸ hi
  have hxy := h.get hi hi'
  simp only [List.get_eq_getElem, hx] at hxy
  exact ⟨ys[i], List.getElem?_eq_getElem hi', hxy⟩

theorem exists_forall₂ {P : α → β → Prop} {xs : List α} (h : ∀ x ∈ xs, ∃ y, P x y) :
    ∃ ys, List.Forall₂ P xs ys := by
  induction xs with
  | nil => exact ⟨[], .nil⟩
  | cons x xs ih =>
    obtain ⟨y, hy⟩ := h x (by simp)
    obtain ⟨ys, hys⟩ := ih fun x hx => h x (by simp [hx])
    exact ⟨y :: ys, .cons hy hys⟩

theorem map_eq_map_iff_forall₂ {γ : Type} {f : α → γ} {g : β → γ} {xs : List α} {ys : List β} :
    xs.map f = ys.map g ↔ List.Forall₂ (fun x y => f x = g y) xs ys := by
  rw [← List.forall₂_eq_eq_eq, List.forall₂_map_left_iff, List.forall₂_map_right_iff]

/-- Two relations between lists entry by entry compose. -/
theorem forall₂_trans {γ : Type} {P : α → β → Prop} {Q : β → γ → Prop} {xs : List α}
    {ys : List β} {zs : List γ} (h : List.Forall₂ P xs ys) (h' : List.Forall₂ Q ys zs) :
    List.Forall₂ (fun x z => ∃ y, P x y ∧ Q y z) xs zs := by
  induction h generalizing zs with
  | nil =>
    cases h'
    exact .nil
  | cons hxy _ ih =>
    cases h' with
    | cons hyz hrest => exact .cons ⟨_, hxy, hyz⟩ (ih hrest)

theorem forall₂_zip_map {γ : Type} {P : α → β → Prop} {xs : List α} {ys : List β} (f : α → γ)
    (h : List.Forall₂ P xs ys) :
    List.Forall₂ (fun x p => P x p.1 ∧ p.2 = f x) xs (ys.zip (xs.map f)) := by
  induction h with
  | nil => exact .nil
  | cons hxy _ ih => exact .cons ⟨hxy, rfl⟩ ih

/-- The columns of three lists zipped row by row. -/
theorem columns_zip_zip {γ : Type} {xs : List α} {ys : List β} {zs : List γ}
    (hxy : xs.length = ys.length) (hyz : ys.length = zs.length) :
    (xs.zip (ys.zip zs)).map Prod.fst = xs ∧ (xs.zip (ys.zip zs)).map (fun q => q.2.1) = ys ∧
      (xs.zip (ys.zip zs)).map (fun q => q.2.2) = zs := by
  have hzip : (ys.zip zs).length = xs.length := by
    rw [List.length_zip, ← hyz, Nat.min_self, hxy]
  have hrest : (xs.zip (ys.zip zs)).map Prod.snd = ys.zip zs := List.map_snd_zip (by omega)
  refine ⟨List.map_fst_zip (by omega), ?_, ?_⟩
  · show (xs.zip (ys.zip zs)).map (Prod.fst ∘ Prod.snd) = ys
    rw [← List.map_map, hrest, List.map_fst_zip (by omega)]
  · show (xs.zip (ys.zip zs)).map (Prod.snd ∘ Prod.snd) = zs
    rw [← List.map_map, hrest, List.map_snd_zip (by omega)]

/-- What holds between any two entries of a list passes to a list related to it. -/
theorem pairwise_of_forall₂ {P : α → β → Prop} {S : α → α → Prop} {T : β → β → Prop} {xs : List α}
    {ys : List β} (h : List.Forall₂ P xs ys) (hxs : xs.Pairwise S)
    (hST : ∀ x ∈ xs, ∀ x' ∈ xs, ∀ y y', S x x' → P x y → P x' y' → T y y') : ys.Pairwise T := by
  induction h with
  | nil => exact .nil
  | cons hxy hrest ih =>
    obtain ⟨hfirst, htail⟩ := List.pairwise_cons.1 hxs
    refine List.pairwise_cons.2 ⟨fun y' hy' => ?_, ih htail fun x hx x' hx' => ?_⟩
    · obtain ⟨x', hx', hxy'⟩ := forall₂_mem_right hrest hy'
      exact hST _ (by simp) x' (by simp [hx']) _ _ (hfirst x' hx') hxy hxy'
    · exact hST x (by simp [hx]) x' (by simp [hx'])

/-- Entries that are chosen among two of each element differ if all entries do. -/
theorem nodup_flatMap_of_sublist {f g : α → β} {h : α → List β} {xs : List α}
    (hsub : ∀ x ∈ xs, (h x).Sublist [f x, g x]) (hnodup : (xs.map f ++ xs.map g).Nodup) :
    (xs.flatMap h).Nodup := by
  have hperm := List.flatMap_append_perm xs (fun x => [f x]) fun x => [g x]
  rw [← List.map_eq_flatMap, ← List.map_eq_flatMap] at hperm
  have hall : (xs.flatMap h).Sublist (xs.flatMap fun x => [f x] ++ [g x]) := by
    clear hperm hnodup
    induction xs with
    | nil => exact .slnil
    | cons x xs ih =>
      have hrest := ih fun y hy => hsub y (by simp [hy])
      simpa using (hsub x (by simp)).append hrest
  exact hall.nodup (hperm.nodup_iff.1 hnodup)

theorem range_eq_append {n x : Nat} {before after : List Nat}
    (h : List.range n = before ++ x :: after) : x < n ∧ before = List.range x := by
  have hlength := congrArg List.length h
  have hx : (List.range n)[before.length]? = some x := by simp [h]
  simp only [List.length_range, List.length_append, List.length_cons] at hlength
  rw [List.getElem?_range (by omega)] at hx
  obtain rfl := Option.some.inj hx
  have hbefore : (before ++ before.length :: after).take before.length = before :=
    List.take_left' rfl
  rw [← h, List.take_range, Nat.min_eq_left (by omega)] at hbefore
  exact ⟨by omega, hbefore.symm⟩

end GridKernel
