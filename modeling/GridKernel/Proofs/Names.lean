import Mathlib.Data.Finset.Card
import Mathlib.Data.List.Nodup
import Mathlib.Tactic.Push
import Mathlib.Data.List.Forall2
import Std.Data.String.ToNat
import GridKernel.Identifier

/-! Generated names. A drawn name is not among the names taken before it, so the names drawn by a
computation differ from each other and from all names that it started with. -/
namespace GridKernel.Identifier

theorem toList_numbered (base : String) (n : Nat) :
    (numbered base n).toList = base.toList ++ '_' :: Nat.toDigits 10 n := by
  simp [numbered, toString]

theorem numbered_injective (base : String) : Function.Injective (numbered base) := by
  intro i j h
  have hlist := congrArg String.toList h
  rw [toList_numbered, toList_numbered] at hlist
  have hdigits := (List.cons.inj (List.append_cancel_left hlist)).2
  apply Nat.repr_injective
  rw [Nat.repr_eq_ofList_toDigits, Nat.repr_eq_ofList_toDigits, hdigits]

/-- A stem with different numbers gives different names. -/
theorem append_repr_inj {stem : String} {i j : Nat} (h : stem ++ i.repr = stem ++ j.repr) :
    i = j := by
  have hlist := congrArg String.toList h
  rw [String.toList_append, String.toList_append] at hlist
  exact Nat.repr_injective (String.toList_inj.1 (List.append_cancel_left hlist))

/-- Among one more different names than there are names taken some are free. -/
theorem exists_notMem_of_injective {f : Nat → String} (hf : Function.Injective f)
    (taken : List String) : ∃ n ≤ taken.toFinset.card, f n ∉ taken := by
  by_contra h
  push Not at h
  have hmaps : Set.MapsTo f (Finset.range (taken.toFinset.card + 1)) taken.toFinset := by
    intro n hn
    have hle := Nat.lt_succ_iff.1 (Finset.mem_range.1 hn)
    exact List.mem_toFinset.2 (h n hle)
  have hcard := Finset.card_le_card_of_injOn f hmaps hf.injOn
  rw [Finset.card_range] at hcard
  omega

/-- Some numbered name is free among one more numbers than there are names taken. -/
theorem exists_numbered_notMem (base : String) (taken : List String) :
    ∃ n ∈ List.range (taken.length + 1), numbered base n ∉ taken := by
  obtain ⟨n, hn, hfree⟩ := exists_notMem_of_injective (numbered_injective base) taken
  have hcard := taken.toFinset_card_le
  exact ⟨n, List.mem_range.2 (by omega), hfree⟩

/-- When the base is taken, the fresh name is the numbered one of the least number that is free. -/
theorem fresh_of_mem {base : String} {taken : List String} (h : base ∈ taken) :
    ∃ k, fresh base taken = numbered base k ∧ numbered base k ∉ taken ∧
      ∀ j < k, numbered base j ∈ taken := by
  obtain ⟨n, hn, hfree⟩ := exists_numbered_notMem base taken
  have hfound : ((List.range (taken.length + 1)).find? (numbered base · ∉ taken)).isSome :=
    List.find?_isSome.2 ⟨n, hn, by simpa using hfree⟩
  obtain ⟨k, hk⟩ := Option.isSome_iff_exists.1 hfound
  obtain ⟨hfirst, -, hleast⟩ := List.find?_range_eq_some.1 hk
  refine ⟨k, ?_, by simpa using hfirst, fun j hj => by simpa using hleast j hj⟩
  rw [fresh, if_pos h, hk, Option.getD_some]

/-- A fresh name is the base, or a numbered one, and is not taken. -/
theorem fresh_cases (base : String) (taken : List String) :
    (fresh base taken = base ∨ ∃ n, fresh base taken = numbered base n) ∧
      fresh base taken ∉ taken := by
  by_cases hbase : base ∈ taken
  · obtain ⟨k, hk, hfree, -⟩ := fresh_of_mem hbase
    rw [hk]
    exact ⟨.inr ⟨k, rfl⟩, hfree⟩
  · rw [fresh, if_neg hbase]
    exact ⟨.inl rfl, hbase⟩

/-- Taking more names leaves a fresh name that is not among them as it is. -/
theorem fresh_of_subset {base : String} {taken taken' : List String} (hsub : taken ⊆ taken')
    (hfree : fresh base taken ∉ taken') : fresh base taken' = fresh base taken := by
  by_cases hbase : base ∈ taken
  · obtain ⟨k, hk, -, hleast⟩ := fresh_of_mem hbase
    obtain ⟨k', hk', hfree', hleast'⟩ := fresh_of_mem (hsub hbase)
    rw [hk] at hfree
    have hle : k' ≤ k := Nat.le_of_not_lt fun hlt => hfree (hleast' k hlt)
    have hge : k ≤ k' := Nat.le_of_not_lt fun hlt => hfree' (hsub (hleast k' hlt))
    rw [hk, hk', Nat.le_antisymm hle hge]
  · have hself : fresh base taken = base := if_neg hbase
    rw [hself] at hfree ⊢
    exact if_neg hfree

theorem isValid_iff {name : String} :
    isValid name ↔ ∃ c cs, name.toList = c :: cs ∧ isStart c ∧ ∀ d ∈ cs, isPart d := by
  unfold isValid
  split <;> rename_i h <;> simp [h]

theorem isPart_of_isStart {c : Char} (h : isStart c) : isPart c := by
  simp only [isStart, isPart, Char.isAlphanum, Bool.or_eq_true] at *
  rcases h with h | h
  · exact .inl (.inl h)
  · exact .inr h

/-- Identifier characters after an identifier make an identifier. -/
theorem isValid_append {name : String} (h : isValid name) {rest : String}
    (hrest : ∀ c ∈ rest.toList, isPart c) : isValid (name ++ rest) := by
  obtain ⟨c, cs, hname, hc, hcs⟩ := isValid_iff.1 h
  refine isValid_iff.2 ⟨c, cs ++ rest.toList, by simp [hname], hc, fun d hd => ?_⟩
  rcases List.mem_append.1 hd with hd | hd
  · exact hcs d hd
  · exact hrest d hd

theorem isPart_of_isValid {name : String} (h : isValid name) : ∀ c ∈ name.toList, isPart c := by
  obtain ⟨c, cs, hname, hc, hcs⟩ := isValid_iff.1 h
  intro d hd
  rw [hname] at hd
  rcases List.mem_cons.1 hd with rfl | hd
  · exact isPart_of_isStart hc
  · exact hcs d hd

theorem isValid_numbered {base : String} (h : isValid base) (n : Nat) :
    isValid (numbered base n) := by
  obtain ⟨c, cs, hname, hc, hcs⟩ := isValid_iff.1 h
  refine isValid_iff.2 ⟨c, cs ++ '_' :: Nat.toDigits 10 n, by simp [toList_numbered, hname], hc, ?_⟩
  intro d hd
  rcases List.mem_append.1 hd with hd | hd
  · exact hcs d hd
  rcases List.mem_cons.1 hd with rfl | hd
  · decide
  · have hdigit := Nat.isDigit_of_mem_toDigits (by decide) (by decide) hd
    simp [isPart, Char.isAlphanum, hdigit]

theorem isValid_fresh {base : String} (h : isValid base) (taken : List String) :
    isValid (fresh base taken) := by
  rcases (fresh_cases base taken).1 with hbase | ⟨n, hn⟩
  · rwa [hbase]
  · rw [hn]
    exact isValid_numbered h n

theorem check_eq_ok {name : String} (h : isValid name) : check name = .ok name := if_pos h

/-- A computation draws names that differ from each other and from the names taken before, and a
property relates them to its result. It draws the same names when more names are taken, as long as
these are not among them. -/
def Draws {α : Type} (f : StateM (List String) α) (P : List String → α → Prop) : Prop :=
  ∀ taken, ∃ names, P names (f taken).1 ∧ names.Nodup ∧ (∀ n ∈ names, n ∉ taken) ∧
    ∀ taken', taken ⊆ taken' → (∀ n ∈ names, n ∉ taken') →
      (f taken').1 = (f taken).1 ∧ ∀ n, n ∈ (f taken').2 ↔ n ∈ names ∨ n ∈ taken'

namespace Draws

variable {α β : Type}

theorem draw (base : String) :
    Draws (draw base) fun names x => names = [x] ∧ (isValid base → isValid x) := by
  intro taken
  refine ⟨[fresh base taken], ⟨rfl, fun h => isValid_fresh h taken⟩, by simp, ?_, ?_⟩
  · simpa using (fresh_cases base taken).2
  · intro taken' hsub hfree
    have hsame : fresh base taken' = fresh base taken := fresh_of_subset hsub (by simpa using hfree)
    exact ⟨hsame, by simp [Identifier.draw, hsame]⟩

theorem pure (x : α) : Draws (Pure.pure x) fun names y => names = [] ∧ y = x :=
  fun taken => ⟨[], ⟨rfl, rfl⟩, by simp, by simp, fun taken' _ _ => ⟨rfl, fun n =>
    show n ∈ taken' ↔ _ by simp⟩⟩

theorem bind {f : StateM (List String) α} {g : α → StateM (List String) β}
    {P : List String → α → Prop} {Q : α → List String → β → Prop} (hf : Draws f P)
    (hg : ∀ x, Draws (g x) (Q x)) :
    Draws (f >>= g) fun names y => ∃ ns x ns', names = ns ++ ns' ∧ P ns x ∧ Q x ns' y := by
  intro taken
  obtain ⟨ns, hP, hnodup, hfree, hstable⟩ := hf taken
  obtain ⟨ns', hQ, hnodup', hfree', hstable'⟩ := hg (f taken).1 (f taken).2
  have hmem := (hstable taken (List.Subset.refl _) hfree).2
  have hapart : ∀ n ∈ ns', n ∉ ns := fun n hn hdrawn => hfree' n hn ((hmem n).2 (.inl hdrawn))
  refine ⟨ns ++ ns', ⟨ns, _, ns', rfl, hP, hQ⟩, ?_, ?_, ?_⟩
  · refine List.nodup_append.2 ⟨hnodup, hnodup', fun n hn n' hn' => ?_⟩
    rintro rfl
    exact hapart n hn' hn
  · intro n hn
    rcases List.mem_append.1 hn with hn | hn
    · exact hfree n hn
    · exact fun htaken => hfree' n hn ((hmem n).2 (.inr htaken))
  · intro taken' hsub hnew
    obtain ⟨hresult, hmem'⟩ := hstable taken' hsub fun n hn => hnew n (List.mem_append_left _ hn)
    have hsub' : (f taken).2 ⊆ (f taken').2 := by
      intro n hn
      exact (hmem' n).2 (((hmem n).1 hn).imp_right fun h => hsub h)
    have hnew' : ∀ n ∈ ns', n ∉ (f taken').2 := by
      intro n hn hstate
      rcases (hmem' n).1 hstate with hdrawn | htaken
      · exact hapart n hn hdrawn
      · exact hnew n (List.mem_append_right _ hn) htaken
    obtain ⟨hresult', hstate⟩ := hstable' _ hsub' hnew'
    have hrun : ((f >>= g) taken') = g (f taken').1 (f taken').2 := rfl
    rw [hrun, hresult]
    refine ⟨hresult', fun n => ?_⟩
    rw [hstate n, hmem' n, List.mem_append]
    tauto

theorem mono {f : StateM (List String) α} {P Q : List String → α → Prop} (h : Draws f P)
    (hPQ : ∀ names x, P names x → Q names x) : Draws f Q := by
  intro taken
  obtain ⟨names, hP, hrest⟩ := h taken
  exact ⟨names, hPQ _ _ hP, hrest⟩

/-- The names drawn for a list are those drawn for its entries, in order. -/
theorem mapM {f : α → StateM (List String) β} {g : β → List String} {P : α → β → Prop}
    (hf : ∀ a, Draws (f a) fun names y => names = g y ∧ P a y) (xs : List α) :
    Draws (xs.mapM f) fun names ys => names = ys.flatMap g ∧ List.Forall₂ P xs ys := by
  induction xs with
  | nil =>
    refine (Draws.pure []).mono ?_
    rintro names ys ⟨rfl, rfl⟩
    exact ⟨rfl, .nil⟩
  | cons x xs ih =>
    rw [List.mapM_cons]
    refine (bind (hf x) fun y => bind ih fun ys => Draws.pure (y :: ys)).mono ?_
    rintro names zs ⟨ns, y, ns', rfl, ⟨rfl, hy⟩, ms, ys, ms', rfl, ⟨rfl, hys⟩, rfl, rfl⟩
    exact ⟨by simp, .cons hy hys⟩

/-- The names that a computation draws avoid others exactly when reserving those changes nothing. -/
theorem avoids_iff {f : StateM (List String) α} {g : α → List String} {P : α → Prop}
    (h : Draws f fun names x => names = g x ∧ P x) (extra taken : List String) :
    (∀ n ∈ g (f.run taken).1, n ∉ extra) ↔ (f.run (extra ++ taken)).1 = (f.run taken).1 := by
  change (∀ n ∈ g (f taken).1, n ∉ extra) ↔ (f (extra ++ taken)).1 = (f taken).1
  obtain ⟨names, ⟨rfl, -⟩, -, hfree, hstable⟩ := h taken
  constructor
  · intro havoid
    refine (hstable _ (List.subset_append_right _ _) fun n hn hmem => ?_).1
    exact (List.mem_append.1 hmem).elim (havoid n hn) (hfree n hn)
  · intro hsame n hn hextra
    obtain ⟨names', ⟨rfl, -⟩, -, hfree', -⟩ := h (extra ++ taken)
    exact hfree' n (hsame ▸ hn) (List.mem_append_left _ hextra)

end Draws

end GridKernel.Identifier
