import GridKernel.Proofs.Uses

/-! Sameness. Entities are compared by their structure, float literals among it up to the choice of a
NaN and the sign of a zero. That is an equivalence, so entities that are the same as one registered
entity are the same as each other. -/
namespace GridKernel

theorem Binary64.isNaN_of_isZero {x : Binary64} (h : x.isZero) : x.isNaN = false := by
  have hbits : x.abs.bits = 0 := by simpa [isZero] using h
  simp [isNaN, isFinite, exponentField, hbits]

/-- Literals that are the same as one literal are the same. -/
theorem Binary64.same_of_same {x y z : Binary64} (h : x.same y) (h' : x.same z) : y.same z := by
  have hapart : x.isNaN → x.isZero → False := by
    intro hnan hzero
    rw [isNaN_of_isZero hzero] at hnan
    cases hnan
  have heq : ∀ w : Binary64, x.bits = w.bits → w = x := by
    rintro ⟨bits⟩ rfl
    rfl
  simp only [same, Bool.or_eq_true, Bool.and_eq_true, beq_iff_eq] at *
  rcases h with (h | ⟨hx, hy⟩) | ⟨hx, hy⟩
  · rw [heq y h]
    exact h'
  · rcases h' with (h' | ⟨-, hz⟩) | ⟨hx', -⟩
    · rw [heq z h']
      exact .inl (.inr ⟨hy, hx⟩)
    · exact .inl (.inr ⟨hy, hz⟩)
    · cases hapart hx hx'
  · rcases h' with (h' | ⟨hx', -⟩) | ⟨-, hz⟩
    · rw [heq z h']
      exact .inr ⟨hy, hx⟩
    · cases hapart hx' hx
    · exact .inr ⟨hy, hz⟩

mutual

/-- Expressions that are the same as one expression are the same. -/
theorem Expr.same_of_same {e f g : Expr} (h : e.same f) (h' : e.same g) : f.same g := by
  cases e with
  | int n =>
    cases f with
    | int n' =>
      obtain rfl := eq_of_beq h
      exact h'
    | _ => cases h
  | float x =>
    cases f with
    | float y =>
      cases g with
      | float z => exact Binary64.same_of_same h h'
      | _ => cases h'
    | _ => cases h
  | symbol n =>
    cases f with
    | symbol n' =>
      obtain rfl := eq_of_beq h
      exact h'
    | _ => cases h
  | scalar s =>
    cases f with
    | scalar s' =>
      obtain rfl := eq_of_beq h
      exact h'
    | _ => cases h
  | dim d =>
    cases f with
    | dim e =>
      cases g with
      | dim f => exact d.same_of_same h h'
      | _ => cases h'
    | _ => cases h
  | size n =>
    cases f with
    | size n' =>
      obtain rfl := eq_of_beq h
      exact h'
    | _ => cases h
  | access a es =>
    cases f with
    | access b fs =>
      cases g with
      | access c gs =>
        have h := Bool.and_eq_true_iff.1 h
        have h' := Bool.and_eq_true_iff.1 h'
        have harray := a.same_of_same h.1 h'.1
        have hindices := Expr.sameAll_of_sameAll h.2 h'.2
        exact Bool.and_eq_true_iff.2 ⟨harray, hindices⟩
      | _ => cases h'
    | _ => cases h
  | neg e =>
    cases f with
    | neg f =>
      cases g with
      | neg g =>
        simp only [Expr.same] at h h' ⊢
        exact e.same_of_same h h'
      | _ => cases h'
    | _ => cases h
  | binary op l r =>
    cases f with
    | binary op' l' r' =>
      cases g with
      | binary op'' l'' r'' =>
        simp only [Expr.same, Bool.and_eq_true, beq_iff_eq] at h h' ⊢
        have hop := h.1.1.symm.trans h'.1.1
        have hleft := l.same_of_same h.1.2 h'.1.2
        have hright := r.same_of_same h.2 h'.2
        exact ⟨⟨hop, hleft⟩, hright⟩
      | _ => cases h'
    | _ => cases h
termination_by structural e

theorem Expr.sameAll_of_sameAll {es fs gs : List Expr} (h : Expr.sameAll es fs)
    (h' : Expr.sameAll es gs) : Expr.sameAll fs gs := by
  cases es with
  | nil =>
    cases fs with
    | nil => exact h'
    | cons f fs => cases h
  | cons e es =>
    cases fs with
    | nil => cases h
    | cons f fs =>
      cases gs with
      | nil => cases h'
      | cons g gs =>
        simp only [Expr.sameAll, Bool.and_eq_true] at h h' ⊢
        exact ⟨e.same_of_same h.1 h'.1, Expr.sameAll_of_sameAll h.2 h'.2⟩
termination_by structural es

theorem AxisRole.same_of_same {k l j : AxisRole} (h : k.same l) (h' : k.same j) : l.same j := by
  cases k with
  | sized e =>
    cases l with
    | sized f =>
      cases j with
      | sized g => exact e.same_of_same h h'
      | _ => cases h'
    | _ => cases h
  | incremented p a b =>
    cases l with
    | incremented q c d =>
      cases j with
      | incremented r e f =>
        simp only [AxisRole.same, Bool.and_eq_true] at h h' ⊢
        have hparent := p.same_of_same h.1.1 h'.1.1
        have hstart := a.same_of_same h.1.2 h'.1.2
        have hstep := b.same_of_same h.2 h'.2
        exact ⟨⟨hparent, hstart⟩, hstep⟩
      | _ => cases h'
    | _ => cases h
  | spatial =>
    cases l with
    | spatial => exact h'
    | _ => cases h
  | time =>
    cases l with
    | time => exact h'
    | _ => cases h
termination_by structural k

theorem Dimension.same_of_same {d e f : Dimension} (h : d.same e) (h' : d.same f) : e.same f := by
  cases d
  cases e
  cases f
  simp only [Dimension.same, Bool.and_eq_true, beq_iff_eq] at h h' ⊢
  exact ⟨h.1.symm.trans h'.1, AxisRole.same_of_same h.2 h'.2⟩
termination_by structural d

theorem Dimension.sameAll_of_sameAll {ds es fs : List Dimension} (h : Dimension.sameAll ds es)
    (h' : Dimension.sameAll ds fs) : Dimension.sameAll es fs := by
  cases ds with
  | nil =>
    cases es with
    | nil => exact h'
    | cons e es => cases h
  | cons d ds =>
    cases es with
    | nil => cases h
    | cons e es =>
      cases fs with
      | nil => cases h'
      | cons f fs =>
        simp only [Dimension.sameAll, Bool.and_eq_true] at h h' ⊢
        exact ⟨d.same_of_same h.1 h'.1, Dimension.sameAll_of_sameAll h.2 h'.2⟩
termination_by structural ds

theorem GridArray.same_of_same {a b c : GridArray} (h : a.same b) (h' : a.same c) : b.same c := by
  cases a
  cases b
  cases c
  simp only [GridArray.same, Bool.and_eq_true, beq_iff_eq] at h h' ⊢
  obtain ⟨⟨⟨⟨⟨rfl, rfl⟩, hdims⟩, hshape⟩, rfl⟩, rfl⟩ := h
  obtain ⟨⟨⟨⟨hnames, hdims'⟩, hshape'⟩, hhalo⟩, hscope⟩ := h'
  have hdims := Dimension.sameAll_of_sameAll hdims hdims'
  have hshape := Expr.sameAll_of_sameAll hshape hshape'
  exact ⟨⟨⟨⟨hnames, hdims⟩, hshape⟩, hhalo⟩, hscope⟩
termination_by structural a

end

namespace Parameter

variable {p q r : Parameter}

theorem same_of_same (h : p.same q) (h' : p.same r) : q.same r := by
  cases p with
  | array a =>
    cases q with
    | array b =>
      cases r with
      | array c => exact a.same_of_same h h'
      | scalar t => cases h'
    | scalar s => cases h
  | scalar s =>
    cases q with
    | array b => cases h
    | scalar t =>
      obtain rfl := eq_of_beq h
      exact h'

theorem same_symm (h : p.same q) : q.same p := same_of_same h p.same_self

theorem same_comm (p q : Parameter) : p.same q = q.same p :=
  Bool.eq_iff_iff.2 ⟨same_symm, same_symm⟩

theorem same_trans (h : p.same q) (h' : q.same r) : p.same r := same_of_same (same_symm h) h'

end Parameter

end GridKernel
