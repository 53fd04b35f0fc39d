import GridKernel.Proofs.Readings

/-! Tokens of expressions. The tokens of an expression read as the expression, but where the right
operand of an operator lost its parentheses the operands regroup to the left. -/
namespace GridKernel

open Source

/-- The magnitude of a finite word. -/
def Binary64.magnitude (x : Binary64) : ℚ := x.mantissa * 2 ^ x.exponent

/-- Whether the parentheses around a right operand are left out although it binds no tighter than
the operator in front of it. -/
def BinaryOp.ungroups (op inner : BinaryOp) : Bool :=
  inner.precedence == op.precedence && op.isCommutative

namespace Source

/-- An operator with operands, regrouped with the operators of a right operand that stands without
parentheses. -/
def Tree.rotate (t : Tree) (op : BinaryOp) : Tree → Tree
  | .binary o l r =>
    if op.ungroups o then .binary o (rotate t op l) r else .binary op t (.binary o l r)
  | u => .binary op t u

def signedTokens (negative : Bool) (q : ℚ) : List Token :=
  if negative then [.mark "-", .number q] else [.number q]

def parenthesized (parens : Bool) (ts : List Token) : List Token :=
  if parens then .mark "(" :: (ts ++ [.mark ")"]) else ts

def signedTree (negative : Bool) (q : ℚ) : Tree :=
  if negative then .neg (.number q) else .number q

end Source

namespace Expr

mutual

/-- The tokens of an expression, each minus sign being one of its own. -/
def tokens : Expr → List Token
  | int n => signedTokens (decide (n.toInt < 0)) n.toInt.natAbs
  | float x => signedTokens x.isNegative x.magnitude
  | symbol name => [.name name]
  | scalar s => [.name s.name]
  | dim d => [.name d.name]
  | size name => [.name (name ++ "_size")]
  | access a indices => .name a.name :: subscriptTokens indices
  | neg e => .mark "-" :: parenthesized e.op?.isSome e.tokens
  | binary op l r =>
    parenthesized (needsParens op l false) l.tokens ++ [.mark op.symbol] ++
      parenthesized (needsParens op r true) r.tokens
termination_by structural e => e

def subscriptTokens : List Expr → List Token
  | [] => []
  | e :: es => .mark "[" :: (e.tokens ++ [.mark "]"]) ++ subscriptTokens es
termination_by structural es => es

end

mutual

/-- The expression that the tokens read as. -/
def reading : Expr → Tree
  | int n => signedTree (decide (n.toInt < 0)) n.toInt.natAbs
  | float x => signedTree x.isNegative x.magnitude
  | symbol name => .named name []
  | scalar s => .named s.name []
  | dim d => .named d.name []
  | size name => .named (name ++ "_size") []
  | access a indices => .named a.name (readingAll indices)
  | neg e => .neg e.reading
  | binary op l r => l.reading.rotate op r.reading
termination_by structural e => e

def readingAll : List Expr → List Tree
  | [] => []
  | e :: es => e.reading :: readingAll es
termination_by structural es => es

end

end Expr

theorem level_eq_precedence (op : BinaryOp) : level op = op.precedence := by
  cases op <;> rfl

namespace Source

section Rotation
variable {op o : BinaryOp}

theorem rotate_of_ungroups (h : op.ungroups o) (t l r : Tree) :
    t.rotate op (.binary o l r) = .binary o (t.rotate op l) r :=
  if_pos h

theorem ungroups_trans {o' : BinaryOp} (h : op.ungroups o) (h' : o.ungroups o') :
    op.ungroups o' := by
  simp only [BinaryOp.ungroups, Bool.and_eq_true, beq_iff_eq] at *
  exact ⟨h'.1.trans h.1, h.2⟩

/-- Regrouping twice is regrouping from the left. -/
theorem rotate_rotate (h : op.ungroups o) (t l r : Tree) :
    t.rotate op (l.rotate o r) = (t.rotate op l).rotate o r := by
  fun_induction Tree.rotate l o r with
  | case1 o' l' r' ho ih =>
    rw [rotate_of_ungroups (ungroups_trans h ho), ih, rotate_of_ungroups ho]
  | case2 o' l' r' ho =>
    rw [rotate_of_ungroups h]
    exact (if_neg ho).symm
  | case3 r hr =>
    rw [rotate_of_ungroups h]
    cases r with
    | binary o' l' r' => exact absurd rfl (hr o' l' r')
    | _ => rfl

/-- An operator that keeps the parentheses of a group takes it whole. -/
theorem rotate_of_not_ungroups (h : ¬ op.ungroups o) (t l r : Tree) :
    t.rotate op (l.rotate o r) = .binary op t (l.rotate o r) := by
  fun_cases Tree.rotate l o r with
  | case1 o' l' r' ho =>
    have ho' : ¬ op.ungroups o' := by
      simp only [BinaryOp.ungroups, Bool.and_eq_true, beq_iff_eq] at h ho ⊢
      rwa [ho.1]
    exact if_neg ho'
  | case2 => exact if_neg h
  | case3 => exact if_neg h

end Rotation

section Stack
variable {state : Option State} {p : Nat} {t u : Tree} {frames : List Frame}

/-- An operand is given to the minus sign in front of it. -/
theorem Settles.minus (h : Settles state p t (.minus :: frames)) :
    Settles state p (.neg t) frames := by
  obtain ⟨t', frames', hstate, hcomplete⟩ := h
  exact ⟨t', frames', hstate, hcomplete⟩

/-- An operand is given to an operator in front of it before anything that binds as loosely. -/
theorem Settles.left {op : BinaryOp} (h : Settles state p u (.left t op :: frames))
    (hp : level op ≤ p) : Settles state (level op) (.binary op t u) frames := by
  obtain ⟨t', frames', hstate, hcomplete⟩ := h
  refine ⟨t', frames', hstate, fun q hq => ?_⟩
  rw [hcomplete q (hq.trans hp)]
  exact if_pos hq

end Stack

end Source

namespace Expr

/-- The tokens read as the expression, up to the operators of a level that still wait in front of
it. -/
def Reads (e : Expr) : Prop := ∀ p frames, (∀ o ∈ e.op?, p ≤ level o ∧ Below (level o) frames) →
  Settles (run (.wanting frames) e.tokens) p e.reading frames

/-- The tokens read after an operator give its operands, regrouped. -/
def ReadsAfter (e : Expr) : Prop := ∀ t op frames, Below (level op) frames →
  Settles (run (.wanting (.left t op :: frames)) (parenthesized (needsParens op e true) e.tokens))
    (level op) (t.rotate op e.reading) frames

variable {e l r : Expr} {op o : BinaryOp}

theorem Reads.parenthesized (h : e.Reads) (frames : List Frame) :
    run (.wanting frames) (parenthesized true e.tokens) = some (.holding e.reading frames) := by
  have h := h 0 (.parenthesis :: frames) fun o _ => ⟨Nat.zero_le _, trivial⟩
  exact h.parenthesized

/-- A minus sign takes the operand after it. -/
theorem Reads.neg (h : e.Reads) : (neg e).Reads := by
  intro p frames _
  apply Settles.minus
  show Settles (run (.wanting (.minus :: frames)) (Source.parenthesized e.op?.isSome e.tokens)) p
    e.reading (.minus :: frames)
  cases hop : e.op? with
  | none => exact h p _ (by simp [hop])
  | some o =>
    show Settles (run _ (Source.parenthesized true e.tokens)) _ _ _
    rw [h.parenthesized]
    exact settles_holding p e.reading _

/-- A left operand, in parentheses unless it binds as tightly as the operator. -/
theorem Reads.left (h : e.Reads) {frames : List Frame} (hbelow : Below (level op) frames) :
    Settles (run (.wanting frames) (Source.parenthesized (needsParens op e false) e.tokens))
      (level op) e.reading frames := by
  cases hparens : needsParens op e false with
  | true =>
    rw [h.parenthesized]
    exact settles_holding _ _ _
  | false =>
    apply h
    intro o ho
    have hle : level op ≤ level o := by
      simp only [needsParens, Option.mem_def.1 ho, Bool.or_eq_false_iff,
        decide_eq_false_iff_not, ← level_eq_precedence] at hparens
      omega
    exact ⟨hle, hbelow.mono hle⟩

/-- A right operand keeps its tokens in front of the operator that it binds tighter than, or that
gives up its parentheses. -/
theorem Reads.after (h : e.Reads) (hop : ∀ o ∈ e.op?, ¬ op.ungroups o) {t : Tree}
    {frames : List Frame} : Settles
      (run (.wanting (.left t op :: frames)) (Source.parenthesized (needsParens op e true) e.tokens))
      (level op) (.binary op t e.reading) frames := by
  cases hparens : needsParens op e true with
  | true =>
    rw [h.parenthesized]
    exact (settles_holding _ _ _).left (le_refl _)
  | false =>
    apply Settles.left (h (level op) _ _) (le_refl _)
    intro o ho
    have hlt : level op < level o := by
      have hgroup := hop o ho
      simp only [needsParens, Option.mem_def.1 ho, Bool.or_eq_false_iff, decide_eq_false_iff_not,
        BinaryOp.ungroups, ← level_eq_precedence] at hparens hgroup
      by_contra hge
      have heq : level o = level op := by omega
      simp_all
    exact ⟨hlt.le, hlt⟩

theorem Reads.readsAfter (h : e.Reads) (hop : e.op? = none) : e.ReadsAfter := by
  intro t op frames _
  have hrotate : t.rotate op e.reading = .binary op t e.reading := by
    cases e with
    | binary => cases hop
    | int n =>
      unfold reading signedTree
      split <;> rfl
    | float x =>
      unfold reading signedTree
      split <;> rfl
    | _ => rfl
  rw [hrotate]
  exact h.after (by simp [hop])

theorem reads_binary (op : BinaryOp) (hl : l.Reads) (hr : r.ReadsAfter) : (binary op l r).Reads := by
  intro p frames h
  obtain ⟨hp, hbelow⟩ := h op rfl
  have hleft := (hl.left hbelow).operator (le_refl _) hbelow
  show Settles (run _ (_ ++ [.mark op.symbol] ++ _)) _ _ _
  rw [run_append, hleft]
  exact (hr l.reading op frames hbelow).mono hp

theorem readsAfter_binary (h : (binary o l r).Reads) (hl : l.ReadsAfter) (hr : r.ReadsAfter) :
    (binary o l r).ReadsAfter := by
  intro t op frames hbelow
  by_cases hgroup : op.ungroups o
  · -- The left operand stands after the operator in front of the group.
    obtain ⟨hlevel, hcommutative⟩ : level o = level op ∧ op.isCommutative := by
      simpa [BinaryOp.ungroups, ← level_eq_precedence] using hgroup
    have hparens : needsParens op (binary o l r) true = false := by
      simp [needsParens, op?, ← level_eq_precedence, hlevel, hcommutative]
    have hleft : needsParens op l true = needsParens o l false := by
      simp only [needsParens, ← level_eq_precedence, hlevel, hcommutative]
      cases l.op? <;> simp
    have hl := hl t op frames hbelow
    rw [hleft] at hl
    rw [hparens]
    show Settles (run _ (_ ++ [.mark o.symbol] ++ _)) _ (t.rotate op (l.reading.rotate o r.reading)) _
    rw [run_append, hl.operator hlevel.le (hlevel ▸ hbelow), rotate_rotate hgroup, ← hlevel]
    exact hr (t.rotate op l.reading) o frames (hlevel ▸ hbelow)
  · have hreading : t.rotate op (binary o l r).reading = .binary op t (binary o l r).reading :=
      rotate_of_not_ungroups hgroup t l.reading r.reading
    rw [hreading]
    exact h.after (by rintro o' ⟨⟩; exact hgroup)

theorem reads_signed (negative : Bool) (q : ℚ) (p : Nat) (frames : List Frame) :
    Settles (run (.wanting frames) (signedTokens negative q)) p (signedTree negative q) frames := by
  cases negative with
  | true => exact Settles.minus (settles_holding p (.number q) (.minus :: frames))
  | false => exact settles_holding p (.number q) frames

theorem Reads.and_readsAfter (h : e.Reads) (hop : e.op? = none) : e.Reads ∧ e.ReadsAfter :=
  ⟨h, h.readsAfter hop⟩

mutual

/-- The tokens of every expression read as its reading. -/
theorem reads (e : Expr) : e.Reads ∧ e.ReadsAfter := by
  cases e with
  | int n => exact Reads.and_readsAfter (fun p frames _ => reads_signed _ _ p frames) rfl
  | float x => exact Reads.and_readsAfter (fun p frames _ => reads_signed _ _ p frames) rfl
  | symbol name => exact Reads.and_readsAfter (fun p frames _ => settles_holding p _ frames) rfl
  | scalar s => exact Reads.and_readsAfter (fun p frames _ => settles_holding p _ frames) rfl
  | dim d => exact Reads.and_readsAfter (fun p frames _ => settles_holding p _ frames) rfl
  | size name => exact Reads.and_readsAfter (fun p frames _ => settles_holding p _ frames) rfl
  | access a indices =>
    refine Reads.and_readsAfter (fun p frames _ => ?_) rfl
    show Settles (run (.holding (.named a.name []) frames) (subscriptTokens indices)) p
      (.named a.name (readingAll indices)) frames
    rw [reads_subscripts indices]
    exact settles_holding p _ frames
  | neg e => exact (reads e).1.neg.and_readsAfter rfl
  | binary op l r =>
    have h := reads_binary op (reads l).1 (reads r).2
    exact ⟨h, readsAfter_binary h (reads l).2 (reads r).2⟩
termination_by structural e

theorem reads_subscripts (es : List Expr) (s : String) (ts : List Tree) (frames : List Frame) :
    run (.holding (.named s ts) frames) (subscriptTokens es) =
      some (.holding (.named s (ts ++ readingAll es)) frames) := by
  cases es with
  | nil => simp [subscriptTokens, readingAll]
  | cons e es =>
    have h := (reads e).1 0 (.subscript s ts :: frames) fun o _ => ⟨Nat.zero_le _, trivial⟩
    show run _ (.mark "[" :: (e.tokens ++ [.mark "]"]) ++ subscriptTokens es) = _
    rw [run_append, h.subscript, Option.bind_some, reads_subscripts es, List.append_assoc]
    rfl
termination_by structural es

end

/-- The tokens of a whole expression read as its reading. -/
theorem finish_run_tokens (e : Expr) : (run (.wanting []) e.tokens).bind finish = some e.reading :=
  ((reads e).1 0 [] fun _ _ => ⟨Nat.zero_le _, trivial⟩).finish

end Expr

end GridKernel
