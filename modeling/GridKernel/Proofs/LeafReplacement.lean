import Mathlib.Logic.Equiv.Basic
import GridKernel.Expr.Replace
import GridKernel.Proofs.Results
import GridKernel.Machine.Basic

/-! Replacing names in expressions. Where names and axes are replaced by expressions, the result
evaluates as the expression does when every key stands for what its replacement evaluates to. An
index that is no word is quoted as it reads after the replacement. -/
namespace GridKernel

variable {R : Type}

/-- What names stand for: each has a value, or a fault that reading it meets. -/
structure Environment (R : Type) where
  symbol : String → Result R
  scalar : String → Result R
  dim : String → Result R
  size : String → Result R
  array : String → Result (Buffer R)

namespace Environment

variable [Arithmetic R] {v : Environment R} {quote : Expr → String}

mutual

/-- Evaluation as machines do it, with untyped names that may have a value. An index that is no word
is reported with its quotation. -/
def eval (quote : Expr → String) (v : Environment R) : Expr → Result R
  | .int n => .ok (Arithmetic.ofInt n)
  | .float x => .ok (Arithmetic.ofLiteral x)
  | .symbol name => v.symbol name
  | .scalar s => v.scalar s.name
  | .dim d => v.dim d.name
  | .size name => v.size name
  | .access a es => do
    let indices ← evalIndices quote v es
    let b ← v.array a.name
    Machine.bound (b.get? indices) (Machine.outside a.name b indices)
  | .neg e => Arithmetic.neg <$> eval quote v e
  | .binary op l r => do
    let x ← eval quote v l
    let y ← eval quote v r
    return Arithmetic.apply op x y
termination_by structural e => e

def evalIndices (quote : Expr → String) (v : Environment R) : List Expr → Result (List Int64)
  | [] => .ok []
  | e :: es => do
    let x ← eval quote v e
    let i ← Machine.bound (Arithmetic.index? x) (.notAnIndex (quote e) (Arithmetic.text x))
    return i :: (← evalIndices quote v es)
termination_by structural es => es

end

end Environment

/-- The names of a machine; an untyped name has no value there. -/
def Machine.environment [Arithmetic R] (m : Machine R) : Environment R where
  symbol name := refuse (.symbolValue name)
  scalar name := bound m.scalars[name]? (.unboundScalar name)
  dim name := Arithmetic.ofInt <$> bound m.indices[name]? (.notIterated name)
  size name := Arithmetic.ofInt <$> bound m.sizes[name]? (.unboundSize name)
  array := m.array

namespace Environment

variable [Arithmetic R]

mutual

theorem eval_environment (m : Machine R) :
    (e : Expr) → m.environment.eval Expr.text e = m.eval e
  | .int _ => rfl
  | .float _ => rfl
  | .symbol _ => rfl
  | .scalar _ => rfl
  | .dim _ => rfl
  | .size _ => rfl
  | .access a es => by
    rw [eval, Machine.eval, evalIndices_environment m es]
    rfl
  | .neg e => by rw [eval, Machine.eval, eval_environment m e]
  | .binary op l r => by rw [eval, Machine.eval, eval_environment m l, eval_environment m r]
termination_by structural e => e

theorem evalIndices_environment (m : Machine R) :
    (es : List Expr) → m.environment.evalIndices Expr.text es = m.evalIndices es
  | [] => rfl
  | e :: es => by
    rw [evalIndices, Machine.evalIndices, eval_environment m e, evalIndices_environment m es]
    rfl
termination_by structural es => es

end

end Environment

theorem Dimension.name_eq_of_same {c d : Dimension} (h : c.same d) : c.name = d.name := by
  obtain ⟨m, k⟩ := c
  obtain ⟨n, l⟩ := d
  rw [Dimension.same, Bool.and_eq_true, beq_iff_eq] at h
  exact h.1

namespace Replacements

variable {r : Replacements} {e : Expr}

/-- Only untyped names and axes are replaced. -/
def OfLeaves (r : Replacements) : Prop :=
  ∀ p ∈ r, (∃ n, p.1 = .symbol n) ∨ ∃ d, p.1 = .dim d

theorem OfLeaves.of_names (values : List (String × Expr)) :
    OfLeaves (values.map fun (name, f) => (.symbol name, f)) := by
  intro p hp
  obtain ⟨q, -, rfl⟩ := List.mem_map.1 hp
  exact .inl ⟨q.1, rfl⟩

/-- An axis of an expression that has the name of a replaced axis is that axis. -/
def Identifies (r : Replacements) (e : Expr) : Prop :=
  ∀ d, .dim d ∈ e.nodes → ∀ c f, (.dim c, f) ∈ r → c.name = d.name → c.same d

/-- What replaces an axis of the given name. -/
def axis? : Replacements → String → Option Expr
  | [], _ => none
  | (.dim d, f) :: rest, n => (axis? rest n).or (if d.name = n then some f else none)
  | _ :: rest, n => axis? rest n

theorem find?_eq_none_of_other (hr : r.OfLeaves) (hsymbol : ∀ n, e ≠ .symbol n)
    (hdim : ∀ d, e ≠ .dim d) : r.find? e = none := by
  induction r with
  | nil => rfl
  | cons p r ih =>
    obtain ⟨key, f⟩ := p
    have hkey : key.same e = false := by
      rcases hr _ List.mem_cons_self with ⟨n, rfl⟩ | ⟨d, rfl⟩
      · cases e with
        | symbol m => exact absurd rfl (hsymbol m)
        | _ => rfl
      · cases e with
        | dim c => exact absurd rfl (hdim c)
        | _ => rfl
    rw [find?, ih fun q hq => hr q (List.mem_cons_of_mem _ hq), hkey]
    rfl

theorem find?_dim (hr : r.OfLeaves) {d : Dimension}
    (hd : ∀ c f, (.dim c, f) ∈ r → c.name = d.name → c.same d) :
    r.find? (.dim d) = r.axis? d.name := by
  induction r with
  | nil => rfl
  | cons p r ih =>
    obtain ⟨key, f⟩ := p
    have hrest := ih (fun q hq => hr q (List.mem_cons_of_mem _ hq))
      fun c g hc => hd c g (List.mem_cons_of_mem _ hc)
    rw [find?, hrest]
    rcases hr _ List.mem_cons_self with ⟨n, rfl⟩ | ⟨c, rfl⟩
    · simp [axis?, Expr.same]
    · have hkey : (Expr.dim c).same (.dim d) ↔ c.name = d.name := by
        rw [Expr.same]
        exact ⟨Dimension.name_eq_of_same, hd c f List.mem_cons_self⟩
      simp only [axis?, hkey]

end Replacements

namespace Environment

variable [Arithmetic R] {v : Environment R} {quote : Expr → String} {r : Replacements}

/-- The environment in which the names that are replaced stand for what their replacements evaluate
to, and all others for what they did. -/
def sending (quote : Expr → String) (v : Environment R) (r : Replacements) : Environment R :=
  { v with
    symbol := fun n => ((r.find? (.symbol n)).map (v.eval quote)).getD (v.symbol n)
    dim := fun n => ((r.axis? n).map (v.eval quote)).getD (v.dim n) }

mutual

theorem eval_replace (hr : r.OfLeaves) : (e : Expr) → r.Identifies e →
    v.eval quote (e.replace r) = (v.sending quote r).eval (fun i => quote (i.replace r)) e
  | .int n, _ => by
    simp [Expr.replace, Replacements.find?_eq_none_of_other hr, eval]
  | .float x, _ => by
    simp [Expr.replace, Replacements.find?_eq_none_of_other hr, eval]
  | .scalar s, _ => by
    simp [Expr.replace, Replacements.find?_eq_none_of_other hr, eval, sending]
  | .size n, _ => by
    simp [Expr.replace, Replacements.find?_eq_none_of_other hr, eval, sending]
  | .symbol n, _ => by
    simp only [Expr.replace, eval, sending]
    cases r.find? (.symbol n) <;> rfl
  | .dim d, h => by
    have hfind := Replacements.find?_dim hr (h d (by simp [Expr.nodes]))
    simp only [Expr.replace, hfind, eval, sending]
    cases r.axis? d.name <;> rfl
  | .access a es, h => by
    have hes := evalIndices_replace hr es fun d hd => h d (by simp [Expr.nodes, hd])
    rw [Expr.replace, Replacements.find?_eq_none_of_other hr (by simp) (by simp),
      Option.getD_none, eval, eval, hes]
    rfl
  | .neg e, h => by
    have he := eval_replace hr e fun d hd => h d (by simp [Expr.nodes, hd])
    rw [Expr.replace, Replacements.find?_eq_none_of_other hr (by simp) (by simp),
      Option.getD_none, eval, eval, he]
  | .binary op e f, h => by
    have he := eval_replace hr e fun d hd => h d (by simp [Expr.nodes, hd])
    have hf := eval_replace hr f fun d hd => h d (by simp [Expr.nodes, hd])
    rw [Expr.replace, Replacements.find?_eq_none_of_other hr (by simp) (by simp),
      Option.getD_none, eval, eval, he, hf]
termination_by structural e => e

theorem evalIndices_replace (hr : r.OfLeaves) : (es : List Expr) →
    (∀ d, .dim d ∈ Expr.nodesAll es → ∀ c f, (.dim c, f) ∈ r → c.name = d.name → c.same d) →
    v.evalIndices quote (Expr.replaceAll r es) =
      (v.sending quote r).evalIndices (fun i => quote (i.replace r)) es
  | [], _ => rfl
  | e :: es, h => by
    have he := eval_replace hr e fun d hd => h d (by simp [Expr.nodesAll, hd])
    have hes := evalIndices_replace hr es fun d hd => h d (by simp [Expr.nodesAll, hd])
    rw [Expr.replaceAll, evalIndices, evalIndices, he, hes]
termination_by structural es => es

end

/-- Results that differ at most in how they quote an index that is no word. -/
inductive SameButQuotation {α : Type} : Result α → Result α → Prop where
  | ok (a : α) : SameButQuotation (.ok a) (.ok a)
  | fault (e : Fault) : SameButQuotation (.error e) (.error e)
  | index (i j value : String) :
      SameButQuotation (.error (.cause (.notAnIndex i value))) (.error (.cause (.notAnIndex j value)))

namespace SameButQuotation

variable {α β : Type} {x y : Result α}

theorem refl (x : Result α) : SameButQuotation x x := by
  cases x with
  | ok a => exact .ok a
  | error e => exact .fault e

/-- Values are the same. -/
theorem eq_ok_iff (hxy : SameButQuotation x y) {a : α} : x = .ok a ↔ y = .ok a := by
  cases hxy <;> simp

theorem bind {f g : α → Result β} (hxy : SameButQuotation x y)
    (hfg : ∀ a, SameButQuotation (f a) (g a)) : SameButQuotation (x >>= f) (y >>= g) := by
  cases hxy with
  | ok a => exact hfg a
  | fault e => exact .fault e
  | index i j value => exact .index i j value

theorem map (f : α → β) (hxy : SameButQuotation x y) : SameButQuotation (f <$> x) (f <$> y) := by
  cases hxy with
  | ok a => exact .ok _
  | fault e => exact .fault e
  | index i j value => exact .index i j value

end SameButQuotation

mutual

theorem eval_requoted (p q : Expr → String) :
    (e : Expr) → SameButQuotation (v.eval p e) (v.eval q e)
  | .int _ => .ok _
  | .float _ => .ok _
  | .symbol _ => .refl _
  | .scalar _ => .refl _
  | .dim _ => .refl _
  | .size _ => .refl _
  | .access a es => by
    rw [eval, eval]
    exact (evalIndices_requoted p q es).bind fun _ => .refl _
  | .neg e => by
    rw [eval, eval]
    exact (eval_requoted p q e).map _
  | .binary op l r => by
    rw [eval, eval]
    exact (eval_requoted p q l).bind fun x => (eval_requoted p q r).bind fun y => .refl _
termination_by structural e => e

theorem evalIndices_requoted (p q : Expr → String) :
    (es : List Expr) → SameButQuotation (v.evalIndices p es) (v.evalIndices q es)
  | [] => .ok _
  | e :: es => by
    have hindex : ∀ x : R, SameButQuotation
        (Machine.bound (Arithmetic.index? x) (.notAnIndex (p e) (Arithmetic.text x)))
        (Machine.bound (Arithmetic.index? x) (.notAnIndex (q e) (Arithmetic.text x))) := by
      intro x
      cases Arithmetic.index? x with
      | some i => exact .ok i
      | none => exact .index _ _ _
    rw [evalIndices, evalIndices]
    exact (eval_requoted p q e).bind fun x => (hindex x).bind fun i =>
      (evalIndices_requoted p q es).bind fun is => .refl _
termination_by structural es => es

end

/-- Two names that replace each other. -/
def swapped (x y : String) : Replacements := [(.symbol x, .symbol y), (.symbol y, .symbol x)]

theorem symbol_sending_swapped (v : Environment R) (x y n : String) :
    (v.sending quote (swapped x y)).symbol n = v.symbol (Equiv.swap x y n) := by
  simp only [sending, swapped, Replacements.find?, Expr.same, beq_iff_eq, Option.none_or]
  by_cases hy : n = y
  · subst hy
    simp [eval]
  · rw [if_neg (Ne.symm hy), Option.none_or]
    by_cases hx : n = x
    · subst hx
      simp [eval]
    · rw [if_neg (Ne.symm hx), Equiv.swap_apply_of_ne_of_ne hx hy]
      rfl

variable {e : Expr}

/-- Where untyped names and axes are replaced, and an axis that has the name of a replaced one is
that axis, the result evaluates as the expression does with every key standing for the value or the
fault of its replacement. Only an index that is no word is quoted otherwise, as it reads after the
replacement. Names that replace each other swap what they stand for. On the names of a machine this
is the evaluation of the machine. -/
theorem eval_replace_sends (v : Environment R) (hr : r.OfLeaves) (he : r.Identifies e) :
    v.eval Expr.text (e.replace r) =
        (v.sending Expr.text r).eval (fun i => (i.replace r).text) e ∧
      SameButQuotation (v.eval Expr.text (e.replace r)) ((v.sending Expr.text r).eval Expr.text e) ∧
      (∀ x y n, (v.sending Expr.text (swapped x y)).symbol n = v.symbol (Equiv.swap x y n)) ∧
      ∀ (m : Machine R) (f : Expr), m.environment.eval Expr.text f = m.eval f := by
  have hreplace : v.eval Expr.text (e.replace r) =
      (v.sending Expr.text r).eval (fun i => (i.replace r).text) e := eval_replace hr e he
  refine ⟨hreplace, ?_, symbol_sending_swapped v, eval_environment⟩
  rw [hreplace]
  exact eval_requoted _ _ e

/-- Two rows of two cells. -/
def rows : GridArray :=
  ⟨"a", .float64, [⟨"x", .spatial⟩, ⟨"y", .spatial⟩], [.int 2, .int 2], [.none, .none], .external⟩

def half : Binary64 := ⟨0x3fe0000000000000⟩

def rowsMachine : Machine Binary64 :=
  ((default : Machine Binary64).bindArray "a" ⟨[2, 2], #[5, 6, 7, 8].map Binary64.ofInt⟩).bindScalar
    "h" half

/-- The names of the machine, with the number 0 under the untyped name `i` and 1 under all others. -/
def rowsEnvironment : Environment Binary64 :=
  { rowsMachine.environment with
    symbol := fun n => .ok (Binary64.ofInt (if n = "i" then 0 else 1)) }

/-- The cell under two untyped names. -/
def crossing (x y : String) : Expr := .access rows [.symbol x, .symbol y]

/-- Two indices that replace each other. -/
theorem eval_replace_sends_swapped :
    (swapped "i" "j").OfLeaves ∧ (swapped "i" "j").Identifies (crossing "i" "j") ∧
      (crossing "i" "j").replace (swapped "i" "j") = crossing "j" "i" ∧
      rowsEnvironment.eval Expr.text (crossing "i" "j") = .ok (Binary64.ofInt 6) ∧
      (rowsEnvironment.sending Expr.text (swapped "i" "j")).eval Expr.text (crossing "i" "j") =
        .ok (Binary64.ofInt 7) := by
  have hleaves : (swapped "i" "j").OfLeaves :=
    .of_names [("i", .symbol "j"), ("j", .symbol "i")]
  have hidentifies : (swapped "i" "j").Identifies (crossing "i" "j") := by
    intro d hd c f hc
    simp [swapped] at hc
  have hreplaced : (crossing "i" "j").replace (swapped "i" "j") = crossing "j" "i" := rfl
  have hbefore : rowsEnvironment.eval Expr.text (crossing "i" "j") = .ok (Binary64.ofInt 6) := by
    decide +kernel
  have hafter : rowsEnvironment.eval Expr.text (crossing "j" "i") = .ok (Binary64.ofInt 7) := by
    decide +kernel
  have hsame := (eval_replace_sends rowsEnvironment hleaves hidentifies).2.1
  rw [hreplaced] at hsame
  exact ⟨hleaves, hidentifies, hreplaced, hbefore, hsame.eq_ok_iff.1 hafter⟩

/-- An index that is no word is quoted as it reads after the replacement. -/
theorem replaced_index_requoted :
    let r : Replacements := [(.symbol "k", .scalar ⟨"h", .float64⟩)]
    let e : Expr := .access rows [.symbol "k", .int 0]
    r.OfLeaves ∧ r.Identifies e ∧
      rowsMachine.eval (e.replace r) = .error (.cause (.notAnIndex "h" "0.5")) ∧
      (rowsMachine.environment.sending Expr.text r).eval Expr.text e =
        .error (.cause (.notAnIndex "k" "0.5")) ∧
      rowsMachine.eval (e.replace r) ≠
        (rowsMachine.environment.sending Expr.text r).eval Expr.text e := by
  intro r e
  have hreplaced : rowsMachine.eval (e.replace r) = .error (.cause (.notAnIndex "h" "0.5")) := rfl
  have hsent : (rowsMachine.environment.sending Expr.text r).eval Expr.text e =
      .error (.cause (.notAnIndex "k" "0.5")) := rfl
  refine ⟨.of_names [("k", .scalar ⟨"h", .float64⟩)], ?_, hreplaced, hsent, ?_⟩
  · intro d hd c f hc
    cases List.mem_singleton.1 hc
  · rw [hreplaced, hsent]
    simp

end Environment

end GridKernel
