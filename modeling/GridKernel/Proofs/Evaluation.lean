import GridKernel.Proofs.Results
import GridKernel.Machine.Basic

/-! Evaluation reads only what an expression mentions: machines that bind the scalars, indices,
sizes and arrays of an expression alike give it the same value. -/
namespace GridKernel.Machine

variable {R : Type} [Arithmetic R]

/-- Two machines bind alike what a node of an expression reads itself. -/
def SameAt (m m' : Machine R) : Expr → Prop
  | .scalar s => m.scalars[s.name]? = m'.scalars[s.name]?
  | .dim d => m.indices[d.name]? = m'.indices[d.name]?
  | .size name => m.sizes[name]? = m'.sizes[name]?
  | .access a _ => m.arrays[a.name]? = m'.arrays[a.name]?
  | _ => True

mutual

theorem eval_congr {m m' : Machine R} :
    (e : Expr) → (∀ x ∈ e.nodes, m.SameAt m' x) → m.eval e = m'.eval e
  | .int _, _ => rfl
  | .float _, _ => rfl
  | .symbol _, _ => rfl
  | .scalar s, h => by
    have hs : m.SameAt m' (.scalar s) := h _ (by simp [Expr.nodes])
    simp only [SameAt] at hs
    simp [eval, hs]
  | .dim d, h => by
    have hd : m.SameAt m' (.dim d) := h _ (by simp [Expr.nodes])
    simp only [SameAt] at hd
    simp [eval, hd]
  | .size name, h => by
    have hn : m.SameAt m' (.size name) := h _ (by simp [Expr.nodes])
    simp only [SameAt] at hn
    simp [eval, hn]
  | .access a es, h => by
    have ha : m.SameAt m' (.access a es) := h _ (by simp [Expr.nodes])
    have hes := evalIndices_congr es fun x hx => h x (by simp [Expr.nodes, hx])
    simp only [SameAt] at ha
    simp [eval, array, ha, hes]
  | .neg e, h => by
    have he := eval_congr e fun x hx => h x (by simp [Expr.nodes, hx])
    simp [eval, he]
  | .binary _ l r, h => by
    have hl := eval_congr l fun x hx => h x (by simp [Expr.nodes, hx])
    have hr := eval_congr r fun x hx => h x (by simp [Expr.nodes, hx])
    simp [eval, hl, hr]
termination_by structural e => e

theorem evalIndices_congr {m m' : Machine R} :
    (es : List Expr) → (∀ x ∈ Expr.nodesAll es, m.SameAt m' x) →
      m.evalIndices es = m'.evalIndices es
  | [], _ => rfl
  | e :: es, h => by
    have he := eval_congr e fun x hx => h x (by simp [Expr.nodesAll, hx])
    have hes := evalIndices_congr es fun x hx => h x (by simp [Expr.nodesAll, hx])
    simp [evalIndices, he, hes]
termination_by structural es => es

end

/-- Only scalars and literals stand in an expression. -/
def ReadsScalars (e : Expr) : Prop :=
  ∀ x ∈ e.nodes, match x with
    | .symbol _ | .dim _ | .size _ | .access _ _ => False
    | _ => True

theorem ReadsScalars.eval_congr {m m' : Machine R} {e : Expr} (h : ReadsScalars e)
    (hm : m.scalars = m'.scalars) : m.eval e = m'.eval e := by
  apply Machine.eval_congr
  intro x hx
  have hnode := h x hx
  cases x with
  | scalar s => exact congrArg (·[s.name]?) hm
  | symbol _ | dim _ | size _ | access _ _ => cases hnode
  | _ => trivial

/-- Indices are evaluated one by one. -/
theorem evalIndices_eq_ok {m : Machine R} {es : List Expr} {is : List Int64} :
    m.evalIndices es = .ok is ↔ List.Forall₂ (fun e i => m.evalIndex e = .ok i) es is := by
  have hmapM : m.evalIndices es = es.mapM m.evalIndex := by
    induction es with
    | nil => rfl
    | cons e es ih => simp only [evalIndices, List.mapM_cons, evalIndex, bind_assoc, ih]
  rw [hmapM, mapM_eq_ok]

end GridKernel.Machine
