import GridKernel.Expr.Basic

/-!
Equality of expressions, axes and arrays: the same structure, with float literals compared by
`Binary64.same`.
-/
namespace GridKernel

mutual

def Expr.same : Expr → Expr → Bool
  | .int m, .int n => m == n
  | .float x, .float y => x.same y
  | .symbol m, .symbol n => m == n
  | .scalar s, .scalar t => s == t
  | .dim d, .dim e => d.same e
  | .size m, .size n => m == n
  | .access a xs, .access b ys => a.same b && Expr.sameAll xs ys
  | .neg e, .neg f => e.same f
  | .binary o a b, .binary p c d => o == p && a.same c && b.same d
  | _, _ => false
termination_by structural e => e

def Expr.sameAll : List Expr → List Expr → Bool
  | [], [] => true
  | x :: xs, y :: ys => x.same y && Expr.sameAll xs ys
  | _, _ => false
termination_by structural es => es

def AxisRole.same : AxisRole → AxisRole → Bool
  | .sized e, .sized f => e.same f
  | .incremented p a b, .incremented q c d => p.same q && a.same c && b.same d
  | .spatial, .spatial => true
  | .time, .time => true
  | _, _ => false
termination_by structural k => k

def Dimension.same : Dimension → Dimension → Bool
  | ⟨m, k⟩, ⟨n, l⟩ => m == n && k.same l
termination_by structural d => d

def Dimension.sameAll : List Dimension → List Dimension → Bool
  | [], [] => true
  | x :: xs, y :: ys => x.same y && Dimension.sameAll xs ys
  | _, _ => false
termination_by structural ds => ds

def GridArray.same : GridArray → GridArray → Bool
  | ⟨m, s, ds, xs, hs, p⟩, ⟨n, t, es, ys, is, q⟩ =>
    m == n && s == t && Dimension.sameAll ds es && Expr.sameAll xs ys && hs == is && p == q
termination_by structural a => a

end

mutual

theorem Expr.same_self (e : Expr) : e.same e = true := by
  cases e with
  | int n => simp [Expr.same]
  | float x => simp [Expr.same]
  | symbol n => simp [Expr.same]
  | scalar s => simp [Expr.same]
  | dim d => simpa [Expr.same] using d.same_self
  | size n => simp [Expr.same]
  | access a es => simp [Expr.same, a.same_self, Expr.sameAll_self es]
  | neg e => simpa [Expr.same] using e.same_self
  | binary op l r => simp [Expr.same, l.same_self, r.same_self]
termination_by structural e

theorem Expr.sameAll_self (es : List Expr) : Expr.sameAll es es = true := by
  cases es with
  | nil => rfl
  | cons e es => simp [Expr.sameAll, e.same_self, Expr.sameAll_self es]
termination_by structural es

theorem AxisRole.same_self (k : AxisRole) : k.same k = true := by
  cases k with
  | sized e => simpa [AxisRole.same] using e.same_self
  | incremented p a b => simp [AxisRole.same, p.same_self, a.same_self, b.same_self]
  | spatial => rfl
  | time => rfl
termination_by structural k

theorem Dimension.same_self (d : Dimension) : d.same d = true := by
  obtain ⟨n, k⟩ := d
  simp [Dimension.same, k.same_self]
termination_by structural d

theorem Dimension.sameAll_self (ds : List Dimension) : Dimension.sameAll ds ds = true := by
  cases ds with
  | nil => rfl
  | cons d ds => simp [Dimension.sameAll, d.same_self, Dimension.sameAll_self ds]
termination_by structural ds

/-- Every array is the same as itself, also when its shape has a NaN in it. -/
theorem GridArray.same_self (a : GridArray) : a.same a = true := by
  obtain ⟨n, s, ds, es, hs, p⟩ := a
  simp [GridArray.same, Dimension.sameAll_self ds, Expr.sameAll_self es]
termination_by structural a

end

end GridKernel
