import GridKernel.Expr.Same

/-!
Simultaneous replacement: a subtree equal to a key is replaced as a whole, and what replaces it is
not searched again.
-/
namespace GridKernel

/-- Keys with what replaces them; a later entry for an equal key wins. -/
abbrev Replacements := List (Expr × Expr)

def Replacements.find? : Replacements → Expr → Option Expr
  | [], _ => none
  | (key, value) :: rest, e => (find? rest e).or (if key.same e then some value else none)

namespace Expr

mutual

def replace (m : Replacements) : Expr → Expr
  | access a indices => (m.find? (access a indices)).getD (access a (replaceAll m indices))
  | neg e => (m.find? (neg e)).getD (neg (e.replace m))
  | binary op l r => (m.find? (binary op l r)).getD (binary op (l.replace m) (r.replace m))
  | e => (m.find? e).getD e
termination_by structural e => e

def replaceAll (m : Replacements) : List Expr → List Expr
  | [] => []
  | e :: es => e.replace m :: replaceAll m es
termination_by structural es => es

end

end Expr

/-- Puts values for untyped names into both sides. -/
def Equation.substitute (eqn : Equation) (values : List (String × Expr)) : Equation :=
  let m : Replacements := values.map fun (name, value) => (.symbol name, value)
  ⟨eqn.lhs.replace m, eqn.rhs.replace m⟩

end GridKernel
