import GridKernel.Binary64.Text
import GridKernel.Expr.Basic

/-!
The text of an expression. Multiplicative operators bind tighter than additive ones, those tighter
than order tests, and those tighter than equality tests. Parentheses stand where an operand binds
looser than its operator, or equally on the right of an operator whose operands may not be swapped.
-/
namespace GridKernel

namespace BinaryOp

def precedence : BinaryOp → Nat
  | mul | div | rem => 3
  | add | sub => 2
  | lt | gt => 1
  | eq | ne => 0

def isCommutative : BinaryOp → Bool
  | add | mul | eq | ne => true
  | _ => false

def symbol : BinaryOp → String
  | add => "+"
  | sub => "-"
  | mul => "*"
  | div => "/"
  | rem => "%"
  | eq => "=="
  | ne => "!="
  | lt => "<"
  | gt => ">"

end BinaryOp

namespace Expr

/-- The operator at the root of a binary expression. -/
def op? : Expr → Option BinaryOp
  | binary op _ _ => some op
  | _ => none

/-- Whether an operand of a binary operator keeps its grouping by parentheses. -/
def needsParens (parent : BinaryOp) (operand : Expr) (onRight : Bool) : Bool :=
  match operand.op? with
  | some op =>
    op.precedence < parent.precedence ||
      (op.precedence == parent.precedence && onRight && !parent.isCommutative)
  | none => false

def grouped (parens : Bool) (text : String) : String :=
  if parens then s!"({text})" else text

mutual

def text : Expr → String
  | int n => toString n.toInt
  | float x => x.literal
  | symbol name => name
  | scalar s => s.name
  | dim d => d.name
  | size name => s!"{name}_size"
  | access a indices => a.name ++ subscripts indices
  | neg e => "-" ++ grouped e.op?.isSome e.text
  | binary op l r =>
    grouped (needsParens op l false) l.text ++ " " ++ op.symbol ++ " " ++
      grouped (needsParens op r true) r.text
termination_by structural e => e

def subscripts : List Expr → String
  | [] => ""
  | e :: es => "[" ++ e.text ++ "]" ++ subscripts es
termination_by structural es => es

end

end Expr

end GridKernel
