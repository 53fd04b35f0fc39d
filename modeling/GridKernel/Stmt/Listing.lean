import GridKernel.Expr.Text
import GridKernel.Stmt.Basic

/-!
The listing of a statement, for reading. Each line is indented by two spaces for every loop, branch
and kernel around it; bodies stand between lines of one brace.
-/
namespace GridKernel

def Parameter.text : Parameter → String
  | .array a => s!"{a.element.keyword} *restrict {a.name}_vec"
  | .scalar s => s!"const {s.element.keyword} {s.name}"

namespace GridArray

/-- The view of a raw buffer; every axis but the first is part of the element type. -/
def viewText (a : GridArray) : Result String := do
  let extents ← ((List.range a.rank).drop 1).mapM a.allocated
  let trailing := Expr.subscripts extents
  let type := a.element.keyword
  return s!"{type} (*restrict {a.name}){trailing} = ({type} (*){trailing}) {a.name}_vec;"

end GridArray

namespace Signature

def text (s : Signature) : String :=
  let qualifiers := String.join (s.qualifiers.map (·.tag ++ " "))
  let result := (s.result?.map ElementType.keyword).getD "void"
  let parameters := ", ".intercalate (s.parameters.map Parameter.text)
  s!"{qualifiers}{result} {s.name}({parameters})"

end Signature

namespace Dimension

/-- How a companion index starts in a loop's head. -/
def startText (d : Dimension) : String :=
  match d.role with
  | .incremented _ start _ => s!", {d.name} = {start.text}"
  | _ => s!", {d.name} = 0"

/-- How a companion index advances in a loop's head. -/
def stepText (d : Dimension) : String :=
  match d.role with
  | .incremented _ _ step => s!", {d.name} += {step.text}"
  | _ => s!", {d.name} += 1"

end Dimension

def LoopHead.text (h : LoopHead) : String :=
  let d := h.dim.name
  let starts := String.join (h.companions.map Dimension.startText)
  let steps := String.join (h.companions.map Dimension.stepText)
  let test := if h.bounds.step < 0 then ">" else "<"
  s!"for (int {d} = {h.bounds.lower.text}{starts}; {d} {test} {h.bounds.upper.text}; " ++
    s!"{d} += {h.bounds.step.toInt}{steps})"

namespace Stmt

/-- A line of a listing with its indentation level. -/
structure Line where
  depth : Nat
  text : String
deriving DecidableEq, Repr, Inhabited

def Line.render (l : Line) : String :=
  String.ofList (List.replicate (2 * l.depth) ' ') ++ l.text ++ "\n"

/-- A head over a body in braces. -/
def braced (depth : Nat) (head : String) (body : List Line) : List Line :=
  ⟨depth, head⟩ :: ⟨depth, "\x7b"⟩ :: (body ++ [⟨depth, "\x7d"⟩])

mutual

def lines (depth : Nat) : Stmt → Result (List Line)
  | assign target value => .ok [⟨depth, s!"{target.text} = {value.text};"⟩]
  | declare s => .ok [⟨depth, s!"{s.element.keyword} {s.name};"⟩]
  | view a => do return [⟨depth, ← a.viewText⟩]
  | block body => linesAll depth body
  | loop h body => do return braced depth h.text (← body.lines (depth + 1))
  | when c body => do return braced depth s!"if ({c.text})" (← body.lines (depth + 1))
  | ifElse c t e => do
    return braced depth s!"if ({c.text})" (← t.lines (depth + 1)) ++
      braced depth "else" (← e.lines (depth + 1))
  | kernel s body => do return braced depth s.text (← body.lines (depth + 1))
termination_by structural s => s

def linesAll (depth : Nat) : List Stmt → Result (List Line)
  | [] => .ok []
  | s :: ss => do return (← s.lines depth) ++ (← linesAll depth ss)
termination_by structural ss => ss

end

/-- The listing as one text, every line ended by a line feed. -/
def listing (s : Stmt) : Result String := do
  return String.join ((← s.lines 0).map Line.render)

end Stmt

end GridKernel
