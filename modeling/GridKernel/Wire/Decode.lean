import GridKernel.Fault
import GridKernel.Json.Printer
import GridKernel.Json.Reader
import GridKernel.Wire.Encode

/-! Reading the written forms. A reader accepts a record as an object or a list, skips fields that
it does not know, and checks nothing beyond the types. Recursive readers take fuel first: every
level of recursion opens a container, so one more than the depth is enough. -/
namespace GridKernel

namespace Wire

def decodeElement : Reader ElementType := choice ElementType.all ElementType.tag

def decodeScalar : Reader Scalar := fun depth j =>
  match record ["name", "dtype"] depth j with
  | some (depth, [name, element]) => do
    return ⟨← required text name, ← required (decodeElement depth) element⟩
  | _ => none

def decodeExtent : Reader Extent := fun depth j =>
  match record ["left", "right"] depth j with
  | some (_, [left, right]) => do return ⟨← required size left, ← required size right⟩
  | _ => none

mutual

def decodeExpr : Nat → Reader Expr
  | 0, _, _ => none
  | fuel + 1, depth, j =>
    match variant depth j with
    | some ("Int", some (_, c)) => (int c).map .int
    | some ("Float", some (_, c)) => (double c).map .float
    | some ("Symbol", some (_, c)) => (text c).map .symbol
    | some ("Scalar", some (depth, c)) => (decodeScalar depth c).map .scalar
    | some ("Dim", some (depth, c)) => (decodeDimension fuel depth c).map .dim
    | some ("Size", some (_, c)) => (text c).map .size
    | some ("Indexed", some (depth, c)) =>
      match record ["array", "indices"] depth c with
      | some (depth, [array, indices]) => do
        return .access (← required (decodeArray fuel depth) array)
          (← required (list (decodeExpr fuel) depth) indices)
      | _ => none
    | some ("Op1", some (depth, c)) =>
      match tuple 2 depth c with
      | some (depth, [op, e]) =>
        if plainVariant depth op = some "Negative" then (decodeExpr fuel depth e).map .neg else none
      | _ => none
    | some ("Op2", some (depth, c)) =>
      match tuple 3 depth c with
      | some (depth, [op, l, r]) => do
        return .binary (← choice BinaryOp.all BinaryOp.tag depth op) (← decodeExpr fuel depth l)
          (← decodeExpr fuel depth r)
      | _ => none
    | _ => none

def decodeRole : Nat → Reader AxisRole
  | 0, _, _ => none
  | fuel + 1, depth, j =>
    match variant depth j with
    | some ("Default", some (depth, c)) =>
      match record ["value"] depth c with
      | some (depth, [size]) => (required (decodeExpr fuel depth) size).map .sized
      | _ => none
    | some ("Incremented", some (depth, c)) =>
      match record ["parent", "start", "step"] depth c with
      | some (depth, [parent, start, step]) => do
        return .incremented (← required (decodeDimension fuel depth) parent)
          (← required (decodeExpr fuel depth) start) (← required (decodeExpr fuel depth) step)
      | _ => none
    | _ =>
      match plainVariant depth j with
      | some "Spatial" => some .spatial
      | some "Time" => some .time
      | _ => none

def decodeDimension : Nat → Reader Dimension
  | 0, _, _ => none
  | fuel + 1, depth, j =>
    match record ["name", "kind"] depth j with
    | some (depth, [name, role]) => do
      return ⟨← required text name, ← required (decodeRole fuel depth) role⟩
    | _ => none

def decodeArray : Nat → Reader GridArray
  | 0, _, _ => none
  | fuel + 1, depth, j =>
    match record ["name", "dtype", "dimensions", "shape", "halo", "scope"] depth j with
    | some (depth, [name, element, dims, shape, halo, scope]) => do
      return ⟨← required text name, ← required (decodeElement depth) element,
        ← required (list (decodeDimension fuel) depth) dims,
        ← required (list (decodeExpr fuel) depth) shape,
        ← required (list decodeExtent depth) halo,
        ← required (choice Scope.all Scope.tag depth) scope⟩
    | _ => none

end

def decodeEquation (fuel : Nat) : Reader Equation := fun depth j =>
  match record ["lhs", "rhs"] depth j with
  | some (depth, [lhs, rhs]) => do
    return ⟨← required (decodeExpr fuel depth) lhs, ← required (decodeExpr fuel depth) rhs⟩
  | _ => none

def decodeBounds (fuel : Nat) : Reader Bounds := fun depth j =>
  match record ["lower", "upper", "step"] depth j with
  | some (depth, [lower, upper, step]) => do
    return ⟨← required (decodeExpr fuel depth) lower, ← required (decodeExpr fuel depth) upper,
      ← required int step⟩
  | _ => none

def decodeParameter (fuel : Nat) : Reader Parameter := fun depth j =>
  match variant depth j with
  | some ("Array", some (depth, c)) => (decodeArray fuel depth c).map .array
  | some ("Scalar", some (depth, c)) => (decodeScalar depth c).map .scalar
  | _ => none

/-- Reads a kernel, given a reader of its body. -/
def decodeKernelWith (fuel : Nat) (body : Reader Stmt) : Reader Kernel := fun depth j =>
  match record ["name", "body", "retval", "parameters", "qualifiers"] depth j with
  | some (depth, [name, stmt, result, parameters, qualifiers]) => do
    let name ← required text name
    let stmt ← required (body depth) stmt
    let result? ← optional (decodeElement depth) result
    let parameters ← required (list (decodeParameter fuel) depth) parameters
    let qualifiers ← required (list (choice Qualifier.all Qualifier.tag) depth) qualifiers
    return ⟨⟨name, result?, parameters, qualifiers⟩, stmt⟩
  | _ => none

def decodeStmt : Nat → Reader Stmt
  | 0, _, _ => none
  | fuel + 1, depth, j =>
    match variant depth j with
    | some ("Expression", some (depth, c)) =>
      (decodeEquation fuel depth c).map fun e => .assign e.lhs e.rhs
    | some ("Iteration", some (depth, c)) =>
      match record ["body", "dim", "limits", "uindices", "property"] depth c with
      | some (depth, [body, dim, bounds, companions, order]) => do
        let body ← required (decodeStmt fuel depth) body
        return .loop ⟨← required (decodeDimension fuel depth) dim,
          ← required (decodeBounds fuel depth) bounds,
          ← required (list (decodeDimension fuel) depth) companions,
          ← required (choice LoopOrder.all LoopOrder.tag depth) order⟩ body
      | _ => none
    | some ("Conditional", some (depth, c)) =>
      match record ["condition", "then_body", "else_body"] depth c with
      | some (depth, [condition, thenBody, elseBody]) => do
        let c ← required (decodeExpr fuel depth) condition
        let t ← required (decodeStmt fuel depth) thenBody
        match ← optional (decodeStmt fuel depth) elseBody with
        | some e => return .ifElse c t e
        | none => return .when c t
      | _ => none
    | some ("List", some (depth, c)) => (list (decodeStmt fuel) depth c).map .block
    | some ("ArrayCast", some (depth, c)) => (decodeArray fuel depth c).map .view
    | some ("Declaration", some (depth, c)) => (decodeScalar depth c).map .declare
    | some ("Callable", some (depth, c)) =>
      (decodeKernelWith fuel (decodeStmt fuel) depth c).map Kernel.toStmt
    | _ => none

def decodeKernel (fuel : Nat) : Reader Kernel := decodeKernelWith fuel (decodeStmt fuel)

def decodeSide : Reader Side := choice Side.all Side.tag

def decodeWidthRule : Reader (Option WidthRule) := fun depth j =>
  match record ["side_mapping"] depth j with
  | some (_, [.cut]) => some none
  | some (depth, [rule]) => optional (choice WidthRule.all WidthRule.tag depth) rule
  | _ => none

def decodeSpecs : Reader March.Specs := fun depth j =>
  match record ["name", "nt", "shape", "space_border", "forward", "time_order", "halo"] depth j with
  | some (depth, [name, steps, shape, border, forward, order, halo]) => do
    return {
      name := ← required text name
      steps := ← required size steps
      shape := ← required (list (fun _ => size) depth) shape
      border := ← defaulted 0 size border
      forward := ← defaulted true flag forward
      order := ← defaulted 0 size order
      rule? := ← defaulted none (decodeWidthRule depth) halo }
  | _ => none

/-- Reads a text with the whole depth at hand. -/
def parse? {α : Type} (read : Nat → Reader α) (text : String) : Option α :=
  (Json.read? text).bind (read (depthLimit + 1) depthLimit)

end Wire

namespace March.Specs

/-- The configuration of a text. -/
def ofText (text : String) : Result Specs :=
  match Wire.parse? (fun _ => Wire.decodeSpecs) text with
  | some specs => .ok specs
  | none => refuse .badConfig

/-- The text of a configuration, one field a line. -/
def toText (s : Specs) : String := (Wire.encodeSpecs s).pretty

end March.Specs

end GridKernel
