import GridKernel.March.Basic
import GridKernel.Wire.Shape

/-!
The written form of expressions, axes, arrays, statements and configurations: records are objects of
their fields in order, variants are tagged with their content.
-/
namespace GridKernel

def BinaryOp.tag : BinaryOp → String
  | add => "Add"
  | sub => "Sub"
  | mul => "Mul"
  | div => "Div"
  | rem => "Mod"
  | eq => "Eq"
  | ne => "Neq"
  | lt => "Lt"
  | gt => "Gt"

def BinaryOp.all : List BinaryOp := [.add, .sub, .mul, .div, .rem, .eq, .ne, .lt, .gt]

def Side.tag : Side → String
  | left => "Left"
  | right => "Right"

namespace Wire

def encodeScalar (s : Scalar) : Json :=
  .obj [("name", .str s.name), ("dtype", .str s.element.tag)]

def encodeExtent (e : Extent) : Json :=
  .obj [("left", .nat e.left.toNat), ("right", .nat e.right.toNat)]

mutual

def encodeExpr : Expr → Json
  | .int n => tagged "Int" (.int n.toInt)
  | .float x => tagged "Float" (.double x)
  | .symbol name => tagged "Symbol" (.str name)
  | .scalar s => tagged "Scalar" (encodeScalar s)
  | .dim d => tagged "Dim" (encodeDimension d)
  | .size name => tagged "Size" (.str name)
  | .access a indices =>
    tagged "Indexed" (.obj [("array", encodeArray a), ("indices", .array (encodeExprs indices))])
  | .neg e => tagged "Op1" (.array [.str "Negative", encodeExpr e])
  | .binary op l r => tagged "Op2" (.array [.str op.tag, encodeExpr l, encodeExpr r])
termination_by structural e => e

def encodeExprs : List Expr → List Json
  | [] => []
  | e :: es => encodeExpr e :: encodeExprs es
termination_by structural es => es

def encodeRole : AxisRole → Json
  | .sized size => tagged "Default" (.obj [("value", encodeExpr size)])
  | .incremented parent start step =>
    tagged "Incremented" (.obj [("parent", encodeDimension parent), ("start", encodeExpr start),
      ("step", encodeExpr step)])
  | .spatial => .str "Spatial"
  | .time => .str "Time"
termination_by structural k => k

def encodeDimension : Dimension → Json
  | ⟨name, role⟩ => .obj [("name", .str name), ("kind", encodeRole role)]
termination_by structural d => d

def encodeDimensions : List Dimension → List Json
  | [] => []
  | d :: ds => encodeDimension d :: encodeDimensions ds
termination_by structural ds => ds

def encodeArray : GridArray → Json
  | ⟨name, element, dims, shape, halo, scope⟩ =>
    .obj [("name", .str name), ("dtype", .str element.tag),
      ("dimensions", .array (encodeDimensions dims)), ("shape", .array (encodeExprs shape)),
      ("halo", .array (halo.map encodeExtent)), ("scope", .str scope.tag)]
termination_by structural a => a

end

def encodeEquation (e : Equation) : Json :=
  .obj [("lhs", encodeExpr e.lhs), ("rhs", encodeExpr e.rhs)]

def encodeBounds (b : Bounds) : Json :=
  .obj [("lower", encodeExpr b.lower), ("upper", encodeExpr b.upper), ("step", .int b.step.toInt)]

def encodeParameter : Parameter → Json
  | .array a => tagged "Array" (encodeArray a)
  | .scalar s => tagged "Scalar" (encodeScalar s)

def encodeSignature (s : Signature) (body : Json) : Json :=
  .obj [("name", .str s.name), ("body", body),
    ("retval", orNull (fun t => .str t.tag) s.result?),
    ("parameters", .array (s.parameters.map encodeParameter)),
    ("qualifiers", .array (s.qualifiers.map fun q => .str q.tag))]

mutual

def encodeStmt : Stmt → Json
  | .assign target value => tagged "Expression" (encodeEquation ⟨target, value⟩)
  | .loop h body =>
    tagged "Iteration" (.obj [("body", encodeStmt body), ("dim", encodeDimension h.dim),
      ("limits", encodeBounds h.bounds), ("uindices", .array (encodeDimensions h.companions)),
      ("property", .str h.order.tag)])
  | .when c body =>
    tagged "Conditional" (.obj [("condition", encodeExpr c), ("then_body", encodeStmt body),
      ("else_body", .null)])
  | .ifElse c t e =>
    tagged "Conditional" (.obj [("condition", encodeExpr c), ("then_body", encodeStmt t),
      ("else_body", encodeStmt e)])
  | .block body => tagged "List" (.array (encodeStmts body))
  | .view a => tagged "ArrayCast" (encodeArray a)
  | .declare s => tagged "Declaration" (encodeScalar s)
  | .kernel s body => tagged "Callable" (encodeSignature s (encodeStmt body))
termination_by structural s => s

def encodeStmts : List Stmt → List Json
  | [] => []
  | s :: ss => encodeStmt s :: encodeStmts ss
termination_by structural ss => ss

end

def encodeKernel (k : Kernel) : Json := encodeSignature k.signature (encodeStmt k.body)

def encodeWidthRule (rule? : Option WidthRule) : Json :=
  .obj [("side_mapping", orNull (fun r => .str r.tag) rule?)]

def encodeSpecs (s : March.Specs) : Json :=
  .obj [("name", .str s.name), ("nt", .nat s.steps.toNat),
    ("shape", .array (s.shape.map fun n => .nat n.toNat)), ("space_border", .nat s.border.toNat),
    ("forward", .bool s.forward), ("time_order", .nat s.order.toNat),
    ("halo", encodeWidthRule s.rule?)]

end Wire

end GridKernel
