import GridKernel.Stmt.Parameters

/-! Entry points: the arrays, scalars and local scalars registered for a kernel, and its body. Names
are unique across the three lists. The kernel built from an entry point may use registered entities
only. -/
namespace GridKernel

structure EntryPoint where
  name : String
  arrays : List GridArray
  scalars : List Scalar
  locals : List Scalar
  body? : Option Stmt
deriving Inhabited

namespace EntryPoint

def empty (name : String) : EntryPoint := ⟨name, [], [], [], none⟩

def registeredNames (e : EntryPoint) : List String :=
  e.arrays.map GridArray.name ++ e.scalars.map Scalar.name ++ e.locals.map Scalar.name

/-- Refuses a name that is registered already. -/
def claim (e : EntryPoint) (name : String) : Result Unit :=
  if name ∈ e.registeredNames then refuse (.alreadyRegistered name e.name) else .ok ()

def addArray (e : EntryPoint) (a : GridArray) : Result EntryPoint := do
  e.claim a.name
  return { e with arrays := e.arrays ++ [a] }

def addScalar (e : EntryPoint) (s : Scalar) : Result EntryPoint := do
  e.claim s.name
  return { e with scalars := e.scalars ++ [s] }

def addLocal (e : EntryPoint) (s : Scalar) : Result EntryPoint := do
  e.claim s.name
  return { e with locals := e.locals ++ [s] }

def withBody (e : EntryPoint) (body : Stmt) : EntryPoint := { e with body? := some body }

/-- The signature's parameters: arrays, then scalars, in the order of registration. -/
def parameters (e : EntryPoint) : List Parameter :=
  e.arrays.map .array ++ e.scalars.map .scalar

/-- The kernel's statements: local declarations, a view of every array, the body. -/
def statements (e : EntryPoint) (body : Stmt) : Stmt :=
  .block (e.locals.map .declare ++ e.arrays.map .view ++ [body])

def toKernel (e : EntryPoint) : Result Kernel :=
  match e.body? with
  | none => refuse (.noBody e.name)
  | some body => do
    let body := e.statements body
    let used ← body.parameters
    match used.find? fun p => !e.parameters.any p.same with
    | some p => refuse (.unregistered p.name e.name)
    | none => return ⟨⟨e.name, none, e.parameters, []⟩, body⟩

end EntryPoint

end GridKernel
