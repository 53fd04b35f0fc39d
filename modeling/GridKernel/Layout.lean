/-!
How a grid array is laid out: element types, storage scopes, the two sides of an axis and the
widths kept on them.
-/
namespace GridKernel

inductive ElementType where
  | int32
  | int64
  | float32
  | float64
deriving DecidableEq, Repr, Inhabited

namespace ElementType

/-- The tag of an element type in its written form. -/
def tag : ElementType → String
  | int32 => "int32"
  | int64 => "int64"
  | float32 => "float32"
  | float64 => "float64"

/-- The keyword that declares an element in a listing. -/
def keyword : ElementType → String
  | int32 => "int"
  | int64 => "long"
  | float32 => "float"
  | float64 => "double"

def all : List ElementType := [int32, int64, float32, float64]

end ElementType

/-- Where the cells of an array come from. -/
inductive Scope where
  /-- The caller allocates them and passes them in. -/
  | external
  /-- The kernel that uses them allocates them. -/
  | internal
deriving DecidableEq, Repr, Inhabited

namespace Scope

def tag : Scope → String
  | external => "external"
  | internal => "local"

def all : List Scope := [external, internal]

end Scope

/-- The widths kept before and after the domain of one axis. -/
structure Extent where
  left : UInt64
  right : UInt64
deriving DecidableEq, Repr, Inhabited

/-- No halo on either side. -/
def Extent.none : Extent := ⟨0, 0⟩

inductive Side where
  | left
  | right
deriving DecidableEq, Repr, Inhabited

namespace Side

/-- Both sides, left before right. -/
def all : List Side := [left, right]

def label : Side → String
  | left => "LEFT"
  | right => "RIGHT"

def initial : Side → String
  | left => "L"
  | right => "R"

end Side

/-- Which halo width sizes the transfer buffer of a side: the side's own, or the opposite one. -/
inductive WidthRule where
  | own
  | opposite
deriving DecidableEq, Repr, Inhabited

namespace WidthRule

def tag : WidthRule → String
  | own => "direct"
  | opposite => "swapped"

def all : List WidthRule := [own, opposite]

/-- The width that the rule selects for a side. -/
def width (rule : WidthRule) (side : Side) (halo : Extent) : UInt64 :=
  match side, rule with
  | .left, own | .right, opposite => halo.left
  | .left, opposite | .right, own => halo.right

end WidthRule

end GridKernel
