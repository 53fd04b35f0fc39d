import GridKernel.Json.Basic

/-! Shapes of written values. A record is an object of its fields or a list of them in order; a
variant is a tag, or an object that gives the tag its content. Readers take the number of containers
that may still be opened; fields that no record declares are skipped and cost nothing. -/
namespace GridKernel.Wire

/-- Reads a value, given how many containers may still be opened. -/
abbrev Reader (α : Type) := Nat → Json → Option α

/-- The most containers that may be open at once. -/
def depthLimit : Nat := 127

/-- What a record says of one of its fields. -/
inductive Field where
  | given (value : Json)
  /-- An object without the field. -/
  | omitted
  /-- A list that ends before the field. -/
  | cut
deriving Inhabited

/-- The value of a field of an object; a second one is refused. -/
def lookup? (name : String) (fields : List (Option String × Json)) : Option Field :=
  match fields.filter fun (key, _) => key == some name with
  | [] => some .omitted
  | [(_, value)] => some (.given value)
  | _ => none

/-- The fields of a record with the depth left inside it. -/
def record (names : List String) : Reader (Nat × List Field)
  | depth + 1, .object fields =>
    if fields.all fun (key, _) => key.isSome then
      (names.mapM fun name => lookup? name fields).map fun found => (depth, found)
    else none
  | depth + 1, .array items =>
    if items.length ≤ names.length then
      some (depth, items.map .given ++ List.replicate (names.length - items.length) .cut)
    else none
  | _, _ => none

/-- A field that has to be given. -/
def required {α : Type} (read : Json → Option α) : Field → Option α
  | .given value => read value
  | _ => none

/-- A field that an object may omit. -/
def optional {α : Type} (read : Json → Option α) : Field → Option (Option α)
  | .given .null => some none
  | .given value => (read value).map some
  | .omitted => some none
  | .cut => none

/-- A field with a default. -/
def defaulted {α : Type} (value : α) (read : Json → Option α) : Field → Option α
  | .given value => read value
  | _ => some value

/-- A tag, with its content and the depth left inside it when it is written as an object. -/
def variant : Reader (String × Option (Nat × Json))
  | _, .string (some tag) => some (tag, none)
  | depth + 1, .object [(some tag, content)] => some (tag, some (depth, content))
  | _, _ => none

/-- Reads a variant without content: a tag alone, or a tag with null. -/
def plainVariant : Reader String := fun depth j =>
  match variant depth j with
  | some (tag, none) => some tag
  | some (tag, some (_, .null)) => some tag
  | _ => none

/-- The choice of a list whose tag is written. -/
def choice {α : Type} (choices : List α) (tag : α → String) : Reader α := fun depth j =>
  (plainVariant depth j).bind fun written => choices.find? (tag · == written)

def list {α : Type} (read : Reader α) : Reader (List α)
  | depth + 1, .array items => items.mapM (read depth)
  | _, _ => none

/-- The items of a list of fixed length. -/
def tuple (length : Nat) : Reader (Nat × List Json)
  | depth + 1, .array items => if items.length = length then some (depth, items) else none
  | _, _ => none

def text : Json → Option String
  | .string text? => text?
  | _ => none

def flag : Json → Option Bool
  | .bool b => some b
  | _ => none

/-- A signed word written as an integer. -/
def int : Json → Option Int64
  | .number n => n.int?.bind fun v =>
    if -2 ^ 63 ≤ v ∧ v < 2 ^ 63 then some (Int64.ofInt v) else none
  | _ => none

/-- An unsigned word written as an integer. -/
def size : Json → Option UInt64
  | .number n => n.int?.bind fun v =>
    if 0 ≤ v ∧ v < 2 ^ 64 then some (UInt64.ofNat v.toNat) else none
  | _ => none

def double : Json → Option Binary64
  | .number n => n.double?
  | _ => none

/-- Writes an absent value as null. -/
def orNull {α : Type} (write : α → Json) : Option α → Json
  | some x => write x
  | none => .null

/-- Writes a tag with its content. -/
def tagged (tag : String) (content : Json) : Json := .obj [(tag, content)]

end GridKernel.Wire
