import GridKernel.Json.Basic

/-!
Printing JSON values: `compact` without blanks, and `pretty` with one item or field a line, indented
by two spaces a level. Quotes, backslashes and control characters are escaped, all else is raw.
-/
namespace GridKernel.Json

/-- The two hexadecimal digits of a number below 256. -/
def hexText (n : Nat) : String :=
  String.ofList [Nat.digitChar (n / 16), Nat.digitChar (n % 16)]

def escape (c : Char) : String :=
  match c with
  | '"' => "\\\""
  | '\\' => "\\\\"
  | '\x08' => "\\b"
  | '\x0c' => "\\f"
  | '\n' => "\\n"
  | '\r' => "\\r"
  | '\t' => "\\t"
  | c => if c < ' ' then "\\u00" ++ hexText c.toNat else c.toString

def quote (s : String) : String :=
  s.toList.foldl (fun text c => text ++ escape c) "\"" ++ "\""

mutual

def compact : Json → String
  | null => "null"
  | bool b => if b then "true" else "false"
  | number n => n.text
  | string text? => quote (text?.getD "")
  | array items => "[" ++ compactItems true items ++ "]"
  | object fields => "\x7b" ++ compactFields true fields ++ "\x7d"
termination_by structural j => j

def compactItems (first : Bool) : List Json → String
  | [] => ""
  | j :: js => (if first then "" else ",") ++ j.compact ++ compactItems false js
termination_by structural js => js

def compactFields (first : Bool) : List (Option String × Json) → String
  | [] => ""
  | f :: fs => (if first then "" else ",") ++ compactField f ++ compactFields false fs
termination_by structural fs => fs

def compactField : Option String × Json → String
  | (key, value) => quote (key.getD "") ++ ":" ++ value.compact
termination_by structural f => f

end

def newLine (depth : Nat) : String :=
  "\n" ++ String.ofList (List.replicate (2 * depth) ' ')

mutual

def prettyAt (depth : Nat) : Json → String
  | array [] => "[]"
  | array items => "[" ++ prettyItems true (depth + 1) items ++ newLine depth ++ "]"
  | object [] => "\x7b\x7d"
  | object fields => "\x7b" ++ prettyFields true (depth + 1) fields ++ newLine depth ++ "\x7d"
  | null => "null"
  | bool b => if b then "true" else "false"
  | number n => n.text
  | string text? => quote (text?.getD "")
termination_by structural j => j

def prettyItems (first : Bool) (depth : Nat) : List Json → String
  | [] => ""
  | j :: js =>
    (if first then "" else ",") ++ newLine depth ++ prettyAt depth j ++ prettyItems false depth js
termination_by structural js => js

def prettyFields (first : Bool) (depth : Nat) : List (Option String × Json) → String
  | [] => ""
  | f :: fs =>
    (if first then "" else ",") ++ newLine depth ++ prettyField depth f ++
      prettyFields false depth fs
termination_by structural fs => fs

def prettyField (depth : Nat) : Option String × Json → String
  | (key, value) => quote (key.getD "") ++ ": " ++ prettyAt depth value
termination_by structural f => f

end

def pretty (j : Json) : String := prettyAt 0 j

end GridKernel.Json
