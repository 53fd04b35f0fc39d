import GridKernel.Fault

/-!
Names of dimensions, arrays, scalars and kernels. An identifier is an ASCII letter or underscore
followed by ASCII letters, digits and underscores. `fresh` numbers a name until it is free.
-/
namespace GridKernel.Identifier

def isStart (c : Char) : Bool := c.isAlpha || c == '_'

def isPart (c : Char) : Bool := c.isAlphanum || c == '_'

def isValid (name : String) : Bool :=
  match name.toList with
  | [] => false
  | c :: cs => isStart c && cs.all isPart

/-- The name itself, when it is an identifier. -/
def check (name : String) : Result String :=
  if isValid name then .ok name else refuse (.badIdentifier name)

/-- The name with a number appended. -/
def numbered (base : String) (n : Nat) : String := s!"{base}_{n}"

/-- The base if it is free, else the numbered name of least number that is free. The search ends
among the first `taken.length + 1` numbers, since numbered names differ. -/
def fresh (base : String) (taken : List String) : String :=
  if base ∈ taken then
    numbered base (((List.range (taken.length + 1)).find? (numbered base · ∉ taken)).getD
      (taken.length + 1))
  else base

/-- Draws a fresh name and marks it as taken. -/
def draw (base : String) : StateM (List String) String := fun taken =>
  let name := fresh base taken
  (name, name :: taken)

theorem isValid_of_check {name n : String} (h : check name = .ok n) : isValid name ∧ n = name := by
  unfold check at h
  split at h
  · rename_i hv
    injection h with h
    exact ⟨hv, h.symm⟩
  · cases h

end GridKernel.Identifier
