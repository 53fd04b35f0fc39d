import GridKernel.Expr.Text
import GridKernel.Proofs.Tokens

/-! Reading of tokens as expressions of C. What waits for an operand stands on a stack. A minus sign
in front of an operand takes the operand alone; a binary operator first takes the pending operators
that bind at least as tightly, so that equal ones group to the left. -/
namespace GridKernel.Source

/-- An expression as it is read. A name without subscripts is a variable, one with subscripts an
element of an array. -/
inductive Tree where
  | number (q : ℚ)
  | named (name : String) (indices : List Tree)
  | neg (operand : Tree)
  | binary (op : BinaryOp) (left right : Tree)

/-- The operator that a mark between two operands stands for. -/
def operator? : String → Option BinaryOp
  | "+" => some .add
  | "-" => some .sub
  | "*" => some .mul
  | "/" => some .div
  | "%" => some .rem
  | "==" => some .eq
  | "!=" => some .ne
  | "<" => some .lt
  | ">" => some .gt
  | _ => none

/-- How tightly an operator binds. -/
def level : BinaryOp → Nat
  | .eq | .ne => 0
  | .lt | .gt => 1
  | .add | .sub => 2
  | .mul | .div | .rem => 3

/-- What waits for the operand that is being read. -/
inductive Frame where
  | minus
  | left (operand : Tree) (op : BinaryOp)
  | parenthesis
  | subscript (name : String) (indices : List Tree)

/-- Before an operand, or after one. -/
inductive State where
  | wanting (frames : List Frame)
  | holding (t : Tree) (frames : List Frame)

/-- Gives an operand to the minus signs and to the operators of a level or above that wait for it,
innermost first. -/
def complete (p : Nat) : Tree → List Frame → Tree × List Frame
  | t, .minus :: frames => complete p (.neg t) frames
  | t, .left l op :: frames =>
    if p ≤ level op then complete p (.binary op l t) frames else (t, .left l op :: frames)
  | t, frames => (t, frames)

def stepWanting (frames : List Frame) : Token → Option State
  | .number q => some (.holding (.number q) frames)
  | .name s => some (.holding (.named s []) frames)
  | .mark "-" => some (.wanting (.minus :: frames))
  | .mark "(" => some (.wanting (.parenthesis :: frames))
  | .mark _ => none

def stepHolding (t : Tree) (frames : List Frame) : Token → Option State
  | .mark ")" =>
    match complete 0 t frames with
    | (t, .parenthesis :: frames) => some (.holding t frames)
    | _ => none
  | .mark "[" =>
    match t with
    | .named s indices => some (.wanting (.subscript s indices :: frames))
    | _ => none
  | .mark "]" =>
    match complete 0 t frames with
    | (t, .subscript s indices :: frames) => some (.holding (.named s (indices ++ [t])) frames)
    | _ => none
  | .mark m =>
    (operator? m).map fun op =>
      let (t, frames) := complete (level op) t frames
      .wanting (.left t op :: frames)
  | _ => none

def step : State → Token → Option State
  | .wanting frames => stepWanting frames
  | .holding t frames => stepHolding t frames

def run (state : State) (ts : List Token) : Option State := ts.foldlM step state

/-- The expression that has been read when the tokens end. -/
def finish : State → Option Tree
  | .holding t frames =>
    match complete 0 t frames with
    | (t, []) => some t
    | _ => none
  | .wanting _ => none

/-- The expression that a text reads as, if it is one. -/
def read? (text : String) : Option Tree :=
  ((lex text.toList).bind (run (.wanting []))).bind finish

example : read? "-a[1] * b - 2 - c < 3" =
    some (.binary .lt (.binary .sub (.binary .sub
      (.binary .mul (.neg (.named "a" [.number 1])) (.named "b" [])) (.number 2))
      (.named "c" [])) (.number 3)) := by cbv

@[simp] theorem run_nil (state : State) : run state [] = some state := rfl

theorem run_cons (state : State) (t : Token) (ts : List Token) :
    run state (t :: ts) = (step state t).bind (run · ts) :=
  List.foldlM_cons

theorem run_append (state : State) (ts us : List Token) :
    run state (ts ++ us) = (run state ts).bind (run · us) :=
  List.foldlM_append

/-- No expression has a decrement. -/
theorem step_decrement (state : State) : step state (.mark "--") = none := by
  cases state <;> rfl

theorem run_of_decrement {state : State} {ts : List Token} (h : .mark "--" ∈ ts) :
    run state ts = none := by
  induction ts generalizing state with
  | nil => cases h
  | cons t ts ih =>
    rw [run_cons]
    rcases List.mem_cons.1 h with rfl | h
    · rw [step_decrement]
      rfl
    · cases step state t with
      | none => rfl
      | some state' => exact ih h

theorem step_operator (t : Tree) (frames : List Frame) (op : BinaryOp) :
    step (.holding t frames) (.mark op.symbol) =
      some (.wanting (.left (complete (level op) t frames).1 op ::
        (complete (level op) t frames).2)) := by
  cases op <;> rfl

/-- A state that holds an operand, up to what the operators of a level or below still take from the
stack. -/
def Settles (state : Option State) (p : Nat) (t : Tree) (frames : List Frame) : Prop :=
  ∃ t' frames', state = some (.holding t' frames') ∧
    ∀ q ≤ p, complete q t' frames' = complete q t frames

theorem settles_holding (p : Nat) (t : Tree) (frames : List Frame) :
    Settles (some (.holding t frames)) p t frames :=
  ⟨t, frames, rfl, fun _ _ => rfl⟩

theorem Settles.mono {state : Option State} {p q : Nat} {t : Tree} {frames : List Frame}
    (h : Settles state p t frames) (hle : q ≤ p) : Settles state q t frames := by
  obtain ⟨t', frames', hstate, hcomplete⟩ := h
  exact ⟨t', frames', hstate, fun r hr => hcomplete r (hr.trans hle)⟩

/-- Nothing at the top of the stack binds as tightly as a level. -/
def Below (p : Nat) : List Frame → Prop
  | .minus :: _ => False
  | .left _ op :: _ => level op < p
  | _ => True

theorem Below.mono {p q : Nat} {frames : List Frame} (h : Below p frames) (hle : p ≤ q) :
    Below q frames := by
  cases frames with
  | nil => trivial
  | cons frame frames =>
    cases frame with
    | minus => exact h.elim
    | left t op => exact Nat.lt_of_lt_of_le h hle
    | parenthesis => trivial
    | subscript s indices => trivial

theorem complete_of_below {p : Nat} {frames : List Frame} (h : Below p frames) (t : Tree) :
    complete p t frames = (t, frames) := by
  cases frames with
  | nil => rfl
  | cons frame frames =>
    cases frame with
    | minus => exact h.elim
    | left t op => exact if_neg (not_le.2 h)
    | parenthesis => rfl
    | subscript s indices => rfl

section Stack
variable {state : State} {ts : List Token} {p : Nat} {t : Tree} {frames : List Frame}

theorem Settles.operator (h : Settles (run state ts) p t frames) {op : BinaryOp} (hp : level op ≤ p)
    (hbelow : Below (level op) frames) :
    run state (ts ++ [.mark op.symbol]) = some (.wanting (.left t op :: frames)) := by
  obtain ⟨t', frames', hstate, hcomplete⟩ := h
  rw [run_append, hstate, Option.bind_some, run_cons, step_operator, hcomplete _ hp,
    complete_of_below hbelow]
  rfl

theorem Settles.parenthesized
    (h : Settles (run (.wanting (.parenthesis :: frames)) ts) p t (.parenthesis :: frames)) :
    run (.wanting frames) (.mark "(" :: (ts ++ [.mark ")"])) = some (.holding t frames) := by
  obtain ⟨t', frames', hstate, hcomplete⟩ := h
  have hzero : complete 0 t' frames' = (t, .parenthesis :: frames) := hcomplete 0 (Nat.zero_le p)
  rw [run_cons]
  show run (.wanting (.parenthesis :: frames)) (ts ++ [.mark ")"]) = _
  rw [run_append, hstate, Option.bind_some, run_cons]
  show (stepHolding t' frames' (.mark ")")).bind _ = _
  simp [stepHolding, hzero]

theorem Settles.subscript {s : String} {indices : List Tree}
    (h : Settles (run (.wanting (.subscript s indices :: frames)) ts) p t
      (.subscript s indices :: frames)) :
    run (.holding (.named s indices) frames) (.mark "[" :: (ts ++ [.mark "]"])) =
      some (.holding (.named s (indices ++ [t])) frames) := by
  obtain ⟨t', frames', hstate, hcomplete⟩ := h
  have hzero : complete 0 t' frames' = (t, .subscript s indices :: frames) :=
    hcomplete 0 (Nat.zero_le p)
  rw [run_cons]
  show run (.wanting (.subscript s indices :: frames)) (ts ++ [.mark "]"]) = _
  rw [run_append, hstate, Option.bind_some, run_cons]
  show (stepHolding t' frames' (.mark "]")).bind _ = _
  simp [stepHolding, hzero]

theorem Settles.finish {state : Option State} (h : Settles state p t []) :
    state.bind finish = some t := by
  obtain ⟨t', frames', hstate, hcomplete⟩ := h
  have hzero : complete 0 t' frames' = (t, []) := hcomplete 0 (Nat.zero_le p)
  rw [hstate, Option.bind_some]
  simp [Source.finish, hzero]

end Stack

end GridKernel.Source
