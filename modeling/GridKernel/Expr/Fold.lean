import GridKernel.Expr.Basic
import GridKernel.Word

/-!
Operators that build expressions. Integer literals are folded in checked arithmetic, neutral
literals vanish, and adding or subtracting a negative literal becomes the opposite operator on its
magnitude. Quotients and remainders are kept as written.
-/
namespace GridKernel.Expr

def add : Expr → Expr → Result Expr
  | int m, int n => int <$> Word.add m n
  | e, int n =>
    if n == 0 then .ok e
    else if n < 0 then do return binary .sub e (int (← Word.neg n))
    else .ok (binary .add e (int n))
  | int m, f => .ok (if m == 0 then f else binary .add (int m) f)
  | e, f => .ok (binary .add e f)

def sub : Expr → Expr → Result Expr
  | int m, int n => int <$> Word.sub m n
  | e, int n =>
    if n == 0 then .ok e
    else if n < 0 then do return binary .add e (int (← Word.neg n))
    else .ok (binary .sub e (int n))
  | e, f => .ok (binary .sub e f)

def mul : Expr → Expr → Result Expr
  | int m, int n => int <$> Word.mul m n
  | e, int n => .ok (if n == 1 then e else binary .mul e (int n))
  | int m, f => .ok (if m == 1 then f else binary .mul (int m) f)
  | e, f => .ok (binary .mul e f)

def div (e f : Expr) : Expr := binary .div e f

def rem (e f : Expr) : Expr := binary .rem e f

/-- The test that two expressions have equal values. -/
def equals (e f : Expr) : Expr := binary .eq e f

/-- The negation; a literal is negated itself. -/
def negate : Expr → Result Expr
  | int n => int <$> Word.neg n
  | float x => .ok (float x.neg)
  | e => .ok (neg e)

/-- Reads `d`, `d + k`, `k + d` and `d - k`, with an integer literal `k`, as an axis and a signed
offset. -/
def offset? : Expr → Result (Option (Dimension × Int64))
  | dim d => .ok (some (d, 0))
  | binary .add (dim d) (int k) => .ok (some (d, k))
  | binary .add (int k) (dim d) => .ok (some (d, k))
  | binary .sub (dim d) (int k) => do return some (d, ← Word.neg k)
  | _ => .ok none

end GridKernel.Expr
