import Lox.Machine

/-!
# Operators

What the operators make of evaluated operands. Sums are of numbers or of strings; the other
arithmetic operators and the comparisons take numbers only.
-/

namespace Lox

/-- The value of two numbers under an operator that takes numbers only. -/
def BinaryOp.onNumbers (f : Float → Float → Value) : Value → Value → Except RuntimeCause Value
  | .number a, .number b => .ok (f a b)
  | _, _ => .error .operandsNotNumbers

/-- The value of two operands under an operator. -/
def BinaryOp.apply : BinaryOp → Value → Value → Except RuntimeCause Value
  | add, .number a, .number b => .ok (.number (a + b))
  | add, .string a, .string b => .ok (.string (a ++ b))
  | add, _, _ => .error .operandsNotAddable
  | subtract, a, b => onNumbers (fun a b => .number (a - b)) a b
  | multiply, a, b => onNumbers (fun a b => .number (a * b)) a b
  | divide, a, b => onNumbers (fun a b => .number (a / b)) a b
  | greater, a, b => onNumbers (fun a b => .bool (a > b)) a b
  | greaterEqual, a, b => onNumbers (fun a b => .bool (a ≥ b)) a b
  | less, a, b => onNumbers (fun a b => .bool (a < b)) a b
  | lessEqual, a, b => onNumbers (fun a b => .bool (a ≤ b)) a b
  | equal, a, b => .ok (.bool (a.equals b))
  | unequal, a, b => .ok (.bool (!a.equals b))

/-- The value of one operand under an operator. -/
def UnaryOp.apply : UnaryOp → Value → Except RuntimeCause Value
  | not, v => .ok (.bool (!v.isTruthy))
  | negate, .number x => .ok (.number (-x))
  | negate, _ => .error .operandNotNumber

/-- Does the first operand decide the result? -/
def LogicalOp.decides : LogicalOp → Value → Bool
  | or, v => v.isTruthy
  | and, v => !v.isTruthy

end Lox
