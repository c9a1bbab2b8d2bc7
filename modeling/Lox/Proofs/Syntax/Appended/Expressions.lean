import Lox.Syntax.Grammar
import Lox.Proofs.Syntax.Appended.Steps

/-!
# Reading the same expressions before other tokens

The rules for expressions read the same expressions from the same tokens before others
(`carriesExpressions`). They ask what comes after an expression, so they are not safe.
-/

namespace Lox.Rule

variable {J : Joint}

theorem carries_assignTo {safe : Prop} (target value : Expr) (rest rest' : List Token) :
    Carries J safe False (Expr.relabel J.labels) (assignTo target value rest)
      (assignTo (target.relabel J.labels) (value.relabel J.labels) rest') := by
  cases target with
  | «variable» _ _ => exact carries_freshId fun _ => carries_pure rfl
  | get _ _ => exact carries_pure rfl
  | _ => exact carries_failAt

theorem node_relabel (R : Relabelling) (op : Connective) (mark : Lexeme) (left right : Expr) :
    (op.node mark left right).relabel R =
      op.node (mark.relabel R) (left.relabel R) (right.relabel R) := by
  cases op <;> rfl

/-- What the rules for expressions read at the depth `n`, they read before other tokens at every
greater depth. -/
structure CarriesExpressions (J : Joint) (n : Nat) : Prop where
  expression {n' : Nat} (deep : n ≤ n') :
    Carries J False True (Expr.relabel J.labels) (expression n) (expression n')
  operators {n' : Nat} (deep : n ≤ n') (level : Level) :
    Carries J False True (Expr.relabel J.labels) (operators n level) (operators n' level)
  operatorsFrom {n' : Nat} (deep : n ≤ n') (level : Level) (left : Expr) :
    Carries J False False (Expr.relabel J.labels) (operatorsFrom n level left)
      (operatorsFrom n' level (left.relabel J.labels))
  operand {n' : Nat} (deep : n ≤ n') (level : Level) :
    Carries J False True (Expr.relabel J.labels) (operand n level) (operand n' level)
  unary {n' : Nat} (deep : n ≤ n') :
    Carries J False True (Expr.relabel J.labels) (unary n) (unary n')
  call {n' : Nat} (deep : n ≤ n') : Carries J False True (Expr.relabel J.labels) (call n) (call n')
  callFrom {n' : Nat} (deep : n ≤ n') (e : Expr) :
    Carries J False False (Expr.relabel J.labels) (callFrom n e) (callFrom n' (e.relabel J.labels))
  arguments {n' : Nat} (deep : n ≤ n') (count : Nat) :
    Carries J False True (Expr.relabelList J.labels) (arguments n count) (arguments n' count)
  primary {n' : Nat} (deep : n ≤ n') :
    Carries J False True (Expr.relabel J.labels) (primary n) (primary n')

section
variable {n n' : Nat} (ih : CarriesExpressions J n) (deep : n ≤ n')
include ih deep

theorem carries_expression :
    Carries J False True (Expr.relabel J.labels) (expression (n + 1)) (expression (n' + 1)) := by
  refine (ih.operators deep .or).unsafeBind fun target => ?_
  refine carries_position fun rest rest' => ?_
  refine carries_maybeSymbol? (fun _ => ?_) (carries_pure rfl)
  refine (ih.expression deep).unsafeBind fun value => ?_
  exact carries_assignTo target value rest rest'

theorem carries_operatorsFrom (level : Level) (left : Expr) :
    Carries J False False (Expr.relabel J.labels) (operatorsFrom (n + 1) level left)
      (operatorsFrom (n' + 1) level (left.relabel J.labels)) := by
  refine carries_maybe? (fun op mark => ?_) (carries_pure rfl)
  refine (ih.operand deep level).unsafeBind fun right => ?_
  rw [← node_relabel]
  exact ih.operatorsFrom deep level _

theorem carries_operand (level : Level) :
    Carries J False True (Expr.relabel J.labels) (operand (n + 1) level)
      (operand (n' + 1) level) := by
  unfold operand
  cases level.tighter? with
  | some tighter => exact ih.operators deep tighter
  | none => exact ih.unary deep

theorem carries_callFrom (e : Expr) :
    Carries J False False (Expr.relabel J.labels) (callFrom (n + 1) e)
      (callFrom (n' + 1) (e.relabel J.labels)) := by
  refine carries_maybeSymbol? (fun _ => ?_) ?_
  · refine carries_symbol? (fun paren => ih.callFrom deep (.call e paren [])) ?_
    refine (ih.arguments deep 0).unsafeBind fun arguments => ?_
    refine (carries_expect .argumentsEnd).bind fun paren => ?_
    exact ih.callFrom deep (.call e paren arguments)
  · refine carries_maybeSymbol? (fun _ => ?_) (carries_pure rfl)
    exact (carries_name .property).bind fun property => ih.callFrom deep (.get e property)

theorem carries_arguments (count : Nat) :
    Carries J False True (Expr.relabelList J.labels) (arguments (n + 1) count)
      (arguments (n' + 1) count) := by
  unfold arguments
  split
  · exact carries_fail
  · refine (ih.expression deep).unsafeBind fun e => ?_
    refine carries_maybeSymbol? (fun _ => ?_) (carries_pure rfl)
    exact (ih.arguments deep (count + 1)).unsafeBind fun es => carries_pure rfl

theorem carries_primary :
    Carries J False True (Expr.relabel J.labels) (primary (n + 1)) (primary (n' + 1)) := by
  refine carries_accept? (fun atom l => ?_) carries_fail
  cases atom with
  | literal value => exact carries_pure rfl
  | this => exact carries_freshId fun _ => carries_pure rfl
  | «variable» => exact carries_freshId fun _ => carries_pure rfl
  | super =>
    refine (carries_expect .superDot).bind fun _ => ?_
    refine (carries_name .superMethod).bind fun method => ?_
    exact carries_freshId fun _ => carries_pure rfl
  | group =>
    refine (ih.expression deep).unsafeBind fun inner => ?_
    exact (carries_expect .groupEnd).bind fun _ => carries_pure rfl

end

theorem carriesExpressions (J : Joint) (n : Nat) : CarriesExpressions J n := by
  induction n with
  | zero => constructor <;> intros <;> exact carries_fail
  | succ n ih =>
    constructor
    all_goals
      intro n' deeper
      obtain ⟨m, rfl, deep⟩ := deeper_of_succ_le deeper
    case expression => exact carries_expression ih deep
    case operators =>
      intro level
      exact (ih.operand deep level).unsafeBind fun left => ih.operatorsFrom deep level left
    case operatorsFrom => exact carries_operatorsFrom ih deep
    case operand => exact carries_operand ih deep
    case unary =>
      refine carries_accept? (fun op mark => ?_) (ih.call deep)
      exact (ih.unary deep).unsafeBind fun _ => carries_pure rfl
    case call => exact (ih.primary deep).unsafeBind fun callee => ih.callFrom deep callee
    case callFrom => exact carries_callFrom ih deep
    case arguments => exact carries_arguments ih deep
    case primary => exact carries_primary ih deep

end Lox.Rule
