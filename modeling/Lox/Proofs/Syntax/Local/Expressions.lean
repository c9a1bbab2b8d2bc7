import Lox.Proofs.Syntax.Completeness.Expressions
import Lox.Proofs.Syntax.Appended.Expressions
import Lox.Proofs.Syntax.Local.Steps

/-!
# Expressions, one token at a time

The rules for expressions are local (`localExpressions`), at every depth that is enough for the
tokens: between two tokens rules nest as deep as the levels of operators say (`Level.nesting`). It
does not matter what comes after an expression, as long as it does not go on with it.
-/

namespace Lox

/-- A token of the kind goes on with no expression, and with no list of them. -/
def TokenKind.EndsExpression (kind : TokenKind) : Prop :=
  kind.binds? = none ∧ kind ≠ .symbol .comma

/-- How deep the rules for operands of the level nest before they take a token. -/
def Level.nesting : Level → Nat
  | factor => 4
  | term => 6
  | comparison => 8
  | equality => 10
  | and => 12
  | or => 14

theorem Level.nesting_pos (level : Level) : 0 < level.nesting := by
  cases level <;> decide

namespace Rule

variable {S : Setting} {kinds ends : TokenKind → Prop} {len len' : Nat}

/-- The assignment to a target, if it is one. -/
def assignment? (target value : Expr) : Rule (Option Expr) :=
  match target with
  | .variable _ name => do return some (.assign (← freshId) name value)
  | .get object name => return some (.set object name value)
  | _ => return none

/-- What may come after the target of an assignment. -/
def assigned? (n : Nat) (target : Expr) : Rule (Option Expr) := do
  match ← symbol? .equal with
  | some _ => assignment? target (← expression n)
  | none => return some target

/-- If there is no assignment to the target, the equals sign is blamed. -/
theorem expression_succ (n : Nat) : expression (n + 1) =
    operators n .or >>= fun target => orBlame .invalidAssignment (assigned? n target) := by
  have assigns (target value : Expr) (rest : List Token) : assignTo target value rest =
      assignment? target value >>= fun e => e.elim (failAt rest .invalidAssignment) pure := by
    cases target <;> rfl
  rw [expression]
  refine congrArg _ (funext fun target => congrArg _ (funext fun rest => ?_))
  rw [assigned?, bind_assoc]
  refine congrArg _ (funext fun found => ?_)
  cases found with
  | none => rfl
  | some mark =>
    simp only [assigns, bind_assoc]
    refine congrArg _ (funext fun value => congrArg _ (funext fun e => ?_))
    cases e <;> rfl

/-- The rules for expressions are local at the depth `n`. -/
structure LocalExpressions (S : Setting) (kinds : TokenKind → Prop) (n : Nat) : Prop where
  expression {n' len len' : Nat} (deep : Deep 16 len n) (deep' : Deep 16 len' n') :
    Local S kinds TokenKind.EndsExpression len len' True (Expr.relabel S.labels)
      (expression n) (expression n')
  operators {n' len len' : Nat} (level : Level) (deep : Deep (level.nesting + 1) len n)
    (deep' : Deep (level.nesting + 1) len' n') :
    Local S kinds TokenKind.EndsExpression len len' True (Expr.relabel S.labels)
      (operators n level) (operators n' level)
  operatorsFrom {n' len len' : Nat} (level : Level) (left : Expr) (deep : Deep 1 len n)
    (deep' : Deep 1 len' n') :
    Local S kinds TokenKind.EndsExpression len len' False (Expr.relabel S.labels)
      (operatorsFrom n level left) (operatorsFrom n' level (left.relabel S.labels))
  operand {n' len len' : Nat} (level : Level) (deep : Deep level.nesting len n)
    (deep' : Deep level.nesting len' n') :
    Local S kinds TokenKind.EndsExpression len len' True (Expr.relabel S.labels)
      (operand n level) (operand n' level)
  unary {n' len len' : Nat} (deep : Deep 3 len n) (deep' : Deep 3 len' n') :
    Local S kinds TokenKind.EndsExpression len len' True (Expr.relabel S.labels) (unary n)
      (unary n')
  call {n' len len' : Nat} (deep : Deep 2 len n) (deep' : Deep 2 len' n') :
    Local S kinds TokenKind.EndsExpression len len' True (Expr.relabel S.labels) (call n)
      (call n')
  callFrom {n' len len' : Nat} (e : Expr) (deep : Deep 1 len n) (deep' : Deep 1 len' n') :
    Local S kinds TokenKind.EndsExpression len len' False (Expr.relabel S.labels)
      (callFrom n e) (callFrom n' (e.relabel S.labels))
  arguments {n' len len' : Nat} (count : Nat) (deep : Deep 17 len n) (deep' : Deep 17 len' n') :
    Local S kinds TokenKind.EndsExpression len len' True (Expr.relabelList S.labels)
      (arguments n count) (arguments n' count)
  primary {n' len len' : Nat} {ends : TokenKind → Prop} (deep : Deep 1 len n)
    (deep' : Deep 1 len' n') :
    Local S kinds ends len len' True (Expr.relabel S.labels) (primary n) (primary n')

section
variable (inner : ∀ kind, kind.Inner → kinds kind) {n n' : Nat}
  (ih : LocalExpressions S kinds n)

theorem inner_of_connective? {level : Level} {kind : TokenKind} {op : Connective}
    (h : level.connective? kind = some op) : kind.Inner := by
  constructor
  all_goals
    rintro rfl
    cases level <;> cases h

theorem inner_of_unaryOp {kind : TokenKind} {op : UnaryOp} (h : UnaryOp.ofKind? kind = some op) :
    kind.Inner := by
  constructor
  all_goals
    rintro rfl
    cases h

theorem inner_of_atom {kind : TokenKind} {atom : Atom} (h : Atom.ofKind? kind = some atom) :
    kind.Inner := by
  constructor
  all_goals
    rintro rfl
    cases h

theorem connective?_of_ends (level : Level) {kind : TokenKind} (h : kind.EndsExpression) :
    level.connective? kind = none := by
  cases found : level.connective? kind with
  | none => rfl
  | some op => cases h.1.symm.trans (Level.binds?_of_connective? found)

/-- An expression that is no target is none whatever follows the equals sign. -/
theorem assigned?_ne_some {n n' : Nat} {target : Expr} {R : Relabelling} {ts ts' : List Token}
    {id id' : ExprId} {e : Expr} {c c' : Cursor}
    (run : assigned? n target ⟨ts, id⟩ = .ok none c)
    (next : (ts'.headD .afterLast).kind = (ts.headD .afterLast).kind) :
    assigned? n' (target.relabel R) ⟨ts', id'⟩ ≠ .ok (some e) c' := by
  intro run'
  obtain ⟨found, _, mark, run⟩ := bind_eq_ok.mp run
  obtain ⟨found', _, mark', run'⟩ := bind_eq_ok.mp run'
  have same := isSome_of_symbol? mark mark' next
  cases found with
  | none => cases run
  | some _ =>
    cases found' with
    | none => cases same
    | some _ =>
      obtain ⟨_, _, -, refused⟩ := bind_eq_ok.mp run
      obtain ⟨_, _, -, assigned⟩ := bind_eq_ok.mp run'
      cases target with
      | «variable» _ _ => cases refused
      | get _ _ => cases refused
      | _ => cases assigned

theorem local_assignment? (target value : Expr) :
    Local S kinds ends len len' False (Option.map (Expr.relabel S.labels))
      (assignment? target value)
      (assignment? (target.relabel S.labels) (value.relabel S.labels)) := by
  cases target with
  | «variable» _ _ => exact local_freshId fun _ => local_pure rfl
  | _ => exact local_pure rfl

include ih

theorem local_operand (level : Level) (deep : Deep level.nesting len (n + 1))
    (deep' : Deep level.nesting len' (n' + 1)) :
    Local S kinds TokenKind.EndsExpression len len' True (Expr.relabel S.labels)
      (operand (n + 1) level) (operand (n' + 1) level) := by
  unfold operand
  cases level with
  | factor => exact ih.unary (Nat.le_of_succ_le_succ deep) (Nat.le_of_succ_le_succ deep')
  | _ => exact ih.operators _ (Nat.le_of_succ_le_succ deep) (Nat.le_of_succ_le_succ deep')

include inner

theorem local_assigned? (target : Expr) (deep : Deep 1 len n) (deep' : Deep 1 len' n') :
    Local S kinds TokenKind.EndsExpression len len' False
      (Option.map (Expr.relabel S.labels)) (assigned? n target)
      (assigned? n' (target.relabel S.labels)) := by
  refine local_symbol? (inner _ (.symbol _)) (fun _ => ?_) (local_pure rfl)
    (.inr fun h => nomatch h.1)
  exact (ih.expression (by omega) (by omega)).bind fun value => local_assignment? target value

theorem local_expression (deep : Deep 16 len (n + 1)) (deep' : Deep 16 len' (n' + 1)) :
    Local S kinds TokenKind.EndsExpression len len' True (Expr.relabel S.labels)
      (expression (n + 1)) (expression (n' + 1)) := by
  rw [expression_succ, expression_succ]
  refine (ih.operators .or ?_ ?_).bind fun target => ?_
  · exact Nat.le_of_succ_le_succ deep
  · exact Nat.le_of_succ_le_succ deep'
  · exact local_orBlame (local_assigned? inner ih target (by omega) (by omega)) assigned?_ne_some

theorem local_operatorsFrom (level : Level) (left : Expr) (deep : Deep 1 len (n + 1))
    (deep' : Deep 1 len' (n' + 1)) :
    Local S kinds TokenKind.EndsExpression len len' False (Expr.relabel S.labels)
      (operatorsFrom (n + 1) level left)
      (operatorsFrom (n' + 1) level (left.relabel S.labels)) := by
  refine local_accept? (fun kind _ _ h => inner kind (inner_of_connective? h)) (fun op mark => ?_)
    (local_pure rfl) (.inr fun kind => connective?_of_ends level)
  have nesting : level.nesting ≤ 14 := by cases level <;> decide
  refine (ih.operand level (by omega) (by omega)).bind fun right => ?_
  rw [← node_relabel]
  exact ih.operatorsFrom level _ (by omega) (by omega)

theorem local_callFrom (e : Expr) (deep : Deep 1 len (n + 1)) (deep' : Deep 1 len' (n' + 1)) :
    Local S kinds TokenKind.EndsExpression len len' False (Expr.relabel S.labels)
      (callFrom (n + 1) e) (callFrom (n' + 1) (e.relabel S.labels)) := by
  refine local_symbol? (inner _ (.symbol _)) (fun _ => ?_) ?_ (.inr fun h => nomatch h.1)
  · refine Local.untaken (local_symbol? (inner _ (.symbol _))
      (fun paren => ih.callFrom (.call e paren []) (by omega) (by omega)) ?_ (.inl trivial))
    refine (ih.arguments 0 (by omega) (by omega)).bindEnded fun arguments => ?_
    refine (local_expect inner .argumentsEnd).bind fun paren => ?_
    exact ih.callFrom (.call e paren arguments) (by omega) (by omega)
  · refine local_symbol? (inner _ (.symbol _)) (fun _ => ?_) (local_pure rfl)
      (.inr fun h => nomatch h.1)
    exact (local_name inner .property).bind fun property =>
      ih.callFrom (.get e property) (by omega) (by omega)

theorem local_arguments (count : Nat) (deep : Deep 17 len (n + 1))
    (deep' : Deep 17 len' (n' + 1)) :
    Local S kinds TokenKind.EndsExpression len len' True (Expr.relabelList S.labels)
      (arguments (n + 1) count) (arguments (n' + 1) count) := by
  unfold arguments
  split
  · exact local_fail
  · refine (ih.expression (by omega) (by omega)).bind fun e => ?_
    refine local_symbol? (inner _ (.symbol _)) (fun _ => ?_) (local_pure rfl)
      (.inr fun h => h.2 rfl)
    exact (ih.arguments (count + 1) (by omega) (by omega)).bind fun es => local_pure rfl

theorem local_primary (deep : Deep 1 len (n + 1)) (deep' : Deep 1 len' (n' + 1)) :
    Local S kinds ends len len' True (Expr.relabel S.labels) (primary (n + 1))
      (primary (n' + 1)) := by
  refine local_accept? (fun kind _ _ h => inner kind (inner_of_atom h)) (fun atom l => ?_)
    local_fail (.inl trivial)
  cases atom with
  | literal value => exact local_pure rfl
  | this => exact local_freshId fun _ => local_pure rfl
  | «variable» => exact local_freshId fun _ => local_pure rfl
  | super =>
    refine (local_expect inner .superDot).bind fun _ => ?_
    refine (local_name inner .superMethod).bind fun method => ?_
    exact local_freshId fun _ => local_pure rfl
  | group =>
    refine (ih.expression (by omega) (by omega)).bindEnded fun e => ?_
    exact (local_expect inner .groupEnd).bind fun _ => local_pure rfl

end

theorem localExpressions (inner : ∀ kind, kind.Inner → kinds kind) (S : Setting) (n : Nat) :
    LocalExpressions S kinds n := by
  induction n with
  | zero =>
    have none {rank len : Nat} (positive : 0 < rank) (deep : Deep rank len 0) : len = 0 := by omega
    constructor
    all_goals
      intros
      rename_i deep _
      obtain rfl := none (by first | exact Nat.succ_pos _ | exact Level.nesting_pos _) deep
      exact local_nothing
  | succ n ih =>
    constructor
    case expression =>
      intro _ _ _ deep deep'
      exact local_of_succ (by decide) expression (local_expression inner ih deep) deep'
    case operators =>
      intro _ _ _ level deep deep'
      refine local_of_succ (Nat.succ_pos _) (operators · level) (fun deep' => ?_) deep'
      have nesting := level.nesting_pos
      refine (ih.operand level (by omega) (by omega)).bind fun left => ?_
      exact ih.operatorsFrom level left (by omega) (by omega)
    case operatorsFrom =>
      intro _ _ _ level left deep deep'
      exact local_of_succ (by decide) (operatorsFrom · level _)
        (local_operatorsFrom inner ih level left deep) deep'
    case operand =>
      intro _ _ _ level deep deep'
      exact local_of_succ level.nesting_pos (operand · level) (local_operand ih level deep) deep'
    case unary =>
      intro _ _ _ deep deep'
      refine local_of_succ (by decide) unary (fun deep' => ?_) deep'
      refine local_accept? (fun kind _ _ h => inner kind (inner_of_unaryOp h)) (fun op mark => ?_)
        (ih.call (by omega) (by omega)) (.inl trivial)
      exact (ih.unary (by omega) (by omega)).bind fun right => local_pure rfl
    case call =>
      intro _ _ _ deep deep'
      refine local_of_succ (by decide) call (fun deep' => ?_) deep'
      exact (ih.primary (by omega) (by omega)).bind fun callee =>
        ih.callFrom callee (by omega) (by omega)
    case callFrom =>
      intro _ _ _ e deep deep'
      exact local_of_succ (by decide) (callFrom · _) (local_callFrom inner ih e deep) deep'
    case arguments =>
      intro _ _ _ count deep deep'
      exact local_of_succ (by decide) (arguments · count) (local_arguments inner ih count deep)
        deep'
    case primary =>
      intro _ _ _ _ deep deep'
      exact local_of_succ (by decide) primary (local_primary inner ih deep) deep'

end Rule

end Lox
