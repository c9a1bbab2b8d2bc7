import Lox.Proofs.Syntax.Appended.Programs
import Lox.Proofs.Syntax.Local.Expressions

/-!
# Statements, one token at a time

The rules for statements are local (`localStatements`), at every depth that is enough for the
tokens. A statement has read its last token when it ends, unless it is a choice without `else`: this
looks for an `else` behind it.
-/

namespace Lox

/-- A token of the kind ends every statement. -/
def TokenKind.EndsStatement (kind : TokenKind) : Prop :=
  kind ≠ .keyword .else

namespace Rule

variable {S : Setting} {kinds ends : TokenKind → Prop} {len len' : Nat} {takes : Prop}

/-! ## Parts of statements -/

section
variable (inner : ∀ kind, kind.Inner → kinds kind) {n n' : Nat}
include inner

/-- An expression and the symbol after it. -/
theorem local_ended {β γ : Type} {g : β → γ} (place : Place) {k : Expr → Lexeme → Rule β}
    {k' : Expr → Lexeme → Rule γ} (deep : Deep 16 len n) (deep' : Deep 16 len' n')
    (h : ∀ e l, Local S kinds ends (len - 1 - 1) (len' - 1 - 1) False g (k e l)
      (k' (e.relabel S.labels) (l.relabel S.labels))) :
    Local S kinds ends len len' takes g
      (do let e ← expression n; let l ← expect place; k e l)
      (do let e ← expression n'; let l ← expect place; k' e l) :=
  ((localExpressions inner S n).expression deep deep').bindEnded fun e =>
    (local_expect inner place).bind fun l => h e l

theorem local_optionalExpression (place : Place) (deep : Deep 16 len n) (deep' : Deep 16 len' n') :
    Local S kinds ends len len' True (Option.map (Expr.relabel S.labels))
      (optionalExpression n place) (optionalExpression n' place) :=
  local_symbol? (inner _ (.symbol _)) (fun _ => local_pure rfl)
    (local_ended inner place deep deep' fun _ _ => local_pure rfl) (.inl trivial)

theorem local_varDecl (deep : Deep 1 len n) (deep' : Deep 1 len' n') :
    Local S kinds ends len len' True (Stmt.relabel S.labels) (varDecl n) (varDecl n') := by
  refine (local_name inner .variable).bind fun name => Local.untaken ?_
  refine local_symbol? (inner _ (.symbol _)) (fun _ => ?_) ?_ (.inl trivial)
  · exact local_ended inner .variableEnd (by omega) (by omega) fun _ _ => local_pure rfl
  · exact (local_expect inner .variableEnd).bind fun _ => local_pure rfl

theorem local_expressionStmt (deep : Deep 16 len n) (deep' : Deep 16 len' n') :
    Local S kinds ends len len' True (Stmt.relabel S.labels) (expressionStmt n)
      (expressionStmt n') :=
  local_ended inner .expressionEnd deep deep' fun _ _ => local_pure rfl

theorem local_forInitializer (deep : Deep 16 len n) (deep' : Deep 16 len' n') :
    Local S kinds ends len len' True (Option.map (Stmt.relabel S.labels)) (forInitializer n)
      (forInitializer n') := by
  refine local_symbol? (inner _ (.symbol _)) (fun _ => local_pure rfl) ?_ (.inl trivial)
  refine local_keyword? (inner _ ⟨nofun, nofun⟩) (fun _ => ?_) ?_ (.inl trivial)
  · exact (local_varDecl inner (by omega) (by omega)).bind fun _ => local_pure rfl
  · exact (local_expressionStmt inner deep deep').bind fun _ => local_pure rfl

theorem local_parametersFrom (count : Nat) (deep : Deep 1 len n) (deep' : Deep 1 len' n') :
    Local S kinds TokenKind.EndsExpression len len' True (List.map (Lexeme.relabel S.labels))
      (parametersFrom n count) (parametersFrom n' count) := by
  induction n generalizing n' len len' count with
  | zero =>
    obtain rfl : len = 0 := by omega
    exact local_nothing
  | succ n ih =>
    refine local_of_succ (by decide) (parametersFrom · count) (fun deep' => ?_) deep'
    unfold parametersFrom
    split
    · exact local_fail
    · refine (local_name inner .parameter).bind fun parameter => ?_
      refine local_symbol? (inner _ (.symbol _)) (fun _ => ?_) (local_pure rfl)
        (.inr fun h => h.2 rfl)
      exact (ih (count + 1) (by omega) (by omega)).bind fun _ => local_pure rfl

theorem local_parameters (deep : Deep 1 len n) (deep' : Deep 1 len' n') :
    Local S kinds ends len len' True (List.map (Lexeme.relabel S.labels)) (parameters n)
      (parameters n') := by
  refine local_symbol? (inner _ (.symbol _)) (fun _ => local_pure rfl) ?_ (.inl trivial)
  refine (local_parametersFrom inner 0 deep deep').bindEnded fun parameters => ?_
  exact (local_expect inner .parametersEnd).bind fun _ => local_pure rfl

theorem local_superclass :
    Local S kinds (· ≠ .symbol .less) len len' False (Option.map (Superclass.relabel S.labels))
      superclass superclass := by
  refine local_symbol? (inner _ (.symbol _)) (fun _ => ?_) (local_pure rfl) (.inr fun h => h rfl)
  exact (local_name inner .superclass).bind fun name => local_freshId fun _ => local_pure rfl

end

/-! ## Rules -/

/-- The rules for statements are local at the depth `n`. -/
structure LocalStatements (S : Setting) (n : Nat) : Prop where
  declaration {n' len len' : Nat} (deep : Deep 18 len n) (deep' : Deep 18 len' n') :
    Local S (· ≠ .eof) TokenKind.EndsStatement len len' True (Stmt.relabel S.labels)
      (declaration n) (declaration n')
  classDecl {n' len len' : Nat} (deep : Deep 1 len n) (deep' : Deep 1 len' n') :
    Local S (· ≠ .eof) TokenKind.EndsStatement len len' True (Stmt.relabel S.labels)
      (classDecl n) (classDecl n')
  methods {n' len len' : Nat} (deep : Deep 2 len n) (deep' : Deep 2 len' n') :
    Local S (· ≠ .eof) TokenKind.EndsStatement len len' True
      (FunctionDecl.relabelList S.labels) (methods n) (methods n')
  function {n' len len' : Nat} (routine : Routine) (deep : Deep 1 len n) (deep' : Deep 1 len' n') :
    Local S (· ≠ .eof) TokenKind.EndsStatement len len' True (FunctionDecl.relabel S.labels)
      (function n routine) (function n' routine)
  block {n' len len' : Nat} (deep : Deep 19 len n) (deep' : Deep 19 len' n') :
    Local S (· ≠ .eof) TokenKind.EndsStatement len len' True (Stmt.relabelList S.labels)
      (block n) (block n')
  statement {n' len len' : Nat} (deep : Deep 17 len n) (deep' : Deep 17 len' n') :
    Local S (· ≠ .eof) TokenKind.EndsStatement len len' True (Stmt.relabel S.labels)
      (statement n) (statement n')
  forStmt {n' len len' : Nat} (deep : Deep 1 len n) (deep' : Deep 1 len' n') :
    Local S (· ≠ .eof) TokenKind.EndsStatement len len' True (Stmt.relabel S.labels)
      (forStmt n) (forStmt n')
  ifStmt {n' len len' : Nat} (deep : Deep 1 len n) (deep' : Deep 1 len' n') :
    Local S (· ≠ .eof) TokenKind.EndsStatement len len' True (Stmt.relabel S.labels)
      (ifStmt n) (ifStmt n')

theorem ne_eof_of_inner (kind : TokenKind) (inner : kind.Inner) : kind ≠ .eof :=
  inner.1

section
variable {n n' : Nat} (ih : LocalStatements S n)
include ih

theorem local_declaration (deep : Deep 18 len (n + 1)) (deep' : Deep 18 len' (n' + 1)) :
    Local S (· ≠ .eof) TokenKind.EndsStatement len len' True (Stmt.relabel S.labels)
      (declaration (n + 1)) (declaration (n' + 1)) := by
  refine local_keyword? nofun (fun _ => ?_) ?_ (.inl trivial)
  · exact (ih.classDecl (by omega) (by omega)).untaken
  refine local_keyword? nofun (fun _ => ?_) ?_ (.inl trivial)
  · exact (ih.function .function (by omega) (by omega)).bind fun decl => local_pure rfl
  refine local_keyword? nofun (fun _ => ?_) ?_ (.inl trivial)
  · exact (local_varDecl ne_eof_of_inner (by omega) (by omega)).untaken
  · exact ih.statement (by omega) (by omega)

theorem local_classDecl (deep : Deep 1 len (n + 1)) (deep' : Deep 1 len' (n' + 1)) :
    Local S (· ≠ .eof) TokenKind.EndsStatement len len' True (Stmt.relabel S.labels)
      (classDecl (n + 1)) (classDecl (n' + 1)) := by
  refine (local_name ne_eof_of_inner .class).bind fun name => ?_
  refine (local_superclass ne_eof_of_inner).bindOptional fun superclass => ?_
  refine (local_expect ne_eof_of_inner .classBody).bind fun _ => ?_
  exact (ih.methods (by omega) (by omega)).bind fun methods => local_pure rfl

theorem local_methods (deep : Deep 2 len (n + 1)) (deep' : Deep 2 len' (n' + 1)) :
    Local S (· ≠ .eof) TokenKind.EndsStatement len len' True
      (FunctionDecl.relabelList S.labels) (methods (n + 1)) (methods (n' + 1)) := by
  refine local_symbol? nofun (fun _ => local_pure rfl) (local_atEnd ?_) (.inl trivial)
  refine (ih.function .method (by omega) (by omega)).bind fun method => ?_
  exact (ih.methods (by omega) (by omega)).bind fun methods => local_pure rfl

theorem local_function (routine : Routine) (deep : Deep 1 len (n + 1))
    (deep' : Deep 1 len' (n' + 1)) :
    Local S (· ≠ .eof) TokenKind.EndsStatement len len' True (FunctionDecl.relabel S.labels)
      (function (n + 1) routine) (function (n' + 1) routine) := by
  refine (local_name ne_eof_of_inner (.routine routine)).bind fun name => ?_
  refine (local_expect ne_eof_of_inner (.parameters routine)).bind fun _ => ?_
  refine (local_parameters ne_eof_of_inner (by omega) (by omega)).bind fun params => ?_
  refine (local_expect ne_eof_of_inner (.body routine)).bind fun _ => ?_
  exact (ih.block (by omega) (by omega)).bind fun body => local_pure rfl

theorem local_block (deep : Deep 19 len (n + 1)) (deep' : Deep 19 len' (n' + 1)) :
    Local S (· ≠ .eof) TokenKind.EndsStatement len len' True (Stmt.relabelList S.labels)
      (block (n + 1)) (block (n' + 1)) := by
  refine local_symbol? nofun (fun _ => local_pure rfl) (local_atEnd ?_) (.inl trivial)
  refine (ih.declaration (by omega) (by omega)).bind fun first => ?_
  exact (ih.block (by omega) (by omega)).bind fun later => local_pure rfl

theorem local_statement (deep : Deep 17 len (n + 1)) (deep' : Deep 17 len' (n' + 1)) :
    Local S (· ≠ .eof) TokenKind.EndsStatement len len' True (Stmt.relabel S.labels)
      (statement (n + 1)) (statement (n' + 1)) := by
  refine local_keyword? nofun (fun _ => ?_) ?_ (.inl trivial)
  · exact (ih.forStmt (by omega) (by omega)).untaken
  refine local_keyword? nofun (fun _ => ?_) ?_ (.inl trivial)
  · exact (ih.ifStmt (by omega) (by omega)).untaken
  refine local_keyword? nofun (fun _ => ?_) ?_ (.inl trivial)
  · exact local_ended ne_eof_of_inner .printEnd (by omega) (by omega) fun _ _ => local_pure rfl
  refine local_keyword? nofun (fun keyword => ?_) ?_ (.inl trivial)
  · exact (local_optionalExpression ne_eof_of_inner .returnEnd (by omega) (by omega)).bind
      fun value => local_pure rfl
  refine local_keyword? nofun (fun _ => ?_) ?_ (.inl trivial)
  · refine (local_expect ne_eof_of_inner .whileCondition).bind fun _ => ?_
    refine local_ended ne_eof_of_inner .whileConditionEnd (by omega) (by omega)
      fun condition _ => ?_
    exact (ih.statement (by omega) (by omega)).bind fun body => local_pure rfl
  refine local_symbol? nofun (fun _ => ?_) ?_ (.inl trivial)
  · exact (ih.block (by omega) (by omega)).bind fun body => local_pure rfl
  · exact local_expressionStmt ne_eof_of_inner (by omega) (by omega)

theorem local_forStmt (deep : Deep 1 len (n + 1)) (deep' : Deep 1 len' (n' + 1)) :
    Local S (· ≠ .eof) TokenKind.EndsStatement len len' True (Stmt.relabel S.labels)
      (forStmt (n + 1)) (forStmt (n' + 1)) := by
  refine (local_expect ne_eof_of_inner .forClauses).bind fun _ => ?_
  refine (local_forInitializer ne_eof_of_inner (by omega) (by omega)).bind fun initializer => ?_
  refine (local_optionalExpression ne_eof_of_inner .forCondition (by omega) (by omega)).bind
    fun condition => ?_
  refine (local_optionalExpression ne_eof_of_inner .forClausesEnd (by omega) (by omega)).bind
    fun increment => ?_
  exact (ih.statement (by omega) (by omega)).bind fun body => local_pure (loop_relabel ..).symm

/-- A choice without `else` asks whether `else` comes next. -/
theorem local_ifStmt (deep : Deep 1 len (n + 1)) (deep' : Deep 1 len' (n' + 1)) :
    Local S (· ≠ .eof) TokenKind.EndsStatement len len' True (Stmt.relabel S.labels)
      (ifStmt (n + 1)) (ifStmt (n' + 1)) := by
  refine (local_expect ne_eof_of_inner .ifCondition).bind fun _ => ?_
  refine local_ended ne_eof_of_inner .ifConditionEnd (by omega) (by omega) fun condition _ => ?_
  refine (ih.statement (by omega) (by omega)).bind fun thenBranch => ?_
  refine local_keyword? nofun (fun _ => ?_) (local_pure rfl) (.inr fun h => h rfl)
  exact (ih.statement (by omega) (by omega)).bind fun elseBranch => local_pure rfl

end

theorem localStatements (S : Setting) (n : Nat) : LocalStatements S n := by
  induction n with
  | zero =>
    have none {rank len : Nat} (positive : 0 < rank) (deep : Deep rank len 0) : len = 0 := by omega
    constructor
    all_goals
      intros
      rename_i deep _
      obtain rfl := none (Nat.succ_pos _) deep
      exact local_nothing
  | succ n ih =>
    constructor
    all_goals intro _ _ _
    case declaration =>
      exact fun deep => local_of_succ (by decide) declaration (local_declaration ih deep)
    case classDecl =>
      exact fun deep => local_of_succ (by decide) classDecl (local_classDecl ih deep)
    case methods => exact fun deep => local_of_succ (by decide) methods (local_methods ih deep)
    case function =>
      exact fun routine deep =>
        local_of_succ (by decide) (function · routine) (local_function ih routine deep)
    case block => exact fun deep => local_of_succ (by decide) block (local_block ih deep)
    case statement =>
      exact fun deep => local_of_succ (by decide) statement (local_statement ih deep)
    case forStmt => exact fun deep => local_of_succ (by decide) forStmt (local_forStmt ih deep)
    case ifStmt => exact fun deep => local_of_succ (by decide) ifStmt (local_ifStmt ih deep)

/-- The depth does not matter as long as it is enough. -/
theorem declaration_deeper {n n' : Nat} {c : Cursor} (deep : Deep 18 (c.rest.length + 1) n)
    (deep' : Deep 18 (c.rest.length + 1) n') : declaration n' c = declaration n c :=
  ((localStatements (.behind 0) n).declaration deep deep').eq Stmt.relabel_same (Nat.lt_succ_self _)
    (Nat.lt_succ_self _)

end Rule

end Lox
