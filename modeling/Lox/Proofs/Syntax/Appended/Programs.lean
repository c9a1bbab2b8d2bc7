import Lox.Syntax.Program
import Lox.Proofs.Syntax.Appended.Expressions

/-!
# Programs one after another

A statement ends with a token of its own, so the rules for statements are safe: they read the same
statements before any other tokens (`carriesStatements`), unless these begin with `else`. So a
program after another one is read as it is read alone, but with other labels
(`Program.ofTokens_append`).
-/

namespace Lox

namespace Rule

variable {J : Joint}

/-! ## Parts of statements -/

section
variable {n n' : Nat} (deep : n ≤ n')
include deep

/-- An expression and the symbol after it. -/
theorem carries_ended {takes : Prop} {β γ : Type} {g : β → γ} (place : Place)
    {k : Expr → Lexeme → Rule β} {k' : Expr → Lexeme → Rule γ}
    (h : ∀ e l, Carries J True False g (k e l) (k' (e.relabel J.labels) (l.relabel J.labels))) :
    Carries J True takes g (do let e ← expression n; let l ← expect place; k e l)
      (do let e ← expression n'; let l ← expect place; k' e l) :=
  ((carriesExpressions J n).expression deep).bindEnded fun e =>
    (carries_expect place).bind fun l => h e l

theorem carries_optionalExpression (place : Place) :
    Carries J True True (Option.map (Expr.relabel J.labels)) (optionalExpression n place)
      (optionalExpression n' place) :=
  carries_symbol? (fun _ => carries_pure rfl) (carries_ended deep place fun _ _ => carries_pure rfl)

theorem carries_varDecl : Carries J True True (Stmt.relabel J.labels) (varDecl n) (varDecl n') := by
  refine (carries_name .variable).bind fun name => ?_
  refine carries_symbol? (fun _ => ?_) ?_
  · exact carries_ended deep .variableEnd fun _ _ => carries_pure rfl
  · exact (carries_expect .variableEnd).bind fun _ => carries_pure rfl

theorem carries_expressionStmt :
    Carries J True True (Stmt.relabel J.labels) (expressionStmt n) (expressionStmt n') :=
  carries_ended deep .expressionEnd fun _ _ => carries_pure rfl

theorem carries_forInitializer :
    Carries J True True (Option.map (Stmt.relabel J.labels)) (forInitializer n)
      (forInitializer n') := by
  refine carries_symbol? (fun _ => carries_pure rfl) ?_
  refine carries_keyword? (fun _ => ?_) ?_
  · exact (carries_varDecl deep).bind fun _ => carries_pure rfl
  · exact (carries_expressionStmt deep).bind fun _ => carries_pure rfl

end

theorem carries_parametersFrom {n n' : Nat} (deep : n ≤ n') (count : Nat) :
    Carries J False True (List.map (Lexeme.relabel J.labels)) (parametersFrom n count)
      (parametersFrom n' count) := by
  induction n generalizing n' count with
  | zero => exact carries_fail
  | succ n ih =>
    obtain ⟨m, rfl, deeper⟩ := deeper_of_succ_le deep
    unfold parametersFrom
    split
    · exact carries_fail
    · refine (carries_name .parameter).bind fun parameter => ?_
      refine carries_maybeSymbol? (fun _ => ?_) (carries_pure rfl)
      exact (ih deeper (count + 1)).unsafeBind fun _ => carries_pure rfl

theorem carries_parameters {n n' : Nat} (deep : n ≤ n') :
    Carries J True True (List.map (Lexeme.relabel J.labels)) (parameters n) (parameters n') := by
  refine carries_symbol? (fun _ => carries_pure rfl) ?_
  refine (carries_parametersFrom deep 0).bindEnded fun parameters => ?_
  exact (carries_expect .parametersEnd).bind fun _ => carries_pure rfl

theorem carries_superclass :
    Carries J False False (Option.map (Superclass.relabel J.labels)) superclass superclass := by
  refine carries_maybeSymbol? (fun _ => ?_) (carries_pure rfl)
  exact (carries_name .superclass).bind fun name => carries_freshId fun _ => carries_pure rfl

theorem loop_relabel (R : Relabelling) (initializer : Option Stmt)
    (condition increment : Option Expr) (body : Stmt) :
    (loop initializer condition increment body).relabel R =
      loop (initializer.map (Stmt.relabel R)) (condition.map (Expr.relabel R))
        (increment.map (Expr.relabel R)) (body.relabel R) := by
  cases initializer <;> cases condition <;> cases increment <;> rfl

/-! ## Rules -/

/-- What the rules for statements read at the depth `n`, they read before other tokens at every
greater depth. -/
structure CarriesStatements (J : Joint) (n : Nat) : Prop where
  declaration {n' : Nat} (deep : n ≤ n') :
    Carries J True True (Stmt.relabel J.labels) (declaration n) (declaration n')
  classDecl {n' : Nat} (deep : n ≤ n') :
    Carries J True True (Stmt.relabel J.labels) (classDecl n) (classDecl n')
  methods {n' : Nat} (deep : n ≤ n') :
    Carries J True True (FunctionDecl.relabelList J.labels) (methods n) (methods n')
  function {n' : Nat} (deep : n ≤ n') (routine : Routine) :
    Carries J True True (FunctionDecl.relabel J.labels) (function n routine) (function n' routine)
  block {n' : Nat} (deep : n ≤ n') :
    Carries J True True (Stmt.relabelList J.labels) (block n) (block n')
  statement {n' : Nat} (deep : n ≤ n') :
    Carries J True True (Stmt.relabel J.labels) (statement n) (statement n')
  forStmt {n' : Nat} (deep : n ≤ n') :
    Carries J True True (Stmt.relabel J.labels) (forStmt n) (forStmt n')
  ifStmt {n' : Nat} (deep : n ≤ n') :
    Carries J True True (Stmt.relabel J.labels) (ifStmt n) (ifStmt n')

section
variable {n n' : Nat} (ih : CarriesStatements J n) (deep : n ≤ n')
include ih deep

theorem carries_declaration :
    Carries J True True (Stmt.relabel J.labels) (declaration (n + 1)) (declaration (n' + 1)) := by
  refine carries_keyword? (fun _ => (ih.classDecl deep).untaken) ?_
  refine carries_keyword? (fun _ => ?_) ?_
  · exact (ih.function deep .function).bind fun decl => carries_pure rfl
  · exact carries_keyword? (fun _ => (carries_varDecl deep).untaken) (ih.statement deep)

theorem carries_classDecl :
    Carries J True True (Stmt.relabel J.labels) (classDecl (n + 1)) (classDecl (n' + 1)) := by
  refine (carries_name .class).bind fun name => ?_
  refine carries_superclass.bindEnded fun superclass => ?_
  refine (carries_expect .classBody).bind fun _ => ?_
  exact (ih.methods deep).bind fun methods => carries_pure rfl

theorem carries_methods :
    Carries J True True (FunctionDecl.relabelList J.labels) (methods (n + 1))
      (methods (n' + 1)) := by
  refine carries_symbol? (fun _ => carries_pure rfl) ?_
  refine carries_atEnd (fun ended => ?_) nofun
  cases ended with
  | true => exact carries_fail
  | false =>
    refine (ih.function deep .method).bind fun method => ?_
    exact (ih.methods deep).bind fun methods => carries_pure rfl

theorem carries_function (routine : Routine) :
    Carries J True True (FunctionDecl.relabel J.labels) (function (n + 1) routine)
      (function (n' + 1) routine) := by
  refine (carries_name (.routine routine)).bind fun name => ?_
  refine (carries_expect (.parameters routine)).bind fun _ => ?_
  refine (carries_parameters deep).bind fun params => ?_
  refine (carries_expect (.body routine)).bind fun _ => ?_
  exact (ih.block deep).bind fun body => carries_pure rfl

theorem carries_block :
    Carries J True True (Stmt.relabelList J.labels) (block (n + 1)) (block (n' + 1)) := by
  refine carries_symbol? (fun _ => carries_pure rfl) ?_
  refine carries_atEnd (fun ended => ?_) nofun
  cases ended with
  | true => exact carries_fail
  | false =>
    refine (ih.declaration deep).bind fun first => ?_
    exact (ih.block deep).bind fun later => carries_pure rfl

theorem carries_statement :
    Carries J True True (Stmt.relabel J.labels) (statement (n + 1)) (statement (n' + 1)) := by
  refine carries_keyword? (fun _ => (ih.forStmt deep).untaken) ?_
  refine carries_keyword? (fun _ => (ih.ifStmt deep).untaken) ?_
  refine carries_keyword? (fun _ => ?_) ?_
  · exact carries_ended deep .printEnd fun _ _ => carries_pure rfl
  refine carries_keyword? (fun keyword => ?_) ?_
  · exact (carries_optionalExpression deep .returnEnd).bind fun value => carries_pure rfl
  refine carries_keyword? (fun _ => ?_) ?_
  · refine (carries_expect .whileCondition).bind fun _ => ?_
    refine carries_ended deep .whileConditionEnd fun condition _ => ?_
    exact (ih.statement deep).bind fun body => carries_pure rfl
  refine carries_symbol? (fun _ => ?_) (carries_expressionStmt deep)
  exact (ih.block deep).bind fun body => carries_pure rfl

theorem carries_forStmt :
    Carries J True True (Stmt.relabel J.labels) (forStmt (n + 1)) (forStmt (n' + 1)) := by
  refine (carries_expect .forClauses).bind fun _ => ?_
  refine (carries_forInitializer deep).bind fun initializer => ?_
  refine (carries_optionalExpression deep .forCondition).bind fun condition => ?_
  refine (carries_optionalExpression deep .forClausesEnd).bind fun increment => ?_
  exact (ih.statement deep).bind fun body => carries_pure (loop_relabel ..).symm

/-- A choice without `else` asks whether `else` comes next. -/
theorem carries_ifStmt (noElse : ∀ t ∈ J.more.head?, t.kind ≠ .keyword .else) :
    Carries J True True (Stmt.relabel J.labels) (ifStmt (n + 1)) (ifStmt (n' + 1)) := by
  refine (carries_expect .ifCondition).bind fun _ => ?_
  refine carries_ended deep .ifConditionEnd fun condition _ => ?_
  refine (ih.statement deep).bind fun thenBranch => ?_
  refine carries_mark_of (fun _ => ?_) (carries_pure rfl) False.elim fun _ =>
    .inr fun t first => .inr ?_
  · exact (ih.statement deep).bind fun elseBranch => carries_pure rfl
  · split
    · rename_i w e
      exact if_neg fun isElse => noElse t first (by rw [e, isElse])
    · rfl

end

theorem carriesStatements (noElse : ∀ t ∈ J.more.head?, t.kind ≠ .keyword .else) (n : Nat) :
    CarriesStatements J n := by
  induction n with
  | zero => constructor <;> intros <;> exact carries_fail
  | succ n ih =>
    constructor
    all_goals
      intro n' deeper
      obtain ⟨m, rfl, deep⟩ := deeper_of_succ_le deeper
    case declaration => exact carries_declaration ih deep
    case classDecl => exact carries_classDecl ih deep
    case methods => exact carries_methods ih deep
    case function => exact carries_function ih deep
    case block => exact carries_block ih deep
    case statement => exact carries_statement ih deep
    case forStmt => exact carries_forStmt ih deep
    case ifStmt => exact carries_ifStmt ih deep noElse

/-! ## What a program begins with -/

/-- The rule reads nothing where a token of the kind is next. -/
def Refuses {α : Type} (kind : TokenKind) (r : Rule α) : Prop :=
  ∀ t ts id a c, t.kind = kind → r ⟨t :: ts, id⟩ ≠ .ok a c

section
variable {α β γ : Type} {kind : TokenKind}

theorem refuses_fail {cause : SyntaxCause} : Refuses kind (fail cause : Rule α) :=
  nofun

theorem refuses_bind {r : Rule α} {k : α → Rule β} (h : Refuses kind r) :
    Refuses kind (r >>= k) := by
  intro t ts id b c isKind run
  obtain ⟨a, c₁, first, -⟩ := bind_eq_ok.mp run
  exact h t ts id a c₁ isKind first

theorem refuses_accept? {read : TokenKind → Option α} {k : Option (α × Lexeme) → Rule β}
    (unread : read kind = none) (h : Refuses kind (k none)) :
    Refuses kind (accept? read >>= k) := by
  intro t ts id b c isKind run
  rw [bind_of_ok (accept?_of_none (.inr (isKind ▸ unread)))] at run
  exact h t ts id b c isKind run

theorem refuses_mark {read : TokenKind → Option Unit} {k : Option Lexeme → Rule β}
    (unread : read kind = none) (h : Refuses kind (k none)) :
    Refuses kind ((do return (← accept? read).map Prod.snd) >>= k) := by
  simp only [bind_assoc, pure_bind]
  exact refuses_accept? unread h

end

section
variable {kind : TokenKind} (unread : UnaryOp.ofKind? kind = none)
  (unread' : Atom.ofKind? kind = none)
include unread unread'

theorem refuses_unary (n : Nat) : Refuses kind (unary n) := by
  have primary (n : Nat) : Refuses kind (primary n) := by
    cases n with
    | zero => exact refuses_fail
    | succ n => exact refuses_accept? unread' refuses_fail
  have call (n : Nat) : Refuses kind (call n) := by
    cases n with
    | zero => exact refuses_fail
    | succ n => exact refuses_bind (primary n)
  cases n with
  | zero => exact refuses_fail
  | succ n => exact refuses_accept? unread (call n)

theorem refuses_operators (n : Nat) (level : Level) : Refuses kind (operators n level) := by
  induction n using Nat.strongRecOn generalizing level with
  | ind n ih =>
    match n with
    | 0 => exact refuses_fail
    | 1 => exact refuses_bind refuses_fail
    | n + 2 =>
      refine refuses_bind ?_
      unfold operand
      cases level.tighter? with
      | some tighter => exact ih n (by omega) tighter
      | none => exact refuses_unary unread unread' n

/-- An expression begins with an operator before an operand, or with a primary expression. -/
theorem refuses_expression (n : Nat) : Refuses kind (expression n) := by
  cases n with
  | zero => exact refuses_fail
  | succ n => exact refuses_bind (refuses_operators unread unread' n .or)

end

/-- The kinds that stand before a declaration, and those that end blocks, choices and the input,
begin no statement. -/
theorem refuses_statement {kind : TokenKind}
    (h : kind ∈ [.keyword .class, .keyword .fun, .keyword .var, .keyword .else, .symbol .rightBrace,
      .eof]) (n : Nat) : Refuses kind (statement n) := by
  cases n with
  | zero => exact refuses_fail
  | succ n =>
    simp only [List.mem_cons, List.not_mem_nil, or_false] at h
    rcases h with rfl | rfl | rfl | rfl | rfl | rfl
    all_goals
      iterate 6 refine refuses_mark rfl ?_
      exact refuses_bind (refuses_expression rfl rfl n)

/-- No declaration begins with `else`, or with what ends blocks and the input. -/
theorem refuses_declaration {kind : TokenKind}
    (h : kind ∈ [.keyword .else, .symbol .rightBrace, .eof]) (n : Nat) :
    Refuses kind (declaration n) := by
  cases n with
  | zero => exact refuses_fail
  | succ n =>
    have more := refuses_statement (List.mem_cons_of_mem _ (List.mem_cons_of_mem _
      (List.mem_cons_of_mem _ h))) n
    simp only [List.mem_cons, List.not_mem_nil, or_false] at h
    rcases h with rfl | rfl | rfl
    all_goals
      iterate 3 refine refuses_mark rfl ?_
      exact more

end Rule

namespace Program

theorem readFrom_of_end {t : Token} (h : t.kind = .eof) (n rounds : Nat) (ts : List Token)
    (id : ExprId) : readFrom n rounds ⟨t :: ts, id⟩ = ⟨[], [], id⟩ := by
  cases rounds with
  | zero => rfl
  | succ rounds => exact if_pos (Cursor.atEnd_of_end h ts id)

theorem readFrom_cons {t : Token} (h : t.kind ≠ .eof) (n rounds : Nat) (ts : List Token)
    (id : ExprId) : readFrom n (rounds + 1) ⟨t :: ts, id⟩ =
      match Rule.declaration n ⟨t :: ts, id⟩ with
      | .ok s c =>
        let p := readFrom n rounds c
        { p with statements := s :: p.statements }
      | .error e c =>
        let p := readFrom n rounds { c with rest := resume c.rest }
        { p with errors := e :: p.errors } :=
  if_neg (by rw [Cursor.atEnd_cons h]; exact Bool.false_ne_true)

/-- No program begins with `else`. -/
theorem noElse_of_errors {n rounds : Nat} {tokens : List Token} {id : ExprId} (some : 0 < rounds)
    (h : (readFrom n rounds ⟨tokens, id⟩).errors = []) :
    ∀ t ∈ tokens.head?, t.kind ≠ .keyword .else := by
  intro t first isElse
  obtain ⟨ts, rfl⟩ := List.head?_eq_some_iff.mp first
  obtain ⟨rounds, rfl⟩ : ∃ r, rounds = r + 1 := ⟨rounds - 1, by omega⟩
  rw [readFrom_cons (by rw [isElse]; nofun)] at h
  split at h
  · rename_i read
    exact Rule.refuses_declaration List.mem_cons_self n t ts id _ _ isElse read
  · cases h

/-- The statements that are read before the end of the input are read before other tokens too, and
reading goes on with these. -/
theorem readFrom_carries {J : Joint} (noElse : ∀ t ∈ J.more.head?, t.kind ≠ .keyword .else)
    {n n' : Nat} (deep : n ≤ n') {tokens : List Token} (noEnd : ∀ t ∈ tokens, t.kind ≠ .eof)
    {rounds rounds' : Nat} (lasts : tokens.length ≤ rounds) (lasts' : tokens.length ≤ rounds')
    {id : ExprId} {p : Program} (read : readFrom n rounds ⟨tokens ++ [J.ending], id⟩ = p)
    (h : p.errors = []) :
    ∃ left q, rounds' ≤ left + tokens.length ∧
      readFrom n' left ⟨J.more, p.nextId + J.ids⟩ = q ∧
      readFrom n' rounds' ⟨tokens.map (Token.later J.lines) ++ J.more, id + J.ids⟩ =
        { q with statements := Stmt.relabelList J.labels p.statements ++ q.statements } := by
  induction rounds generalizing tokens id rounds' p with
  | zero =>
    obtain rfl := List.length_eq_zero_iff.mp (Nat.le_zero.mp lasts)
    subst read
    exact ⟨rounds', _, Nat.le_refl _, rfl, rfl⟩
  | succ rounds ih =>
    cases tokens with
    | nil =>
      rw [List.nil_append, readFrom_of_end J.ends] at read
      subst read
      exact ⟨rounds', _, Nat.le_refl _, rfl, rfl⟩
    | cons t ts =>
      have more : t.kind ≠ .eof := noEnd t List.mem_cons_self
      rw [List.length_cons] at lasts lasts'
      obtain ⟨rounds', rfl⟩ : ∃ r, rounds' = r + 1 := ⟨rounds' - 1, by omega⟩
      rw [List.cons_append, readFrom_cons more] at read
      split at read
      · rename_i s c run
        subst read
        obtain ⟨rest, e, suffix, less, moved⟩ :=
          (Rule.carriesStatements noElse n).declaration deep (t :: ts) id s c run
        obtain ⟨_, id'⟩ := c
        subst e
        have shorter : rest.length < ts.length + 1 := less trivial
        have noEnd' : ∀ t ∈ rest, t.kind ≠ .eof := fun t inside => noEnd t (suffix.subset inside)
        have lasts'' : rest.length ≤ rounds' := by omega
        obtain ⟨left, q, counts, readMore, readRest⟩ := ih noEnd' (by omega) lasts'' rfl h
        refine ⟨left, q, by rw [List.length_cons]; omega, readMore, ?_⟩
        have more' : (t.later J.lines).kind ≠ .eof := more
        rw [List.map_cons, List.cons_append] at moved ⊢
        rw [readFrom_cons more', moved (.inl trivial)]
        simp only [readRest, Stmt.relabelList, List.cons_append]
      · subst read
        cases h

/-- Two programs one after the other are read as the one, and then as the other, but labelled from
where the one ends. -/
theorem ofTokens_append {tokens more : List Token} {ending ending' : Token}
    (noEnd : ∀ t ∈ tokens, t.kind ≠ .eof) (noEnd' : ∀ t ∈ more, t.kind ≠ .eof)
    (isEnd : ending.kind = .eof) (isEnd' : ending'.kind = .eof) {p q : Program}
    (read : ofTokens (tokens ++ [ending]) = p) (h : p.errors = [])
    (read' : ofTokens (more ++ [ending']) = q) (h' : q.errors = []) (lines : Nat) :
    ofTokens (tokens ++ (more ++ [ending']).map (Token.later lines)) =
      ⟨p.statements ++ Stmt.relabelList (.after lines p.nextId) q.statements, [],
        q.nextId + p.nextId⟩ := by
  let later := more.map (Token.later lines)
  let whole := tokens ++ (later ++ [ending'.later lines])
  have counts : whole.length = tokens.length + (more.length + 1) := by
    simp only [whole, later, List.length_append, List.length_map, List.length_singleton]
  have counts' (ts : List Token) (t : Token) : (ts ++ [t]).length = ts.length + 1 :=
    List.length_append
  have deep (ts : List Token) (t : Token) (le : ts.length ≤ tokens.length + more.length) :
      depth (ts ++ [t]) ≤ depth whole := by
    unfold depth
    rw [counts', counts]
    omega
  have noElse : ∀ t ∈ (later ++ [ending'.later lines]).head?, t.kind ≠ .keyword .else := by
    intro t first
    rw [← List.map_singleton, ← List.map_append, List.head?_map] at first
    obtain ⟨t', first', rfl⟩ := Option.map_eq_some_iff.mp first
    exact noElse_of_errors (by rw [counts']; omega) (read' ▸ h') t' first'
  have noElse' : ∀ t ∈ [ending'.later lines].head?, t.kind ≠ .keyword .else := by
    rintro t ⟨⟩ isElse
    cases isEnd'.symm.trans isElse
  have lasts : tokens.length ≤ whole.length := by omega
  obtain ⟨left, r, counts'', readMore, readWhole⟩ :=
    readFrom_carries (J := ⟨0, 0, ending, isEnd, _⟩) noElse (deep tokens ending (by omega)) noEnd
      (by rw [counts']; omega) lasts read h
  have lasts' : more.length ≤ left := by omega
  obtain ⟨left', r', -, readNone, readLater⟩ :=
    readFrom_carries (J := ⟨lines, p.nextId, ending', isEnd', _⟩) noElse'
      (deep more ending' (by omega)) noEnd' (by rw [counts']; omega) lasts' read' h'
  have ends : (ending'.later lines).kind = .eof := isEnd'
  have same : Stmt.relabelList (.after 0 0) p.statements = p.statements :=
    Stmt.relabelList_same p.statements
  dsimp only [Joint.labels] at readMore readWhole readNone readLater
  rw [readFrom_of_end ends] at readNone
  rw [Nat.zero_add, ← readNone, List.append_nil] at readLater
  rw [Nat.add_zero, readLater] at readMore
  rw [← readMore, Token.later_zero, List.map_id, same] at readWhole
  rw [List.map_append]
  exact readWhole

end Program

/-- If two lists of tokens are programs, so are the ones before the others. What is read of the
first does not depend on the second, and what is read of the second is numbered from where the first
ends. -/
theorem programs_are_read_in_order {first second : List Token} {ending ending' ending'' : Token}
    (noEnd : ∀ t ∈ first, t.kind ≠ .eof) (noEnd' : ∀ t ∈ second, t.kind ≠ .eof)
    (isEnd : ending.kind = .eof) (isEnd' : ending'.kind = .eof) (isEnd'' : ending''.kind = .eof)
    {ss more : List Stmt}
    (read : (Program.ofTokens (first ++ [ending])).statements? = .ok ss)
    (read' : (Program.ofTokens (second ++ [ending'])).statements? = .ok more) :
    (Program.ofTokens (first ++ second ++ [ending''])).statements? =
        .ok (ss ++ Stmt.relabelList ⟨(· + (Program.ofTokens (first ++ [ending])).nextId), id⟩ more) ∧
      (Program.ofTokens (first ++ second ++ [ending''])).nextId =
        (Program.ofTokens (second ++ [ending'])).nextId +
          (Program.ofTokens (first ++ [ending])).nextId := by
  obtain ⟨noErrors, rfl⟩ := Program.statements?_eq_ok read
  obtain ⟨noErrors', rfl⟩ := Program.statements?_eq_ok read'
  have unmoved (ts : List Token) : ts.map (Token.later 0) = ts := by
    rw [Token.later_zero, List.map_id]
  have joined := Program.ofTokens_append noEnd noEnd' isEnd isEnd' rfl noErrors rfl noErrors' 0
  rw [unmoved, ← List.append_assoc] at joined
  -- Nothing at all, before another end of the input.
  have noEnd'' : ∀ t ∈ first ++ second, t.kind ≠ .eof := fun t inside =>
    (List.mem_append.mp inside).elim (noEnd t) (noEnd' t)
  have nothing : Program.ofTokens ([] ++ [ending'']) = ⟨[], [], 0⟩ :=
    Program.readFrom_of_end isEnd'' _ _ _ _
  have closed := Program.ofTokens_append noEnd'' (List.forall_mem_nil _) isEnd' isEnd'' joined rfl
    nothing rfl 0
  rw [unmoved, List.nil_append, Stmt.relabelList, List.append_nil, Nat.zero_add] at closed
  rw [closed]
  exact ⟨rfl, rfl⟩

/-- An assignment, whose target took a number of its own, and then a block. -/
theorem block_is_read_behind_assignment :
    let assignment : List Token :=
      [⟨.identifier, "a", 1⟩, ⟨.symbol .equal, "=", 1⟩, ⟨.identifier, "b", 1⟩,
        ⟨.symbol .semicolon, ";", 1⟩]
    let block : List Token :=
      [⟨.symbol .leftBrace, "\x7b", 1⟩, ⟨.keyword .print, "print", 1⟩, ⟨.identifier, "a", 1⟩,
        ⟨.symbol .semicolon, ";", 1⟩, ⟨.symbol .rightBrace, "\x7d", 1⟩]
    let ending : Token := ⟨.eof, "", 1⟩
    (∀ t ∈ assignment, t.kind ≠ .eof) ∧ (∀ t ∈ block, t.kind ≠ .eof) ∧ ending.kind = .eof ∧
      (Program.ofTokens (block ++ [ending])).statements? =
        .ok [.block [.print (.variable 0 ⟨"a", 1⟩)]] ∧
      (Program.ofTokens (assignment ++ block ++ [ending])).statements? =
        .ok [.expression (.assign 2 ⟨"a", 1⟩ (.variable 1 ⟨"b", 1⟩)),
          .block [.print (.variable 3 ⟨"a", 1⟩)]] := by
  intro assignment block ending
  have noEnd : ∀ t ∈ assignment, t.kind ≠ .eof := by simp [assignment]
  have noEnd' : ∀ t ∈ block, t.kind ≠ .eof := by simp [block]
  have isEnd : ending.kind = .eof := rfl
  have read : (Program.ofTokens (assignment ++ [ending])).statements? =
      .ok [.expression (.assign 2 ⟨"a", 1⟩ (.variable 1 ⟨"b", 1⟩))] := by cbv
  have next : (Program.ofTokens (assignment ++ [ending])).nextId = 3 := by cbv
  have read' : (Program.ofTokens (block ++ [ending])).statements? =
      .ok [.block [.print (.variable 0 ⟨"a", 1⟩)]] := by cbv
  have joined := (programs_are_read_in_order noEnd noEnd' isEnd isEnd isEnd read read').1
  rw [next] at joined
  exact ⟨noEnd, noEnd', isEnd, read', joined⟩

end Lox
