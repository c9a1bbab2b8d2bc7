import Lox.Proofs.Syntax.Recovery

/-!
# The end of the input

A rule looks at one token more than it takes, and never takes the end of the input. So it does the
same on the same tokens before two endings of the input (`Endings`): it takes only tokens before
them, and blames one of these or the end (`Rule.StopsAtEnd`). The skipping of tokens after an error
stops at the end too (`resume_endings`), and so does reading in rounds
(`Program.Reads.exists_alike`).
-/

namespace Lox

/-- Two ways in which the input may go on from its end, which is the same token in both. Where there
are no more tokens, the end is `Token.afterLast`. -/
structure Endings where
  first : List Token
  second : List Token
  same : second.headD .afterLast = first.headD .afterLast
  ends : (first.headD .afterLast).kind = .eof

namespace Endings

variable (E : Endings)

/-- Tokens that were taken, and not the end, stand before the ending. -/
theorem exists_left {tokens taken rest : List Token} (whole : tokens ++ E.first = taken ++ rest)
    (noEnd : ∀ t ∈ taken, t.kind ≠ .eof) :
    ∃ left, rest = left ++ E.first ∧ tokens = taken ++ left := by
  obtain ⟨extra, rfl, e⟩ | ⟨left, rfl, e⟩ := List.append_eq_append_iff.mp whole
  · cases extra with
    | nil => exact ⟨[], e.symm, by rw [List.append_nil, List.append_nil]⟩
    | cons t extra =>
      have ends := E.ends
      rw [e, List.cons_append, List.headD_cons] at ends
      exact absurd ends (noEnd t (List.mem_append_right _ List.mem_cons_self))
  · exact ⟨left, e, rfl⟩

theorem headD_append (tokens : List Token) :
    (tokens ++ E.second).headD .afterLast = (tokens ++ E.first).headD .afterLast := by
  cases tokens with
  | nil => exact E.same
  | cons t tokens => rfl

theorem atEnd_append (tokens : List Token) (id : ExprId) :
    (⟨tokens ++ E.second, id⟩ : Cursor).atEnd = (⟨tokens ++ E.first, id⟩ : Cursor).atEnd :=
  Cursor.atEnd_of_kind (congrArg Token.kind (E.headD_append tokens)) id id

end Endings

/-- What is told about an error: what is wrong, and the token that is blamed. -/
def SyntaxError.told (e : SyntaxError) : SyntaxCause × Token :=
  (e.cause, e.token)

/-! ## Rules -/

namespace Rule

variable {α : Type}

/-- The same has been read, or the same error was found, before the two endings of `tokens`; what is
left and what is blamed are some of the tokens, and the ending. -/
inductive Alike (E : Endings) (tokens : List Token) :
    EStateM.Result SyntaxError Cursor α → EStateM.Result SyntaxError Cursor α → Prop
  | ok {a : α} {left : List Token} {id : ExprId} (inside : left <:+ tokens) :
    Alike E tokens (.ok a ⟨left ++ E.first, id⟩) (.ok a ⟨left ++ E.second, id⟩)
  | error {cause : SyntaxCause} {blamed left : List Token} {id : ExprId}
    (inside : blamed <:+ tokens) (behind : left <:+ blamed) :
    Alike E tokens (.error ⟨cause, blamed ++ E.first⟩ ⟨left ++ E.first, id⟩)
      (.error ⟨cause, blamed ++ E.second⟩ ⟨left ++ E.second, id⟩)

/-- The rule does the same before any two endings of the input, at every depth that is enough. -/
def StopsAtEnd (r : Nat → Rule α) : Prop :=
  ∀ (E : Endings) (tokens : List Token) (id : ExprId) (n n' : Nat),
    depth (tokens ++ E.first) ≤ n → depth (tokens ++ E.second) ≤ n' →
      Alike E tokens (r n ⟨tokens ++ E.first, id⟩) (r n' ⟨tokens ++ E.second, id⟩)

theorem Local.alike {ends : TokenKind → Prop} {len len' : Nat} {takes : Prop} {f : α → α}
    {r r' : Rule α} (h : Local (.behind 0) (· ≠ .eof) ends len len' takes f r r')
    (same : ∀ a, f a = a) (E : Endings) {tokens : List Token} {id : ExprId}
    (short : (tokens ++ E.first).length < len) (short' : (tokens ++ E.second).length < len') :
    Alike E tokens (r ⟨tokens ++ E.first, id⟩) (r' ⟨tokens ++ E.second, id⟩) := by
  cases run : r ⟨tokens ++ E.first, id⟩ with
  | ok a c =>
    obtain ⟨taken, whole, noEnd, -, reads⟩ := h.reads short run
    obtain ⟨rest, id'⟩ := c
    obtain ⟨left, rfl, rfl⟩ := E.exists_left whole noEnd
    rw [List.append_assoc] at short' ⊢
    have run' := reads (left ++ E.second) (by rwa [Setting.behind_moved])
      (.inl (congrArg Token.kind (E.headD_append left)))
    rw [Setting.behind_moved, same] at run'
    exact run' ▸ .ok (List.suffix_append taken left)
  | error e c =>
    obtain ⟨cause, blamed⟩ := e
    obtain ⟨rest, id'⟩ := c
    obtain ⟨before, after, whole, rfl, noEnd, fails⟩ := h.fails short run
    dsimp only at whole fails
    rw [← List.append_assoc] at whole
    obtain ⟨left, rfl, rfl⟩ := E.exists_left whole noEnd
    rw [List.append_assoc, List.append_assoc] at short' ⊢
    have run' := fails (left ++ E.second) (by rwa [Setting.behind_moved, Setting.behind_moved])
      (congrArg Token.kind (E.headD_append left))
    rw [Setting.behind_moved, Setting.behind_moved] at run'
    rw [← List.append_assoc after] at run' ⊢
    exact run' ▸ .error (List.suffix_append before _) (List.suffix_append after left)

theorem stopsAtEnd_of_local {ends : TokenKind → Prop} {rank : Nat} {takes : Prop} {f : α → α}
    {r : Nat → Rule α} (h : ∀ {n n' len len' : Nat}, Deep rank len n → Deep rank len' n' →
      Local (.behind 0) (· ≠ .eof) ends len len' takes f (r n) (r n'))
    (few : rank ≤ 24) (same : ∀ a, f a = a) : StopsAtEnd r := by
  intro E tokens id n n' enough enough'
  unfold depth at enough enough'
  have deep : Deep rank ((tokens ++ E.first).length + 1) n := by omega
  have deep' : Deep rank ((tokens ++ E.second).length + 1) n' := by omega
  exact (h deep deep').alike same E (Nat.lt_succ_self _) (Nat.lt_succ_self _)

theorem stopsAtEnd_wholeExpression (h : StopsAtEnd expression) : StopsAtEnd wholeExpression := by
  intro E tokens id n n' enough enough'
  have alike := h E tokens id n n' enough enough'
  generalize run : expression n ⟨tokens ++ E.first, id⟩ = result at alike
  generalize run' : expression n' ⟨tokens ++ E.second, id⟩ = result' at alike
  cases alike with
  | error inside behind =>
    rw [wholeExpression, wholeExpression, bind_of_error run, bind_of_error run']
    exact .error inside behind
  | @ok _ left id' inside =>
    have asks (c : Cursor) : atEnd c = .ok c.atEnd c := rfl
    rw [wholeExpression, wholeExpression, bind_of_ok run, bind_of_ok run', bind_of_ok (asks _),
      bind_of_ok (asks _), E.atEnd_append]
    split
    · exact .ok inside
    · exact .error inside (List.suffix_refl left)

/-- No rule for expressions looks beyond the end of the input. -/
structure ExpressionsStop : Prop where
  expression : StopsAtEnd expression
  operators (level : Level) : StopsAtEnd (operators · level)
  operatorsFrom (level : Level) (left : Expr) : StopsAtEnd (operatorsFrom · level left)
  operand (level : Level) : StopsAtEnd (operand · level)
  unary : StopsAtEnd unary
  call : StopsAtEnd call
  callFrom (e : Expr) : StopsAtEnd (callFrom · e)
  arguments (count : Nat) : StopsAtEnd (arguments · count)
  primary : StopsAtEnd primary
  wholeExpression : StopsAtEnd wholeExpression

theorem expressionsStop : ExpressionsStop := by
  have rules (n : Nat) : LocalExpressions (.behind 0) (· ≠ .eof) n :=
    localExpressions ne_eof_of_inner (.behind 0) n
  have nesting (level : Level) : level.nesting + 1 ≤ 24 := by cases level <;> decide
  have same (e : Expr) : e.relabel (Setting.behind 0).labels = e := e.relabel_same
  have expression : StopsAtEnd expression :=
    stopsAtEnd_of_local (fun deep deep' => (rules _).expression deep deep') (by decide) same
  refine ⟨expression, fun level => ?_, fun level left => ?_, fun level => ?_, ?_, ?_, fun e => ?_,
    fun count => ?_, ?_, stopsAtEnd_wholeExpression expression⟩
  · exact stopsAtEnd_of_local (fun deep deep' => (rules _).operators level deep deep')
      (nesting level) same
  · refine @stopsAtEnd_of_local _ TokenKind.EndsExpression 1 False _ _ (fun deep deep' => ?_)
      (by decide) same
    have isLocal := (rules _).operatorsFrom level left deep deep'
    rwa [same] at isLocal
  · exact stopsAtEnd_of_local (fun deep deep' => (rules _).operand level deep deep')
      (Nat.le_of_succ_le (nesting level)) same
  · exact stopsAtEnd_of_local (fun deep deep' => (rules _).unary deep deep') (by decide) same
  · exact stopsAtEnd_of_local (fun deep deep' => (rules _).call deep deep') (by decide) same
  · refine @stopsAtEnd_of_local _ TokenKind.EndsExpression 1 False _ _ (fun deep deep' => ?_)
      (by decide) same
    have isLocal := (rules _).callFrom e deep deep'
    rwa [same] at isLocal
  · exact stopsAtEnd_of_local (fun deep deep' => (rules _).arguments count deep deep') (by decide)
      Expr.relabelList_same
  · exact @stopsAtEnd_of_local _ (fun _ => True) _ _ _ _
      (fun deep deep' => (rules _).primary deep deep') (by decide) same

/-- No rule for statements or their parts looks beyond the end of the input. -/
structure StatementsStop : Prop where
  optionalExpression (place : Place) : StopsAtEnd (optionalExpression · place)
  varDecl : StopsAtEnd varDecl
  expressionStmt : StopsAtEnd expressionStmt
  forInitializer : StopsAtEnd forInitializer
  parametersFrom (count : Nat) : StopsAtEnd (parametersFrom · count)
  parameters : StopsAtEnd parameters
  superclass : StopsAtEnd fun _ => superclass
  declaration : StopsAtEnd declaration
  classDecl : StopsAtEnd classDecl
  methods : StopsAtEnd methods
  function (routine : Routine) : StopsAtEnd (function · routine)
  block : StopsAtEnd block
  statement : StopsAtEnd statement
  forStmt : StopsAtEnd forStmt
  ifStmt : StopsAtEnd ifStmt

theorem map_same {f : α → α} (same : ∀ a, f a = a) (a : Option α) : a.map f = a := by
  cases a with
  | none => rfl
  | some a => exact congrArg some (same a)

theorem statementsStop : StatementsStop := by
  have rules (n : Nat) : LocalStatements (.behind 0) n := localStatements (.behind 0) n
  have part {β : Type} {rank : Nat} {takes : Prop} {f : β → β} {r : Nat → Rule β}
      (h : ∀ {n n' len len' : Nat}, Deep rank len n → Deep rank len' n' →
        Local (.behind 0) (· ≠ .eof) TokenKind.EndsExpression len len' takes f (r n) (r n'))
      (few : rank ≤ 24) (same : ∀ b, f b = b) : StopsAtEnd r :=
    stopsAtEnd_of_local h few same
  refine ⟨fun place => ?_, ?_, ?_, ?_, fun count => ?_, ?_, ?_, ?_, ?_, ?_, fun routine => ?_, ?_,
    ?_, ?_, ?_⟩
  · exact part (local_optionalExpression ne_eof_of_inner place) (by decide)
      (map_same Expr.relabel_same)
  · exact part (local_varDecl ne_eof_of_inner) (by decide) Stmt.relabel_same
  · exact part (local_expressionStmt ne_eof_of_inner) (by decide) Stmt.relabel_same
  · exact part (local_forInitializer ne_eof_of_inner) (by decide) (map_same Stmt.relabel_same)
  · exact part (local_parametersFrom ne_eof_of_inner count) (by decide) List.map_id
  · exact part (local_parameters ne_eof_of_inner) (by decide) List.map_id
  · exact @stopsAtEnd_of_local _ _ 0 _ _ _ (fun _ _ => local_superclass ne_eof_of_inner)
      (by decide) (map_same fun _ => rfl)
  · exact stopsAtEnd_of_local (rules _).declaration (by decide) Stmt.relabel_same
  · exact stopsAtEnd_of_local (rules _).classDecl (by decide) Stmt.relabel_same
  · exact stopsAtEnd_of_local (rules _).methods (by decide) FunctionDecl.relabelList_same
  · exact stopsAtEnd_of_local ((rules _).function routine) (by decide) FunctionDecl.relabel_same
  · exact stopsAtEnd_of_local (rules _).block (by decide) Stmt.relabelList_same
  · exact stopsAtEnd_of_local (rules _).statement (by decide) Stmt.relabel_same
  · exact stopsAtEnd_of_local (rules _).forStmt (by decide) Stmt.relabel_same
  · exact stopsAtEnd_of_local (rules _).ifStmt (by decide) Stmt.relabel_same

end Rule

/-! ## Recovery -/

theorem resumeFrom_of_end {ts : List Token} (ended : (ts.headD .afterLast).kind = .eof)
    (previous : TokenKind) : resumeFrom previous ts = ts := by
  cases ts with
  | nil => rfl
  | cons t ts =>
    have ended : t.kind = .eof := ended
    simp only [resumeFrom, ended]

theorem resume_of_end {ts : List Token} (ended : (ts.headD .afterLast).kind = .eof) :
    resume ts = ts := by
  cases ts with
  | nil => rfl
  | cons t ts => rw [resume, show t.kind = .eof from ended]

theorem resumeFrom_endings (E : Endings) (previous : TokenKind) (tokens : List Token) :
    ∃ left, left <:+ tokens ∧ resumeFrom previous (tokens ++ E.first) = left ++ E.first ∧
      resumeFrom previous (tokens ++ E.second) = left ++ E.second := by
  induction tokens generalizing previous with
  | nil =>
    exact ⟨[], List.suffix_refl [], resumeFrom_of_end E.ends _,
      resumeFrom_of_end (E.same ▸ E.ends) _⟩
  | cons t tokens ih =>
    simp only [List.cons_append, resumeFrom]
    split
    · exact ⟨t :: tokens, List.suffix_refl _, rfl, rfl⟩
    · exact ⟨t :: tokens, List.suffix_refl _, rfl, rfl⟩
    · split
      · exact ⟨t :: tokens, List.suffix_refl _, rfl, rfl⟩
      · obtain ⟨left, inside, first, second⟩ := ih t.kind
        exact ⟨left, inside.trans (List.suffix_cons t tokens), first, second⟩

/-- What is skipped after an error are tokens before the end. -/
theorem resume_endings (E : Endings) (tokens : List Token) :
    ∃ left, left <:+ tokens ∧ resume (tokens ++ E.first) = left ++ E.first ∧
      resume (tokens ++ E.second) = left ++ E.second := by
  cases tokens with
  | nil => exact ⟨[], List.suffix_refl [], resume_of_end E.ends, resume_of_end (E.same ▸ E.ends)⟩
  | cons t tokens =>
    simp only [List.cons_append, resume]
    split
    · exact ⟨t :: tokens, List.suffix_refl _, rfl, rfl⟩
    · obtain ⟨left, inside, first, second⟩ := resumeFrom_endings E t.kind tokens
      exact ⟨left, inside.trans (List.suffix_cons t tokens), first, second⟩

/-! ## Programs and single expressions -/

/-- The program is the same, and so is what is told about its errors. -/
structure Program.Alike (p p' : Program) : Prop where
  statements : p'.statements = p.statements
  errors : p'.errors.map SyntaxError.told = p.errors.map SyntaxError.told
  nextId : p'.nextId = p.nextId

theorem depth_le_of_suffix {left tokens : List Token} (inside : left <:+ tokens)
    (ending : List Token) : depth (left ++ ending) ≤ depth (tokens ++ ending) := by
  have fewer := inside.length_le
  unfold depth
  rw [List.length_append, List.length_append]
  omega

namespace Program

/-- Reading in rounds does the same before both endings. -/
theorem Reads.exists_alike (E : Endings) {n n' : Nat} {tokens : List Token} {id : ExprId}
    {p : Program} (reads : Reads n ⟨tokens ++ E.first, id⟩ p)
    (enough : depth (tokens ++ E.first) ≤ n) (enough' : depth (tokens ++ E.second) ≤ n') :
    ∃ p', Reads n' ⟨tokens ++ E.second, id⟩ p' ∧ p.Alike p' := by
  generalize start : (⟨tokens ++ E.first, id⟩ : Cursor) = c at reads
  induction reads generalizing tokens id with
  | ended atEnd =>
    subst start
    exact ⟨_, .ended (E.atEnd_append tokens id ▸ atEnd), rfl, rfl, rfl⟩
  | declaration more read rest ih =>
    subst start
    have alike := Rule.statementsStop.declaration E tokens id n n' enough enough'
    rw [read] at alike
    generalize read' : Rule.declaration n' ⟨tokens ++ E.second, id⟩ = result at alike
    cases alike with
    | ok inside =>
      obtain ⟨p', reads', same⟩ := ih ((depth_le_of_suffix inside _).trans enough)
        ((depth_le_of_suffix inside _).trans enough') rfl
      refine ⟨_, .declaration (E.atEnd_append tokens id ▸ more) read' reads', ?_⟩
      exact ⟨congrArg (List.cons _) same.statements, same.errors, same.nextId⟩
  | recovery more failed rest ih =>
    subst start
    have alike := Rule.statementsStop.declaration E tokens id n n' enough enough'
    rw [failed] at alike
    generalize failed' : Rule.declaration n' ⟨tokens ++ E.second, id⟩ = result at alike
    cases alike with
    | @error cause blamed left id' inside behind =>
      obtain ⟨left', inside', first, second⟩ := resume_endings E left
      have inside' := inside'.trans (behind.trans inside)
      have next : (⟨left' ++ E.first, id'⟩ : Cursor) = ⟨resume (left ++ E.first), id'⟩ := by
        rw [first]
      obtain ⟨p', reads', same⟩ := ih ((depth_le_of_suffix inside' _).trans enough)
        ((depth_le_of_suffix inside' _).trans enough') next
      rw [← second] at reads'
      refine ⟨_, .recovery (E.atEnd_append tokens id ▸ more) failed' reads', ?_⟩
      refine ⟨same.statements, ?_, same.nextId⟩
      have told : SyntaxError.told ⟨cause, blamed ++ E.second⟩ =
          SyntaxError.told ⟨cause, blamed ++ E.first⟩ :=
        congrArg (Prod.mk cause) (E.headD_append blamed)
      exact congrArg₂ List.cons told same.errors

theorem ofTokens_endings (E : Endings) (tokens : List Token) :
    (ofTokens (tokens ++ E.first)).Alike (ofTokens (tokens ++ E.second)) := by
  obtain ⟨p', reads', same⟩ :=
    (reads_ofTokens (tokens ++ E.first)).exists_alike E (Nat.le_refl _) (Nat.le_refl _)
  rwa [← reads'.readFrom_eq (deep_depth _) (deep_depth _) (Nat.le_refl _)] at same

end Program

theorem Expr.ofTokens_endings (E : Endings) (tokens : List Token) :
    (Expr.ofTokens (tokens ++ E.second)).mapError SyntaxError.told =
      (Expr.ofTokens (tokens ++ E.first)).mapError SyntaxError.told := by
  have alike := Rule.expressionsStop.wholeExpression E tokens 0 _ _ (Nat.le_refl _) (Nat.le_refl _)
  generalize run : Rule.wholeExpression _ _ = result at alike
  generalize run' : Rule.wholeExpression _ (⟨tokens ++ E.second, 0⟩ : Cursor) = result' at alike
  rw [Expr.ofTokens, Expr.ofTokens, run, run']
  cases alike with
  | ok => rfl
  | @error cause blamed _ _ _ _ =>
    exact congrArg Except.error (congrArg (Prod.mk cause) (E.headD_append blamed))

/-- Tokens behind the end of the input are not read, and it makes no difference whether the end is
marked. No rule, and no skipping of tokens after an error, takes the end or looks beyond it. -/
theorem nothing_is_read_beyond_end (tokens behind : List Token) {ending : Token}
    (ends : ending.kind = .eof) :
    (Program.ofTokens (tokens ++ [ending])).Alike (Program.ofTokens (tokens ++ ending :: behind)) ∧
    (Program.ofTokens tokens).Alike (Program.ofTokens (tokens ++ [.afterLast])) ∧
    (Expr.ofTokens (tokens ++ ending :: behind)).mapError SyntaxError.told =
      (Expr.ofTokens (tokens ++ [ending])).mapError SyntaxError.told ∧
    (Expr.ofTokens (tokens ++ [.afterLast])).mapError SyntaxError.told =
      (Expr.ofTokens tokens).mapError SyntaxError.told ∧
    Rule.ExpressionsStop ∧ Rule.StatementsStop ∧
    ∀ (E : Endings) (left : List Token), ∃ left', left' <:+ left ∧
      resume (left ++ E.first) = left' ++ E.first ∧
      resume (left ++ E.second) = left' ++ E.second := by
  let longer : Endings := ⟨[ending], ending :: behind, rfl, ends⟩
  let unmarked : Endings := ⟨[], [.afterLast], rfl, rfl⟩
  have program := Program.ofTokens_endings unmarked tokens
  have expression := Expr.ofTokens_endings unmarked tokens
  rw [show tokens ++ unmarked.first = tokens from List.append_nil _] at program expression
  exact ⟨Program.ofTokens_endings longer tokens, program, Expr.ofTokens_endings longer tokens,
    expression, Rule.expressionsStop, Rule.statementsStop, resume_endings⟩

/-- In `) print` the second error is found at the end, whatever stands there and behind it. -/
theorem error_is_found_at_end :
    let tokens : List Token := [⟨.symbol .rightParen, ")", 1⟩, ⟨.keyword .print, "print", 1⟩]
    let behind : List Token := [⟨.identifier, "a", 3⟩, ⟨.symbol .semicolon, ";", 3⟩, ⟨.eof, "", 3⟩]
    (Program.ofTokens (tokens ++ ⟨.eof, "", 2⟩ :: behind)).errors.map SyntaxError.told =
        [(.missingExpression, ⟨.symbol .rightParen, ")", 1⟩), (.missingExpression, ⟨.eof, "", 2⟩)] ∧
      (Program.ofTokens (tokens ++ [.afterLast])).errors.map SyntaxError.told =
        [(.missingExpression, ⟨.symbol .rightParen, ")", 1⟩), (.missingExpression, .afterLast)] := by
  intro tokens behind
  have marked : (Program.ofTokens (tokens ++ [⟨.eof, "", 2⟩])).errors.map SyntaxError.told =
      [(.missingExpression, ⟨.symbol .rightParen, ")", 1⟩),
        (.missingExpression, ⟨.eof, "", 2⟩)] := by
    cbv
  have unmarked : (Program.ofTokens tokens).errors.map SyntaxError.told =
      [(.missingExpression, ⟨.symbol .rightParen, ")", 1⟩), (.missingExpression, .afterLast)] := by
    cbv
  have ends : (⟨.eof, "", 2⟩ : Token).kind = .eof := rfl
  obtain ⟨longer, same, -⟩ := nothing_is_read_beyond_end tokens behind ends
  exact ⟨longer.errors.trans marked, same.errors.trans unmarked⟩

end Lox
