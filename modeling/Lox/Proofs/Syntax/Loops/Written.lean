import Lox.Proofs.Syntax.Completeness.Steps
import Lox.Proofs.Syntax.Local.Statements
import Lox.Proofs.Syntax.Renumbered

/-!
# Two ways to write a loop

A `for` loop can be written as a `while` loop (`Loop.written`): the initializer goes before it, in a
block around both, the increment behind the body, in a block of both, and a condition that is left
out is `true`. If its parts stand as the grammar asks (`Loop.Stands`), both ways are read as the
same statement, but for the numbers of its nodes (`Loop.Reads.tokens`, `Loop.Reads.written`).
-/

namespace Lox

/-- The tokens of a `for` loop. -/
structure Loop where
  keyword : Token
  opening : Token
  initializer : List Token
  first : Token
  condition : List Token
  second : Token
  increment : List Token
  closing : Token
  body : List Token

namespace Rule

variable {α β : Type} {kinds ends : TokenKind → Prop} {len len' : Nat}

/-- Given the tokens, the rule reads something and leaves `rest`. -/
def Takes (r : Nat → Rule α) (tokens rest : List Token) : Prop :=
  ∃ a id, r (depth tokens) ⟨tokens, 0⟩ = .ok a ⟨rest, id⟩

end Rule

namespace Loop

/-- The loop as a `for` loop. -/
def tokens (l : Loop) : List Token :=
  l.keyword :: l.opening :: (l.initializer ++ l.first ::
    (l.condition ++ l.second :: (l.increment ++ l.closing :: l.body)))

/-- The condition of the `while` loop. -/
def guard (l : Loop) (outer : TokenKind → Token) : List Token :=
  if l.condition = [] then [outer (.keyword .true)] else l.condition

/-- The body of the `while` loop. -/
def round (l : Loop) (inner : TokenKind → Token) : List Token :=
  if l.increment = [] then l.body
  else inner (.symbol .leftBrace) :: (l.body ++
    (l.increment ++ [inner (.symbol .semicolon), inner (.symbol .rightBrace)]))

/-- The loop as a `while` loop. What the `for` loop has no tokens for is taken from `outer` and
`inner`, from `inner` what belongs to the block with the increment. -/
def written (l : Loop) (outer inner : TokenKind → Token) : List Token :=
  let loop := outer (.keyword .while) :: outer (.symbol .leftParen) ::
    (l.guard outer ++ outer (.symbol .rightParen) :: l.round inner)
  if l.initializer = [] then loop
  else outer (.symbol .leftBrace) :: (l.initializer ++ l.first ::
    (loop ++ [outer (.symbol .rightBrace)]))

/-- Before the tokens `back`, the tokens of the loop are what the grammar asks for. -/
structure Stands (l : Loop) (back : List Token) : Prop where
  keyword : l.keyword.kind = .keyword .for
  opening : l.opening.kind = .symbol .leftParen
  initializer : Rule.Takes Rule.forInitializer (l.initializer ++ [l.first]) []
  first : l.first.kind = .symbol .semicolon
  condition : l.condition = [] ∨ Rule.Takes Rule.expression l.condition []
  second : l.second.kind = .symbol .semicolon
  increment : l.increment = [] ∨ Rule.Takes Rule.expression l.increment []
  closing : l.closing.kind = .symbol .rightParen
  body : Rule.Takes Rule.statement (l.body ++ back) back

end Loop

namespace Rule

variable {α β : Type} {kinds ends : TokenKind → Prop} {len len' : Nat}

/-! ## Reading again -/

/-- The rule reads the tokens up to `rest`, always as `a` but for the numbers of nodes, which `u`
does not see. -/
abbrev ReadsAs (u : α → α) (r : Rule α) (tokens rest : List Token) (a : α) : Prop :=
  Reads r tokens rest fun b => u b = u a

/-- What a rule reads once, it reads wherever its tokens stand before the next one, and whatever
numbers have been given. -/
theorem reads_of_local {takes : Prop} {f : Nat → α → α} {u : α → α} {r r' : Rule α}
    (own : ∀ ids, Local (.behind ids) kinds ends len len takes (f ids) r r)
    (other : ∀ ids, Local (.behind ids) kinds ends len len' takes (f ids) r r')
    (unseen : ∀ ids a, u (f ids a) = u a) {ts : List Token} {id : ExprId} {a : α}
    {c : Cursor} (short : ts.length < len) (run : r ⟨ts, id⟩ = .ok a c) :
    ∃ taken, ts = taken ++ c.rest ∧ (∀ t ∈ taken, kinds t.kind) ∧ (takes → taken ≠ []) ∧
      ∀ ts', (taken ++ ts').length < len' → Meets ends c.rest ts' →
        ReadsAs u r' (taken ++ ts') ts' a := by
  -- The rule has the same run with the number 0 at the first node, and all others follow from it.
  obtain ⟨a₀, c₀, run₀, same, rest⟩ : ∃ a₀ c₀, r ⟨ts, 0⟩ = .ok a₀ c₀ ∧ u a₀ = u a ∧
      c₀.rest = c.rest := by
    cases run₀ : r ⟨ts, 0⟩ with
    | ok a₀ c₀ =>
      obtain ⟨taken, rfl, -, -, reads⟩ := (own id).reads short run₀
      have run' := reads c₀.rest (by rwa [Setting.behind_moved]) (.inl rfl)
      rw [Setting.behind_moved, Nat.zero_add] at run'
      cases run.symm.trans run'
      exact ⟨a₀, c₀, rfl, (unseen id a₀).symm, rfl⟩
    | error e c₀ =>
      obtain ⟨cause, _⟩ := e
      obtain ⟨before, after, rfl, rfl, -, fails⟩ := (own id).fails short run₀
      have run' := fails c₀.rest (by rwa [Setting.behind_moved, Setting.behind_moved]) rfl
      rw [Setting.behind_moved, Setting.behind_moved, Nat.zero_add] at run'
      cases run.symm.trans run'
  obtain ⟨taken, e, ofKind, some, -⟩ := (other 0).reads short run₀
  rw [rest] at e
  refine ⟨taken, e, ofKind, some, fun ts' short' meets ids => ?_⟩
  obtain ⟨taken', e', -, -, reads⟩ := (other ids).reads short run₀
  rw [rest] at e' reads
  obtain rfl : taken' = taken := List.append_cancel_right (e'.symm.trans e)
  have run' := reads ts' (by rwa [Setting.behind_moved]) meets
  rw [Setting.behind_moved, Nat.zero_add] at run'
  exact ⟨_, _, (unseen ids a₀).trans same, run'⟩

/-- At every depth that is enough, the rule reads the same from the same tokens, but for the numbers
of nodes, which `u` does not see, and looks at the next token only. -/
def Steady (kinds ends : TokenKind → Prop) (rank : Nat) (u : α → α) (r : Nat → Rule α) : Prop :=
  ∃ f : Nat → α → α, (∀ ids a, u (f ids a) = u a) ∧ ∀ {ids n n' len len'}, Deep rank len n →
    Deep rank len' n' → Local (.behind ids) kinds ends len len' True (f ids) (r n) (r n')

/-- The tokens that have been read can be read again, before others. -/
theorem Steady.again {rank : Nat} {u : α → α} {r : Nat → Rule α} (h : Steady kinds ends rank u r)
    {n : Nat} {ts rest : List Token} {id id' : ExprId} {a : α}
    (deep : 24 * (ts ++ rest).length + rank ≤ n) (run : r n ⟨ts ++ rest, id⟩ = .ok a ⟨rest, id'⟩)
    {n' : Nat} {ts' : List Token} (deep' : 24 * (ts ++ ts').length + rank ≤ n')
    (meets : Meets ends rest ts') : ReadsAs u (r n') (ts ++ ts') ts' a := by
  obtain ⟨f, unseen, isLocal⟩ := h
  have enough : Deep rank ((ts ++ rest).length + 1) n := by omega
  have enough' : Deep rank ((ts ++ ts').length + 1) n' := by omega
  obtain ⟨taken, e, -, -, reads⟩ :=
    reads_of_local (fun _ => isLocal enough enough) (fun _ => isLocal enough enough') unseen
      (Nat.lt_succ_self _) run
  obtain rfl : ts = taken := List.append_cancel_right e
  exact reads ts' (Nat.lt_succ_self _) meets

theorem map_map_of_unseen {f u : α → α} (unseen : ∀ a, u (f a) = u a) (a : Option α) :
    (a.map f).map u = a.map u := by
  cases a with
  | none => rfl
  | some a => exact congrArg some (unseen a)

theorem inner_of_inner (kind : TokenKind) (inner : kind.Inner) : kind.Inner :=
  inner

/-- Anything may come next. -/
theorem anyEnd {ts ts' : List Token} : Meets (fun _ => True) ts ts' :=
  .inr trivial

theorem steady_expression :
    Steady TokenKind.Inner TokenKind.EndsExpression 16 (Expr.relabel .numberless) expression :=
  ⟨fun ids => Expr.relabel (Setting.behind ids).labels,
    fun _ e => e.relabel_relabel _ .numberless,
    fun deep deep' => (localExpressions inner_of_inner _ _).expression deep deep'⟩

theorem steady_optionalExpression (place : Place) :
    Steady TokenKind.Inner (fun _ => True) 16 (Option.map (Expr.relabel .numberless))
      (optionalExpression · place) :=
  ⟨fun ids => Option.map (Expr.relabel (Setting.behind ids).labels),
    fun _ => map_map_of_unseen fun e => e.relabel_relabel _ .numberless,
    fun deep deep' => local_optionalExpression inner_of_inner place deep deep'⟩

theorem steady_varDecl :
    Steady TokenKind.Inner (fun _ => True) 1 (Stmt.relabel .numberless) varDecl :=
  ⟨fun ids => Stmt.relabel (Setting.behind ids).labels,
    fun _ s => s.relabel_relabel _ .numberless,
    fun deep deep' => local_varDecl inner_of_inner deep deep'⟩

theorem steady_expressionStmt :
    Steady TokenKind.Inner (fun _ => True) 16 (Stmt.relabel .numberless) expressionStmt :=
  ⟨fun ids => Stmt.relabel (Setting.behind ids).labels,
    fun _ s => s.relabel_relabel _ .numberless,
    fun deep deep' => local_expressionStmt inner_of_inner deep deep'⟩

theorem steady_forInitializer :
    Steady TokenKind.Inner (fun _ => True) 16 (Option.map (Stmt.relabel .numberless))
      forInitializer :=
  ⟨fun ids => Option.map (Stmt.relabel (Setting.behind ids).labels),
    fun _ => map_map_of_unseen fun s => s.relabel_relabel _ .numberless,
    fun deep deep' => local_forInitializer inner_of_inner deep deep'⟩

theorem steady_parameters : Steady TokenKind.Inner (fun _ => True) 1 id parameters :=
  ⟨fun ids => List.map (Lexeme.relabel (Setting.behind ids).labels),
    fun _ params => List.map_id params,
    fun deep deep' => local_parameters inner_of_inner deep deep'⟩

theorem steady_statement :
    Steady (· ≠ .eof) TokenKind.EndsStatement 17 (Stmt.relabel .numberless) statement :=
  ⟨fun ids => Stmt.relabel (Setting.behind ids).labels,
    fun _ s => s.relabel_relabel _ .numberless,
    fun deep deep' => (localStatements _ _).statement deep deep'⟩

/-! ## Beginnings -/

theorem reads_mono {r : Rule α} {tokens rest : List Token} {P Q : α → Prop}
    (h : Reads r tokens rest P) (imp : ∀ a, P a → Q a) : Reads r tokens rest Q := by
  intro id
  obtain ⟨a, id', ha, run⟩ := h id
  exact ⟨a, id', imp a ha, run⟩

theorem Refuses.avoids {kind : TokenKind} {r : Rule α} {tokens rest : List Token} {P : α → Prop}
    (h : Refuses kind r) (reads : Reads r tokens rest P) : Avoids kind tokens := by
  intro t first isKind
  obtain ⟨ts, rfl⟩ := List.head?_eq_some_iff.mp first
  obtain ⟨a, id, -, run⟩ := reads 0
  exact h t ts 0 a _ isKind run

section
variable {n : Nat} {tokens rest : List Token} {P : Stmt → Prop}

theorem reads_statement_of_expressionStmt (h : Reads (expressionStmt n) tokens rest P) :
    Reads (statement (n + 1)) tokens rest P := by
  have avoids {kind : TokenKind} (unread : UnaryOp.ofKind? kind = none)
      (unread' : Atom.ofKind? kind = none) : Avoids kind tokens :=
    Refuses.avoids (refuses_bind (refuses_expression unread unread' n)) h
  iterate 5 refine skip_keyword? (avoids rfl rfl) ?_
  exact skip_symbol? (avoids rfl rfl) h

theorem reads_declaration_of_statement (h : Reads (statement n) tokens rest P) :
    Reads (declaration (n + 1)) tokens rest P := by
  iterate 3 refine skip_keyword? ((refuses_statement (by simp) n).avoids h) ?_
  exact h

theorem reads_declaration_of_varDecl {t : Token} (isVar : t.kind = .keyword .var)
    (h : Reads (varDecl n) tokens rest P) : Reads (declaration (n + 1)) (t :: tokens) rest P := by
  refine skip_keyword? (avoids_cons isVar nofun) ?_
  refine skip_keyword? (avoids_cons isVar nofun) ?_
  exact take_keyword? isVar h

/-! ## Statements of known parts -/

theorem reads_block_cons {mid : List Token} {Q : List Stmt → Prop} (some : tokens ≠ [])
    (first : Reads (declaration n) tokens mid P) (later : Reads (block n) mid rest Q) :
    Reads (block (n + 1)) tokens rest fun ss => ∃ a as, P a ∧ Q as ∧ ss = a :: as := by
  have avoids {kind : TokenKind} (h : kind ∈ [.keyword .else, .symbol .rightBrace, .eof]) :
      Avoids kind tokens := (refuses_declaration h n).avoids first
  refine skip_symbol? (avoids (by simp)) ?_
  obtain ⟨t, ts, rfl⟩ := List.exists_cons_of_ne_nil some
  refine skip_atEnd rfl (avoids (by simp) t rfl) ?_
  refine take first fun a ha => take later fun as has => leads_self ⟨a, as, ha, has, rfl⟩

theorem reads_block_nil {t : Token} (closes : t.kind = .symbol .rightBrace) :
    Reads (block (n + 1)) (t :: rest) rest (· = []) :=
  take_symbol? closes (leads_self rfl)

/-- A block of two. -/
theorem reads_pair {opening closing : Token} (opens : opening.kind = .symbol .leftBrace)
    (closes : closing.kind = .symbol .rightBrace) {mid : List Token} {Q : Stmt → Prop}
    (some : tokens ≠ []) (some' : mid ≠ []) (first : Reads (declaration (n + 2)) tokens mid P)
    (second : Reads (declaration (n + 1)) mid (closing :: rest) Q) :
    Reads (statement (n + 4)) (opening :: tokens) rest fun s =>
      ∃ a b, P a ∧ Q b ∧ s = .block [a, b] := by
  iterate 5 refine skip_keyword? (avoids_cons opens nofun) ?_
  refine take_symbol? opens ?_
  have inside := reads_block_cons some first
    (reads_block_cons some' second (reads_block_nil closes))
  refine take inside ?_
  rintro _ ⟨a, _, ha, ⟨b, _, hb, rfl, rfl⟩, rfl⟩
  exact leads_self ⟨a, b, ha, hb, rfl⟩

theorem reads_while {keyword opening closing : Token} (isWhile : keyword.kind = .keyword .while)
    (opens : opening.kind = .symbol .leftParen) (closes : closing.kind = .symbol .rightParen)
    {mid : List Token} {Q : Expr → Prop}
    (condition : Reads (expression n) tokens (closing :: mid) Q)
    (body : Reads (statement n) mid rest P) :
    Reads (statement (n + 1)) (keyword :: opening :: tokens) rest fun s =>
      ∃ c b, Q c ∧ P b ∧ s = .while c b := by
  iterate 4 refine skip_keyword? (avoids_cons isWhile nofun) ?_
  refine take_keyword? isWhile ?_
  refine take_expect opens ?_
  refine take condition fun c hc => ?_
  refine take_expect closes ?_
  exact take body fun b hb => leads_self ⟨c, b, hc, hb, rfl⟩

theorem reads_expressionStmt {semicolon : Token} (ends : semicolon.kind = .symbol .semicolon)
    {Q : Expr → Prop} (h : Reads (expression n) tokens (semicolon :: rest) Q) :
    Reads (expressionStmt n) tokens rest fun s => ∃ e, Q e ∧ s = .expression e :=
  take h fun e he => take_expect ends (leads_self ⟨e, he, rfl⟩)

end

/-! ## The initializer -/

section
variable {ts : List Token} {id : ExprId} {b : β} {c : Cursor}

/-- A step that takes tokens of one kind only. -/
theorem run_mark {read : TokenKind → Option Unit} (kind : TokenKind)
    (only : ∀ other, read other ≠ none ↔ other = kind) (more : kind ≠ .eof)
    {k : Option Lexeme → Rule β}
    (run : ((do return (← accept? read).map Prod.snd) >>= k) ⟨ts, id⟩ = .ok b c) :
    (∃ t rest, ts = t :: rest ∧ t.kind = kind ∧
      k (some ⟨t.lexeme, t.line⟩) ⟨rest, id⟩ = .ok b c) ∨ k none ⟨ts, id⟩ = .ok b c := by
  simp only [bind_assoc, pure_bind] at run
  cases ts with
  | nil => exact .inr run
  | cons t rest =>
    by_cases isKind : t.kind = kind
    · obtain ⟨a, isRead⟩ := Option.ne_none_iff_exists'.mp ((only t.kind).mpr isKind)
      rw [bind_of_ok (accept?_of_some (isKind ▸ more) isRead)] at run
      exact .inl ⟨t, rest, rfl, isKind, run⟩
    · have unread : read t.kind = none := by
        by_contra isRead
        exact isKind ((only t.kind).mp isRead)
      rw [bind_of_ok (accept?_of_none (.inr unread))] at run
      exact .inr run

theorem run_symbol? {s : Symbol} {k : Option Lexeme → Rule β}
    (run : (symbol? s >>= k) ⟨ts, id⟩ = .ok b c) :
    (∃ t rest, ts = t :: rest ∧ t.kind = .symbol s ∧
      k (some ⟨t.lexeme, t.line⟩) ⟨rest, id⟩ = .ok b c) ∨ k none ⟨ts, id⟩ = .ok b c :=
  run_mark (.symbol s) (fun other => by cases other <;> simp) nofun run

theorem run_keyword? {w : Keyword} {k : Option Lexeme → Rule β}
    (run : (keyword? w >>= k) ⟨ts, id⟩ = .ok b c) :
    (∃ t rest, ts = t :: rest ∧ t.kind = .keyword w ∧
      k (some ⟨t.lexeme, t.line⟩) ⟨rest, id⟩ = .ok b c) ∨ k none ⟨ts, id⟩ = .ok b c :=
  run_mark (.keyword w) (fun other => by cases other <;> simp) nofun run

/-- The initializer of a loop is nothing, a declaration of a variable, or an expression. -/
theorem forInitializer_cases {n : Nat} {initializer : Option Stmt}
    (run : forInitializer n ⟨ts, id⟩ = .ok initializer c) :
    (∃ t, ts = t :: c.rest ∧ t.kind = .symbol .semicolon ∧ initializer = none) ∨
      (∃ t rest s, ts = t :: rest ∧ t.kind = .keyword .var ∧ initializer = some s ∧
        varDecl n ⟨rest, id⟩ = .ok s c) ∨
      ∃ s, initializer = some s ∧ expressionStmt n ⟨ts, id⟩ = .ok s c := by
  have map_eq_ok {r : Rule Stmt} {c₀ : Cursor} (h : (some <$> r) c₀ = .ok initializer c) :
      ∃ s, initializer = some s ∧ r c₀ = .ok s c := by
    replace h : EStateM.map some r c₀ = .ok initializer c := h
    unfold EStateM.map at h
    split at h <;> cases h
    rename_i s run'
    exact ⟨s, rfl, run'⟩
  obtain ⟨t, rest, rfl, isFirst, run⟩ | run := run_symbol? run
  · cases run
    exact .inl ⟨t, rfl, isFirst, rfl⟩
  obtain ⟨t, rest, rfl, isVar, run⟩ | run := run_keyword? run
  · obtain ⟨s, isSome, run'⟩ := map_eq_ok run
    exact .inr (.inl ⟨t, rest, s, rfl, isVar, isSome, run'⟩)
  · exact .inr (.inr (map_eq_ok run))

end

/-! ## Optional expressions -/

/-- The tokens of an expression, or of none. -/
structure ReadsOptional (ts : List Token) (e : Option Expr) : Prop where
  absent : ts = [] → e = none
  present : ts ≠ [] → ∃ e', e = some e' ∧ ∀ {n rest}, 24 * (ts ++ rest).length + 16 ≤ n →
    Meets TokenKind.EndsExpression [] rest →
      ReadsAs (Expr.relabel .numberless) (expression n) (ts ++ rest) rest e'

theorem exists_readsOptional {ts : List Token} (h : ts = [] ∨ Takes expression ts []) :
    ∃ e, ReadsOptional ts e := by
  by_cases absent : ts = []
  · exact ⟨none, fun _ => rfl, fun present => absurd absent present⟩
  · obtain ⟨e, id, run⟩ := h.resolve_left absent
    refine ⟨some e, fun absent' => absurd absent' absent, fun _ => ⟨e, rfl, fun deep' meets => ?_⟩⟩
    rw [← List.append_nil ts] at run
    exact steady_expression.again (by unfold depth; omega) run deep' meets

theorem ReadsOptional.optionalExpression {ts rest : List Token} {e : Option Expr} {place : Place}
    {mark : Token} {n : Nat} (h : ReadsOptional ts e) (isMark : mark.kind = .symbol place.symbol)
    (ends : (TokenKind.symbol place.symbol).EndsExpression)
    (unread : UnaryOp.ofKind? (.symbol place.symbol) = none)
    (unread' : Atom.ofKind? (.symbol place.symbol) = none)
    (deep : 24 * (ts ++ mark :: rest).length + 16 ≤ n) :
    ReadsAs (Option.map (Expr.relabel .numberless)) (Rule.optionalExpression n place)
      (ts ++ mark :: rest) rest e := by
  by_cases absent : ts = []
  · subst absent
    obtain rfl := h.absent rfl
    exact take_symbol? isMark (leads_self rfl)
  · obtain ⟨e', rfl, reads⟩ := h.present absent
    have inner := reads deep (.inr (isMark ▸ ends))
    refine skip_symbol? ((refuses_expression unread unread' n).avoids inner) ?_
    refine take inner fun e'' same => take_expect isMark (leads_self ?_)
    exact congrArg some same

end Rule

namespace Loop

open Rule

/-- What the parts of a loop are read as. -/
structure Reads (l : Loop) (back : List Token) (start : Option Stmt) (test step : Option Expr)
    (inside : Stmt) : Prop where
  initializer {n rest} (deep : 24 * (l.initializer ++ l.first :: rest).length + 16 ≤ n) :
    ReadsAs (Option.map (Stmt.relabel .numberless)) (forInitializer n)
      (l.initializer ++ l.first :: rest) rest start
  absent : l.initializer = [] → start = none
  present : l.initializer ≠ [] → ∃ s, start = some s ∧
    ∀ {n rest}, 24 * (l.initializer ++ l.first :: rest).length + 18 ≤ n →
      ReadsAs (Stmt.relabel .numberless) (declaration n) (l.initializer ++ l.first :: rest) rest s
  condition : ReadsOptional l.condition test
  increment : ReadsOptional l.increment step
  body {n rest} (deep : 24 * (l.body ++ rest).length + 17 ≤ n)
    (meets : Meets TokenKind.EndsStatement back rest) :
    ReadsAs (Stmt.relabel .numberless) (statement n) (l.body ++ rest) rest inside

variable {l : Loop} {back : List Token}

theorem Stands.initializer_reads (h : l.Stands back) : ∃ start : Option Stmt,
    (∀ {n rest}, 24 * (l.initializer ++ l.first :: rest).length + 16 ≤ n →
      ReadsAs (Option.map (Stmt.relabel .numberless)) (forInitializer n)
        (l.initializer ++ l.first :: rest) rest start) ∧
    (l.initializer = [] → start = none) ∧
    (l.initializer ≠ [] → ∃ s, start = some s ∧
      ∀ {n rest}, 24 * (l.initializer ++ l.first :: rest).length + 18 ≤ n →
        ReadsAs (Stmt.relabel .numberless) (declaration n) (l.initializer ++ l.first :: rest)
          rest s) := by
  obtain ⟨start, id, run⟩ := h.initializer
  have deep : 24 * (l.initializer ++ [l.first] ++ []).length + 18 ≤
      depth (l.initializer ++ [l.first]) := by
    rw [List.append_nil, depth]
    omega
  generalize depth _ = m at run deep
  rw [← List.append_nil (l.initializer ++ [l.first])] at run
  refine ⟨start, fun {n rest} deep' => ?_, fun absent => ?_, fun present => ?_⟩
  · rw [List.append_cons] at deep' ⊢
    exact steady_forInitializer.again (by omega) run deep' anyEnd
  · rw [absent] at run
    obtain ⟨-, -, -, rfl⟩ | ⟨_, _, _, ⟨⟩, isVar, -⟩ | ⟨s, -, run'⟩ := forInitializer_cases run
    · rfl
    · cases h.first.symm.trans isVar
    · exact absurd run' (refuses_bind (refuses_expression rfl rfl _) _ _ _ _ _ h.first)
  · obtain ⟨t, ts, e⟩ := List.exists_cons_of_ne_nil present
    rw [e] at run deep ⊢
    obtain ⟨_, none, -⟩ | ⟨_, _, s, ⟨⟩, isVar, rfl, run'⟩ | ⟨s, rfl, run'⟩ :=
      forInitializer_cases run
    · simp at none
    · replace run' : varDecl m ⟨ts ++ [l.first] ++ [], 0⟩ = _ := run'
      refine ⟨s, rfl, fun {n rest} deep' => ?_⟩
      obtain ⟨k, rfl⟩ : ∃ k, n = k + 1 := ⟨n - 1, by omega⟩
      simp only [List.cons_append, List.length_cons] at deep deep' ⊢
      rw [List.append_cons] at deep' ⊢
      exact reads_declaration_of_varDecl isVar
        (steady_varDecl.again (by omega) run' (by omega) anyEnd)
    · replace run' : expressionStmt m ⟨t :: ts ++ [l.first] ++ [], 0⟩ = _ := run'
      refine ⟨s, rfl, fun {n rest} deep' => ?_⟩
      obtain ⟨k, rfl⟩ : ∃ k, n = k + 2 := ⟨n - 2, by omega⟩
      rw [List.append_cons] at deep' ⊢
      exact reads_declaration_of_statement (reads_statement_of_expressionStmt
        (steady_expressionStmt.again (by omega) run' (by omega) anyEnd))

theorem Stands.exists_reads (h : l.Stands back) :
    ∃ start test step inside, l.Reads back start test step inside := by
  obtain ⟨start, initializer, absent, present⟩ := h.initializer_reads
  obtain ⟨test, condition⟩ := exists_readsOptional h.condition
  obtain ⟨step, increment⟩ := exists_readsOptional h.increment
  obtain ⟨inside, id, run⟩ := h.body
  exact ⟨start, test, step, inside, initializer, absent, present, condition, increment,
    steady_statement.again (by unfold depth; omega) run⟩

/-! ## One statement -/

section
variable {start : Option Stmt} {test step : Option Expr} {inside : Stmt}

theorem Reads.tokens (reads : l.Reads back start test step inside) (h : l.Stands back) {n : Nat}
    (deep : 24 * (l.tokens ++ back).length + 17 ≤ n) :
    ReadsAs (Stmt.relabel .numberless) (statement n) (l.tokens ++ back) back
      (loop start test step inside) := by
  obtain ⟨m, rfl⟩ : ∃ m, n = m + 2 := ⟨n - 2, by omega⟩
  simp only [Loop.tokens, List.cons_append, List.append_assoc] at deep ⊢
  simp only [List.length_cons, List.length_append] at deep
  refine take_keyword? h.keyword ?_
  refine take_expect h.opening ?_
  refine take (reads.initializer ?_) fun start' same₁ => ?_
  · simp only [List.length_cons, List.length_append]
    omega
  refine take (reads.condition.optionalExpression h.second ⟨rfl, nofun⟩ rfl rfl ?_)
    fun test' same₂ => ?_
  · simp only [List.length_cons, List.length_append]
    omega
  refine take (reads.increment.optionalExpression h.closing ⟨rfl, nofun⟩ rfl rfl ?_)
    fun step' same₃ => ?_
  · simp only [List.length_cons, List.length_append]
    omega
  refine take (reads.body ?_ (.inl rfl)) fun inside' same₄ => leads_self ?_
  · simp only [List.length_append]
    omega
  · rw [loop_relabel, loop_relabel, same₁, same₂, same₃, same₄]

theorem endsStatement_of_avoids {rest : List Token} (h : Avoids (.keyword .else) rest) :
    Meets TokenKind.EndsStatement back rest := by
  refine .inr ?_
  cases rest with
  | nil => exact nofun
  | cons t ts => exact h t rfl

/-- `true` stands for a condition that is left out. -/
theorem reads_true {t : Token} (isTrue : t.kind = .keyword .true) {n : Nat} {rest : List Token}
    (deep : 24 * (t :: rest).length + 16 ≤ n) (meets : Meets TokenKind.EndsExpression [] rest) :
    ReadsAs (Expr.relabel .numberless) (expression n) (t :: rest) rest (.literal .true) := by
  have run : expression 48 ⟨[t] ++ [], 0⟩ = .ok (.literal .true) ⟨[], 0⟩ := by
    obtain ⟨kind, lexeme, line⟩ := t
    subst isTrue
    rfl
  exact steady_expression.again (Nat.le_of_ble_eq_true rfl) run deep meets

theorem endsExpression_of_kind {t : Token} {kind : TokenKind} {ts ts' : List Token}
    (isKind : t.kind = kind) (ends : kind.EndsExpression) :
    Meets TokenKind.EndsExpression ts (t :: ts') := by
  subst isKind
  exact .inr ends

variable {outer inner : TokenKind → Token} {n : Nat} {rest : List Token}

theorem Reads.guard (reads : l.Reads back start test step inside)
    (made : ∀ kind, (outer kind).kind = kind) (deep : 24 * (l.guard outer ++ rest).length + 16 ≤ n)
    (meets : Meets TokenKind.EndsExpression [] rest) :
    ReadsAs (Expr.relabel .numberless) (expression n) (l.guard outer ++ rest) rest
      (test.getD (.literal .true)) := by
  unfold Loop.guard at deep ⊢
  split at deep
  · rename_i absent
    obtain rfl := reads.condition.absent absent
    rw [if_pos absent]
    exact reads_true (made _) deep meets
  · rename_i present
    obtain ⟨e, rfl, again⟩ := reads.condition.present present
    rw [if_neg present]
    exact again deep meets

theorem Reads.round (reads : l.Reads back start test step inside)
    (made : ∀ kind, (inner kind).kind = kind) (deep : 24 * (l.round inner ++ rest).length + 17 ≤ n)
    (meets : Meets TokenKind.EndsStatement back rest) :
    ReadsAs (Stmt.relabel .numberless) (statement n) (l.round inner ++ rest) rest
      (step.elim inside fun e => .block [inside, .expression e]) := by
  unfold Loop.round at deep ⊢
  split at deep
  · rename_i absent
    obtain rfl := reads.increment.absent absent
    rw [if_pos absent]
    exact reads.body deep meets
  · rename_i present
    obtain ⟨e, rfl, again⟩ := reads.increment.present present
    rw [if_neg present]
    obtain ⟨m, rfl⟩ : ∃ m, n = m + 5 := ⟨n - 5, by omega⟩
    simp only [List.cons_append, List.append_assoc, List.nil_append, List.length_cons,
      List.length_append] at deep ⊢
    have increment : ReadsAs _ (expression m)
        (l.increment ++ inner (.symbol .semicolon) :: inner (.symbol .rightBrace) :: rest)
        (inner (.symbol .semicolon) :: inner (.symbol .rightBrace) :: rest) e :=
      again (by simp only [List.length_append, List.length_cons]; omega)
        (endsExpression_of_kind (made _) ⟨rfl, nofun⟩)
    have noElse : Avoids (.keyword .else) _ := (refuses_expression rfl rfl m).avoids increment
    have first := reads_declaration_of_statement (reads.body (n := m + 2)
      (by simp only [List.length_append, List.length_cons]; omega) (endsStatement_of_avoids noElse))
    have second := reads_declaration_of_statement
      (reads_statement_of_expressionStmt (reads_expressionStmt (made _) increment))
    refine reads_mono (reads_pair (made _) (made _) (by simp) (by simp) first second) ?_
    rintro _ ⟨inside', _, same, ⟨e', same', rfl⟩, rfl⟩
    simp only [Option.elim_some, Stmt.relabel, Stmt.relabelList, same, same']

/-- The loop as a `while` loop, without the initializer. -/
theorem Reads.while (reads : l.Reads back start test step inside)
    (made : ∀ kind, (outer kind).kind = kind) (made' : ∀ kind, (inner kind).kind = kind)
    (deep : 24 * (l.guard outer ++ outer (.symbol .rightParen) :: (l.round inner ++ rest)).length +
      17 ≤ n) (meets : Meets TokenKind.EndsStatement back rest) :
    ReadsAs (Stmt.relabel .numberless) (statement n)
      (outer (.keyword .while) :: outer (.symbol .leftParen) ::
        (l.guard outer ++ outer (.symbol .rightParen) :: (l.round inner ++ rest))) rest
      (loop none test step inside) := by
  obtain ⟨m, rfl⟩ : ∃ m, n = m + 1 := ⟨n - 1, by omega⟩
  have guard : ReadsAs _ (expression m)
      (l.guard outer ++ outer (.symbol .rightParen) :: (l.round inner ++ rest))
      (outer (.symbol .rightParen) :: (l.round inner ++ rest)) _ :=
    reads.guard made (by omega) (endsExpression_of_kind (made _) ⟨rfl, nofun⟩)
  simp only [List.length_append, List.length_cons] at deep
  have round : ReadsAs _ (statement m) (l.round inner ++ rest) rest _ :=
    reads.round made' (by rw [List.length_append]; omega) meets
  refine reads_mono (reads_while (made _) (made _) (made _) guard round) ?_
  rintro _ ⟨test', inside', same, same', rfl⟩
  rw [Stmt.relabel, same, same']
  cases step <;> rfl

theorem Reads.written (reads : l.Reads back start test step inside)
    (made : ∀ kind, (outer kind).kind = kind) (made' : ∀ kind, (inner kind).kind = kind)
    (deep : 24 * (l.written outer inner ++ back).length + 17 ≤ n) :
    ReadsAs (Stmt.relabel .numberless) (statement n) (l.written outer inner ++ back) back
      (loop start test step inside) := by
  unfold Loop.written at deep ⊢
  dsimp only at deep ⊢
  split at deep
  · rename_i absent
    obtain rfl := reads.absent absent
    rw [if_pos absent]
    simp only [List.cons_append, List.append_assoc, List.length_cons] at deep ⊢
    exact reads.while made made' (by omega) (.inl rfl)
  · rename_i present
    obtain ⟨s, rfl, again⟩ := reads.present present
    rw [if_neg present]
    obtain ⟨m, rfl⟩ : ∃ m, n = m + 4 := ⟨n - 4, by omega⟩
    simp only [List.cons_append, List.append_assoc, List.nil_append, List.length_cons,
      List.length_append] at deep ⊢
    have noElse : Avoids (.keyword .else) (outer (.symbol .rightBrace) :: back) :=
      avoids_cons (made _) nofun
    have second := reads_declaration_of_statement (reads.while made made' (n := m)
      (by simp only [List.length_append, List.length_cons]; omega) (endsStatement_of_avoids noElse))
    refine reads_mono (reads_pair (made _) (made _) (by simp) (by simp) (again ?_) second) ?_
    · simp only [List.length_append, List.length_cons]
      omega
    rintro _ ⟨start', while', same, same', rfl⟩
    simp only [Stmt.relabel, Stmt.relabelList, same, same']
    cases step <;> rfl

end

end Loop

end Lox
