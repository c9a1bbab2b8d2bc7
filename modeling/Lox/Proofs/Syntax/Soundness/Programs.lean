import Mathlib
import Lox.Proofs.Syntax.Soundness.Expressions
import Lox.Proofs.Syntax.Completeness.Programs

/-!
# What is read is what the tokens spell

Without `for` loops, which have no tree of their own, each rule for statements takes exactly the
tokens of the tree that it gives, and the tree is of the grammar (`Stmt.Parsed`); after a choice
without `else` no `else` follows. So a program that is read without errors is spelt by the tokens
before the end of the input, and so is a single expression (`reading_is_faithful`).
-/

namespace Lox

/-- No token begins a `for` loop. -/
def NoFor (tokens : List Token) : Prop :=
  ∀ t ∈ tokens, t.kind ≠ .keyword .for

theorem NoFor.rest {slots : List Slot} {tokens rest : List Token} (h : NoFor tokens)
    (spells : Spells slots tokens rest) : NoFor rest :=
  fun t ht => h t (spells.mem ht)

/-- The statement is of the grammar, and is written with the tokens before `rest`; it goes on to an
`else` if there is one. -/
structure Stmt.Parsed (tokens : List Token) (s : Stmt) (rest : List Token) : Prop where
  grammatical : s.Grammatical
  spells : Spells s.slots tokens rest
  noElse : s.dangles = true → Avoids (.keyword .else) rest

/-- The statement declares nothing, besides. -/
structure Stmt.ParsedInner (tokens : List Token) (s : Stmt) (rest : List Token) : Prop extends
    Stmt.Parsed tokens s rest where
  inner : s.declared? = none

/-- The statements are of the grammar, and are written with the tokens before `rest`, of which the
last is a brace. -/
structure Stmt.ParsedBlock (tokens : List Token) (ss : List Stmt) (rest : List Token) : Prop where
  grammatical : Stmt.GrammaticalList ss
  spells : Spells (Stmt.slotsList ss ++ [.symbol .rightBrace]) tokens rest

/-- The function is of the grammar, and is written with the tokens before `rest`. -/
structure FunctionDecl.Parsed (tokens : List Token) (decl : FunctionDecl) (rest : List Token) :
    Prop where
  grammatical : decl.Grammatical
  spells : Spells decl.slots tokens rest

/-- The methods are of the grammar, and are written with the tokens before `rest`, of which the
last is a brace. -/
structure FunctionDecl.ParsedBlock (tokens : List Token) (decls : List FunctionDecl)
    (rest : List Token) : Prop where
  grammatical : FunctionDecl.GrammaticalList decls
  spells : Spells (FunctionDecl.slotsList decls ++ [.symbol .rightBrace]) tokens rest

namespace Rule

variable {n : Nat} {α : Type} {tokens : List Token}

/-! ## Parts of statements -/

/-- An expression and the symbol after it. -/
theorem yields_ended {place : Place} {f : Expr → Lexeme → Rule α} {Q : α → List Token → Prop}
    (takes : ∀ e l rest, e.Grammatical →
      Spells (e.slots ++ [.symbol place.symbol]) tokens rest → Yields (f e l) rest Q) :
    Yields (expression n >>= fun e => expect place >>= f e) tokens Q := by
  refine yields_bind ((yieldsExpressions n).expression tokens) fun e mid h => ?_
  refine yields_expect fun t rest eq kind => takes e _ rest h.grammatical ?_
  subst eq
  exact Spells.append.mpr ⟨_, h.spells, t, rest, rfl, Slot.takes_of_kind kind, rfl⟩

/-- What is left after an expression and the symbol after it. -/
theorem yields_optionalExpression (n : Nat) (place : Place) (tokens : List Token) :
    Yields (optionalExpression n place) tokens fun value rest =>
      (∀ e ∈ value, e.Grammatical) ∧
        Spells (value.elim [] Expr.slots ++ [.symbol place.symbol]) tokens rest := by
  refine yields_symbol? (fun t ts eq kind => yields_pure ⟨nofun, ?_⟩) ?_
  · exact ⟨t, ts, eq, Slot.takes_of_kind kind, rfl⟩
  · refine yields_ended fun e _ rest h spells => yields_pure ⟨fun e' same => ?_, spells⟩
    cases same
    exact h

theorem yields_varDecl {t : Token} {ts : List Token} (isVar : t.kind = .keyword .var) :
    Yields (varDecl n) ts (Stmt.Parsed (t :: ts)) := by
  have takes : (Slot.keyword .var).Takes t := Slot.takes_of_kind isVar
  refine yields_name fun name t₁ ts₁ eq named => ?_
  subst eq
  refine yields_symbol? (fun t₂ ts₂ eq equal => ?_) ?_
  · subst eq
    refine yields_ended fun e _ rest h spells => yields_pure ⟨h, ?_, nofun⟩
    exact ⟨t, _, rfl, takes, t₁, _, rfl, named, t₂, ts₂, rfl, Slot.takes_of_kind equal, spells⟩
  · refine yields_expect fun t₂ ts₂ eq ends => yields_pure ⟨trivial, ?_, nofun⟩
    subst eq
    exact ⟨t, _, rfl, takes, t₁, _, rfl, named, t₂, ts₂, rfl, Slot.takes_of_kind ends, rfl⟩

theorem yields_expressionStmt (tokens : List Token) :
    Yields (expressionStmt n) tokens (Stmt.ParsedInner tokens) :=
  yields_ended fun _ _ _ h spells => yields_pure ⟨⟨h, spells, nofun⟩, rfl⟩

theorem yields_parametersFrom (n count : Nat) (tokens : List Token) :
    Yields (parametersFrom n count) tokens fun params rest =>
      Spells (Slot.names params) tokens rest ∧ params ≠ [] ∧
        count + params.length ≤ Listing.limit := by
  induction n generalizing count tokens with
  | zero => exact yields_fail
  | succ n ih =>
    unfold parametersFrom
    split
    · exact yields_fail
    · rename_i few
      refine yields_name fun param t ts eq named => ?_
      subst eq
      refine yields_symbol? (fun t₁ ts₁ eq comma => ?_) ?_
      · subst eq
        refine yields_bind (ih (count + 1) ts₁) fun params rest found => ?_
        obtain ⟨spells, more, few'⟩ := found
        refine yields_pure ⟨⟨t, _, rfl, named, ?_⟩, List.cons_ne_nil _ _, ?_⟩
        · cases params with
          | nil => exact absurd rfl more
          | cons l ls => exact ⟨t₁, ts₁, rfl, Slot.takes_of_kind comma, spells⟩
        · rw [List.length_cons]
          omega
      · refine yields_pure ⟨⟨t, ts, rfl, named, rfl⟩, List.cons_ne_nil _ _, ?_⟩
        rw [List.length_singleton]
        omega

theorem yields_parameters (n : Nat) (tokens : List Token) :
    Yields (parameters n) tokens fun params rest => params.length ≤ Listing.limit ∧
      Spells (Slot.names params ++ [.symbol .rightParen]) tokens rest := by
  refine yields_symbol? (fun t ts eq closes => yields_pure ⟨Nat.zero_le _, ?_⟩) ?_
  · exact ⟨t, ts, eq, Slot.takes_of_kind closes, rfl⟩
  · refine yields_bind (yields_parametersFrom n 0 tokens) fun params mid ⟨spells, _, few⟩ => ?_
    rw [Nat.zero_add] at few
    refine yields_expect fun t ts eq closes => yields_pure ⟨few, ?_⟩
    subst eq
    exact Spells.append.mpr ⟨_, spells, t, ts, rfl, Slot.takes_of_kind closes, rfl⟩

theorem yields_superclass (tokens : List Token) :
    Yields superclass tokens fun c rest =>
      Spells (c.elim [] fun c => [.symbol .less, .name c.name]) tokens rest := by
  refine yields_symbol? (fun t ts eq less => ?_) (yields_pure rfl)
  subst eq
  refine yields_name fun name t₁ ts₁ eq named => ?_
  subst eq
  refine yields_freshId fun _ => yields_pure ?_
  exact ⟨t, _, rfl, Slot.takes_of_kind less, t₁, ts₁, rfl, named, rfl⟩

/-! ## Statements -/

/-- What the rules for statements yield, at the depth `n`. -/
structure YieldsStatements (n : Nat) : Prop where
  declaration : ∀ tokens, NoFor tokens → Yields (declaration n) tokens (Stmt.Parsed tokens)
  classDecl : ∀ t ts, t.kind = .keyword .class → NoFor ts →
    Yields (classDecl n) ts (Stmt.Parsed (t :: ts))
  methods : ∀ tokens, NoFor tokens → Yields (methods n) tokens (FunctionDecl.ParsedBlock tokens)
  function : ∀ routine tokens, NoFor tokens →
    Yields (function n routine) tokens (FunctionDecl.Parsed tokens)
  block : ∀ tokens, NoFor tokens → Yields (block n) tokens (Stmt.ParsedBlock tokens)
  statement : ∀ tokens, NoFor tokens → Yields (statement n) tokens (Stmt.ParsedInner tokens)
  ifStmt : ∀ t ts, t.kind = .keyword .if → NoFor ts →
    Yields (ifStmt n) ts (Stmt.ParsedInner (t :: ts))

section
variable (ih : YieldsStatements n)
include ih

theorem yields_classDecl {t : Token} {ts : List Token} (isClass : t.kind = .keyword .class)
    (noFor : NoFor ts) : Yields (classDecl (n + 1)) ts (Stmt.Parsed (t :: ts)) := by
  refine yields_name fun name t₁ ts₁ eq named => ?_
  subst eq
  refine yields_bind (yields_superclass ts₁) fun superclass mid spells => ?_
  refine yields_expect fun t₂ ts₂ eq opens => ?_
  subst eq
  have noFor' : NoFor ts₂ := fun t' ht =>
    noFor t' (List.mem_cons_of_mem _ (spells.mem (List.mem_cons_of_mem _ ht)))
  refine yields_bind (ih.methods ts₂ noFor') fun methods rest h => yields_pure ?_
  refine ⟨h.grammatical, ⟨t, _, rfl, Slot.takes_of_kind isClass, t₁, _, rfl, named, ?_⟩, nofun⟩
  exact Spells.append.mpr ⟨_, spells, t₂, ts₂, rfl, Slot.takes_of_kind opens, h.spells⟩

theorem yields_methods {tokens : List Token} (noFor : NoFor tokens) :
    Yields (methods (n + 1)) tokens (FunctionDecl.ParsedBlock tokens) := by
  refine yields_symbol? (fun t ts eq closes => yields_pure ⟨trivial, ?_⟩) ?_
  · exact ⟨t, ts, eq, Slot.takes_of_kind closes, rfl⟩
  · refine yields_atEnd (fun _ => yields_fail) ?_
    refine yields_bind (ih.function .method tokens noFor) fun method mid h => ?_
    refine yields_bind (ih.methods mid (noFor.rest h.spells)) fun methods rest h' => ?_
    refine yields_pure ⟨⟨h.grammatical, h'.grammatical⟩, ?_⟩
    rw [FunctionDecl.slotsList, List.append_assoc]
    exact Spells.append.mpr ⟨mid, h.spells, h'.spells⟩

theorem yields_function (routine : Routine) {tokens : List Token} (noFor : NoFor tokens) :
    Yields (function (n + 1) routine) tokens (FunctionDecl.Parsed tokens) := by
  refine yields_name fun name t ts eq named => ?_
  subst eq
  refine yields_expect fun t₁ ts₁ eq opens => ?_
  subst eq
  refine yields_bind (yields_parameters n ts₁) fun params mid ⟨few, spells⟩ => ?_
  refine yields_expect fun t₂ ts₂ eq brace => ?_
  subst eq
  have noFor' : NoFor ts₂ := fun t' ht => noFor t' (List.mem_cons_of_mem _
    (List.mem_cons_of_mem _ (spells.mem (List.mem_cons_of_mem _ ht))))
  refine yields_bind (ih.block ts₂ noFor') fun body rest h => yields_pure ?_
  refine ⟨⟨few, h.grammatical⟩, t, _, rfl, named, t₁, ts₁, rfl, Slot.takes_of_kind opens, ?_⟩
  obtain ⟨_, spells, closes⟩ := Spells.append.mp spells
  obtain ⟨t₃, _, rfl, paren, rfl⟩ := closes
  exact Spells.append.mpr ⟨_, spells, t₃, _, rfl, paren, t₂, ts₂, rfl, Slot.takes_of_kind brace,
    h.spells⟩

theorem yields_block {tokens : List Token} (noFor : NoFor tokens) :
    Yields (block (n + 1)) tokens (Stmt.ParsedBlock tokens) := by
  refine yields_symbol? (fun t ts eq closes => yields_pure ⟨trivial, ?_⟩) ?_
  · exact ⟨t, ts, eq, Slot.takes_of_kind closes, rfl⟩
  · refine yields_atEnd (fun _ => yields_fail) ?_
    refine yields_bind (ih.declaration tokens noFor) fun s mid h => ?_
    refine yields_bind (ih.block mid (noFor.rest h.spells)) fun ss rest h' => ?_
    refine yields_pure ⟨⟨h.grammatical, h'.grammatical⟩, ?_⟩
    rw [Stmt.slotsList, List.append_assoc]
    exact Spells.append.mpr ⟨mid, h.spells, h'.spells⟩

theorem yields_ifStmt {t : Token} {ts : List Token} (isIf : t.kind = .keyword .if)
    (noFor : NoFor ts) : Yields (ifStmt (n + 1)) ts (Stmt.ParsedInner (t :: ts)) := by
  refine yields_expect fun t₁ ts₁ eq opens => ?_
  subst eq
  refine yields_ended fun condition _ mid h spells => ?_
  have noFor' : NoFor mid := fun t' ht => noFor t' (List.mem_cons_of_mem _ (spells.mem ht))
  obtain ⟨_, spells', t₂, ts₂, rfl, closes, rfl⟩ := Spells.append.mp spells
  refine yields_bind (ih.statement _ noFor') fun thenBranch mid' h' => ?_
  have before {slots : List Slot} {rest : List Token}
      (after : Spells (thenBranch.slots ++ slots) ts₂ rest) :
      Spells (.keyword .if :: .symbol .leftParen ::
        (condition.slots ++ .symbol .rightParen :: (thenBranch.slots ++ slots))) (t :: t₁ :: ts₁)
        rest :=
    ⟨t, _, rfl, Slot.takes_of_kind isIf, t₁, ts₁, rfl, Slot.takes_of_kind opens,
      Spells.append.mpr ⟨_, spells', t₂, ts₂, rfl, closes, after⟩⟩
  refine yields_keyword? (fun t₃ ts₃ eq isElse => ?_) fun noElse => ?_
  · subst eq
    -- a branch that ends in a choice without `else` would have taken this one
    have settled : thenBranch.dangles = false :=
      Bool.eq_false_iff.mpr fun dangles => h'.noElse dangles t₃ rfl isElse
    have noFor'' : NoFor ts₃ := fun t' ht =>
      noFor' t' (h'.spells.mem (List.mem_cons_of_mem _ ht))
    refine yields_bind (ih.statement ts₃ noFor'') fun elseBranch rest h'' => ?_
    refine yields_pure ⟨⟨⟨h, ⟨h'.grammatical, h'.inner, settled⟩, h''.grammatical, h''.inner⟩,
      before (Spells.append.mpr ⟨_, h'.spells, t₃, ts₃, rfl, Slot.takes_of_kind isElse,
        h''.spells⟩), h''.noElse⟩, rfl⟩
  · refine yields_pure ⟨⟨⟨h, h'.grammatical, h'.inner⟩, ?_, fun _ => noElse⟩, rfl⟩
    have noMore : Spells (thenBranch.slots ++ []) ts₂ mid' :=
      Spells.append.mpr ⟨mid', h'.spells, rfl⟩
    have spelt := before noMore
    rwa [List.append_nil] at spelt

theorem yields_statement {tokens : List Token} (noFor : NoFor tokens) :
    Yields (statement (n + 1)) tokens (Stmt.ParsedInner tokens) := by
  have after {t : Token} {ts : List Token} (eq : tokens = t :: ts) : NoFor ts :=
    fun t' ht => noFor t' (eq ▸ List.mem_cons_of_mem t ht)
  refine yields_keyword? (fun t ts eq isFor => ?_) fun _ => ?_
  · exact absurd isFor (noFor t (eq ▸ List.mem_cons_self))
  refine yields_keyword? (fun t ts eq isIf => ?_) fun _ => ?_
  · exact eq ▸ ih.ifStmt t ts isIf (after eq)
  refine yields_keyword? (fun t ts eq isPrint => ?_) fun _ => ?_
  · refine yields_ended fun e _ rest h spells => yields_pure ⟨⟨h, ?_, nofun⟩, rfl⟩
    exact ⟨t, ts, eq, Slot.takes_of_kind isPrint, spells⟩
  refine yields_keyword? (fun t ts eq isReturn => ?_) fun _ => ?_
  · refine yields_bind (yields_optionalExpression n .returnEnd ts) fun value rest ⟨h, spells⟩ => ?_
    have takes := Slot.takes_kept isReturn
    cases value with
    | none => exact yields_pure ⟨⟨trivial, ⟨t, ts, eq, takes, spells⟩, nofun⟩, rfl⟩
    | some e => exact yields_pure ⟨⟨h e rfl, ⟨t, ts, eq, takes, spells⟩, nofun⟩, rfl⟩
  refine yields_keyword? (fun t ts eq isWhile => ?_) fun _ => ?_
  · refine yields_expect fun t₁ ts₁ eq' opens => ?_
    subst eq'
    refine yields_ended fun condition _ mid h spells => ?_
    have noFor' : NoFor mid := fun t' ht => after eq t' (List.mem_cons_of_mem _ (spells.mem ht))
    refine yields_bind (ih.statement mid noFor') fun body rest h' => yields_pure ?_
    obtain ⟨_, spells', t₂, ts₂, rfl, closes, rfl⟩ := Spells.append.mp spells
    exact ⟨⟨⟨h, h'.grammatical, h'.inner⟩, ⟨t, _, eq, Slot.takes_of_kind isWhile, t₁, ts₁, rfl,
      Slot.takes_of_kind opens, Spells.append.mpr ⟨_, spells', t₂, ts₂, rfl, closes, h'.spells⟩⟩,
      h'.noElse⟩, rfl⟩
  refine yields_symbol? (fun t ts eq opens => ?_) ?_
  · refine yields_bind (ih.block ts (after eq)) fun body rest h => yields_pure ?_
    exact ⟨⟨h.grammatical, ⟨t, ts, eq, Slot.takes_of_kind opens, h.spells⟩, nofun⟩, rfl⟩
  · exact yields_expressionStmt tokens

theorem yields_declaration {tokens : List Token} (noFor : NoFor tokens) :
    Yields (declaration (n + 1)) tokens (Stmt.Parsed tokens) := by
  have after {t : Token} {ts : List Token} (eq : tokens = t :: ts) : NoFor ts :=
    fun t' ht => noFor t' (eq ▸ List.mem_cons_of_mem t ht)
  refine yields_keyword? (fun t ts eq isClass => ?_) fun _ => ?_
  · exact eq ▸ ih.classDecl t ts isClass (after eq)
  refine yields_keyword? (fun t ts eq isFun => ?_) fun _ => ?_
  · refine yields_bind (ih.function .function ts (after eq)) fun decl rest h => yields_pure ?_
    exact ⟨h.grammatical, ⟨t, ts, eq, Slot.takes_of_kind isFun, h.spells⟩, nofun⟩
  refine yields_keyword? (fun t ts eq isVar => ?_) fun _ => ?_
  · exact eq ▸ yields_varDecl isVar
  exact yields_mono (ih.statement tokens noFor) fun _ _ h => h.toParsed

end

theorem yieldsStatements (n : Nat) : YieldsStatements n := by
  induction n with
  | zero => constructor <;> intros <;> exact yields_fail
  | succ n ih =>
    exact {
      declaration := fun _ => yields_declaration ih
      classDecl := fun _ _ => yields_classDecl ih
      methods := fun _ => yields_methods ih
      function := fun routine _ => yields_function ih routine
      block := fun _ => yields_block ih
      statement := fun _ => yields_statement ih
      ifStmt := fun _ _ => yields_ifStmt ih }

end Rule

/-! ## Programs -/

/-- A program that is read without errors has taken all tokens before the end of the input. Each
round takes one at least, so the rounds last. -/
theorem Program.spells_readFrom (depth rounds : Nat) {c : Cursor} (noFor : NoFor (beforeEnd c.rest))
    (enough : (beforeEnd c.rest).length ≤ rounds) (h : (readFrom depth rounds c).errors = []) :
    Stmt.GrammaticalList (readFrom depth rounds c).statements ∧
      Spells (Stmt.slotsList (readFrom depth rounds c).statements) (beforeEnd c.rest) [] := by
  induction rounds generalizing c with
  | zero => exact ⟨trivial, List.length_eq_zero_iff.mp (Nat.le_zero.mp enough)⟩
  | succ rounds ih =>
    simp only [readFrom] at h ⊢
    split
    · rename_i ended
      exact ⟨trivial, c.beforeEnd_eq_nil ended⟩
    · rename_i more
      rw [if_neg more] at h
      split
      · rename_i s c' read
        rw [read] at h
        have first := (Rule.yieldsStatements depth).declaration _ noFor c rfl s c' read
        have length := first.spells.length_eq
        have some := first.grammatical.length_pos
        obtain ⟨grammatical, spells⟩ := ih (noFor.rest first.spells) (by omega) h
        exact ⟨⟨first.grammatical, grammatical⟩, Spells.append.mpr ⟨_, first.spells, spells⟩⟩
      · rename_i e c' failed
        rw [failed] at h
        cases h

theorem length_beforeEnd_le (tokens : List Token) : (beforeEnd tokens).length ≤ tokens.length :=
  (List.takeWhile_sublist _).length_le

/-- Nothing outside the grammar is read, and no token is dropped, repeated or moved: a program
that is read without errors is of the grammar, and the tokens before the end of the input spell it,
if none of them begins a `for` loop. The same goes for a single expression. -/
theorem reading_is_faithful {tokens : List Token}
    (noFor : ∀ t ∈ beforeEnd tokens, t.kind ≠ .keyword .for) :
    (∀ ss, (Program.ofTokens tokens).statements? = .ok ss →
      Stmt.GrammaticalList ss ∧ Spells (Stmt.slotsList ss) (beforeEnd tokens) []) ∧
    ∀ e, Expr.ofTokens tokens = .ok e →
      e.Grammatical ∧ Spells e.slots (beforeEnd tokens) [] := by
  constructor
  · intro ss read
    obtain ⟨noErrors, rfl⟩ := Program.statements?_eq_ok read
    exact Program.spells_readFrom (depth tokens) tokens.length noFor (length_beforeEnd_le tokens)
      noErrors
  · intro e read
    have whole : Rule.Yields (Rule.wholeExpression (depth tokens)) (beforeEnd tokens)
        fun e rest => e.Grammatical ∧ Spells e.slots (beforeEnd tokens) rest ∧ rest = [] := by
      refine Rule.yields_bind ((Rule.yieldsExpressions _).expression _) fun e rest h => ?_
      refine Rule.yields_atEnd (fun ended => Rule.yields_pure ?_) Rule.yields_fail
      exact ⟨h.grammatical, h.spells, ended⟩
    unfold Expr.ofTokens at read
    split at read
    · rename_i e' c' run
      cases read
      obtain ⟨grammatical, spells, rest⟩ := whole ⟨tokens, 0⟩ rfl e c' run
      exact ⟨grammatical, rest ▸ spells⟩
    · cases read

/-- `a.b = -c;`, the end of the input, and a token after it. The first name is spelt oddly. -/
def tokensPastEnd : List Token :=
  [⟨.identifier, "()", 1⟩, ⟨.symbol .dot, "", 1⟩, ⟨.identifier, "b", 2⟩, ⟨.symbol .equal, "", 2⟩,
    ⟨.symbol .minus, "-", 3⟩, ⟨.identifier, "c", 3⟩, ⟨.symbol .semicolon, "", 3⟩, ⟨.eof, "", 3⟩,
    ⟨.symbol .rightParen, "", 4⟩]

theorem reading_stops_at_end : NoFor (beforeEnd tokensPastEnd) ∧
    ∃ ss, (Program.ofTokens tokensPastEnd).statements? = .ok ss ∧
      Stmt.GrammaticalList ss ∧ Spells (Stmt.slotsList ss) (tokensPastEnd.take 7) [] := by
  have noFor : NoFor (beforeEnd tokensPastEnd) := by
    simp [NoFor, beforeEnd, tokensPastEnd, Token.isEnd]
  have read : (Program.ofTokens tokensPastEnd).statements? =
      .ok [.expression (.set (.variable 0 ⟨"()", 1⟩) ⟨"b", 2⟩
        (.unary .negate ⟨"-", 3⟩ (.variable 1 ⟨"c", 3⟩)))] := by
    cbv
  exact ⟨noFor, _, read, (reading_is_faithful noFor).1 _ read⟩

end Lox
