import Lox.Proofs.Syntax.Reading
import Lox.Proofs.Syntax.Soundness.Expressions

/-!
# What a tree keeps of its tokens

A tree keeps the lexemes of its names, of its operators and of some keywords, and the values of its
numbers and strings. All of these are of tokens that were read (`Kept`); the symbols and keywords
of which a tree keeps nothing need not be, since the tree of a `for` loop has some that were not in
the source. For expressions this follows from the tokens that spell them (`gives_expression`), for
statements it is shown rule by rule (`gives_declaration` and the others), and so for programs
(`Program.kept_ofTokens`).
-/

namespace Lox

/-- The slot is that of a token that satisfies `T`, or it is of a symbol or a keyword and keeps
nothing of it. -/
inductive Slot.From (T : Token → Prop) : Slot → Prop
  | symbol (s : Symbol) : Slot.From T (.symbol s)
  | keyword (k : Keyword) : Slot.From T (.keyword k)
  | token {s : Slot} {t : Token} (h : T t) (takes : s.Takes t) : Slot.From T s

/-- Whatever is kept is of tokens that satisfy `T`. -/
def Kept (T : Token → Prop) (slots : List Slot) : Prop :=
  ∀ s ∈ slots, s.From T

section
variable {T : Token → Prop} {slots slots' : List Slot}

@[simp] theorem kept_nil : Kept T [] :=
  nofun

@[simp] theorem kept_cons {s : Slot} : Kept T (s :: slots) ↔ s.From T ∧ Kept T slots :=
  List.forall_mem_cons

@[simp] theorem kept_append : Kept T (slots ++ slots') ↔ Kept T slots ∧ Kept T slots' :=
  List.forall_mem_append

@[simp] theorem Slot.from_symbol (s : Symbol) : (Slot.symbol s).From T :=
  .symbol s

@[simp] theorem Slot.from_keyword (k : Keyword) : (Slot.keyword k).From T :=
  .keyword k

theorem Lexeme.From.slot {kind : TokenKind} {l : Lexeme} (h : l.From T kind) :
    (⟨kind, some l⟩ : Slot).From T := by
  obtain ⟨t, good, rfl, rfl⟩ := h
  exact .token good (Slot.takes_kept rfl)

/-- A tree that is spelt by tokens keeps what is of these. -/
theorem Spells.kept {tokens rest : List Token} (h : Spells slots tokens rest)
    (all : ∀ t ∈ tokens, T t) : Kept T slots := by
  induction slots generalizing tokens with
  | nil => exact kept_nil
  | cons s slots ih =>
    obtain ⟨t, ts, rfl, takes, h⟩ := h
    obtain ⟨first, others⟩ := List.forall_mem_cons.mp all
    exact kept_cons.mpr ⟨.token first takes, ih h others⟩

theorem kept_names {ls : List Lexeme} :
    Kept T (Slot.names ls) ↔ ∀ l ∈ ls, (Slot.name l).From T := by
  cases ls with
  | nil => exact ⟨fun _ => nofun, fun _ => kept_nil⟩
  | cons l ls =>
    rw [Slot.names, kept_cons, List.forall_mem_cons]
    refine and_congr_right fun _ => ?_
    induction ls with
    | nil => exact ⟨fun _ => nofun, fun _ => kept_nil⟩
    | cons l ls ih => simp only [List.flatMap_cons, kept_append, kept_cons, kept_nil,
        Slot.from_symbol, true_and, and_true, List.forall_mem_cons, ih]

theorem kept_slotsRest {es : List Expr} :
    Kept T (Expr.slotsRest es) ↔ ∀ e ∈ es, Kept T e.slots := by
  induction es with
  | nil => exact ⟨fun _ => nofun, fun _ => kept_nil⟩
  | cons e es ih => simp only [Expr.slotsRest, kept_cons, kept_append, Slot.from_symbol,
      true_and, List.forall_mem_cons, ih]

theorem kept_slotsList {es : List Expr} :
    Kept T (Expr.slotsList es) ↔ ∀ e ∈ es, Kept T e.slots := by
  cases es with
  | nil => exact ⟨fun _ => nofun, fun _ => kept_nil⟩
  | cons e es => rw [Expr.slotsList, kept_append, List.forall_mem_cons, kept_slotsRest]

end

namespace Rule

variable {T : Token → Prop} {α β : Type}

/-- Whenever the rule reads something from tokens that satisfy `T`, it leaves such tokens, and `P`
holds of what it read. -/
def Gives (T : Token → Prop) (r : Rule α) (P : α → Prop) : Prop :=
  ∀ lo, Ensures T r lo fun a _ => P a

/-! ## Steps -/

theorem gives_bind {r : Rule α} {f : α → Rule β} {P : α → Prop} {Q : β → Prop}
    (hr : Gives T r P) (hf : ∀ a, P a → Gives T (f a) Q) : Gives T (r >>= f) Q :=
  fun lo => ensures_bind (hr lo) fun a mid h => hf a h mid

theorem gives_pure {a : α} {P : α → Prop} (h : P a) : Gives T (pure a) P :=
  fun _ => ensures_pure h

theorem gives_fail {cause : SyntaxCause} {P : α → Prop} : Gives T (fail cause) P :=
  fun _ => ensures_fail

theorem gives_atEnd : Gives T atEnd fun _ => True :=
  fun _ => ensures_mono ensures_atEnd fun _ _ _ => trivial

theorem gives_freshId : Gives T freshId fun _ => True :=
  fun _ => ensures_mono ensures_freshId fun _ _ _ => trivial

theorem gives_symbol? {s : Symbol} : Gives T (symbol? s) fun _ => True :=
  fun _ => ensures_mono ensures_symbol? fun _ _ _ => trivial

theorem gives_keyword? {k : Keyword} :
    Gives T (keyword? k) fun found => ∀ l ∈ found, (⟨.keyword k, some l⟩ : Slot).From T := by
  refine fun lo => ensures_bind ensures_accept? fun found hi h => ensures_pure fun l there => ?_
  obtain ⟨⟨_, l⟩, rfl, rfl⟩ := Option.map_eq_some_iff.mp there
  obtain ⟨kind, read, ofToken⟩ := h.2 _ l rfl
  split at read
  · split at read
    · rename_i same
      exact same ▸ ofToken.slot
    · cases read
  · cases read

theorem gives_expect {place : Place} : Gives T (expect place) fun _ => True :=
  fun _ => ensures_mono ensures_expect fun _ _ _ => trivial

theorem gives_name {what : Named} : Gives T (name what) fun l => (Slot.name l).From T :=
  fun _ => ensures_mono ensures_name fun _ _ h => h.2.slot

/-! ## Expressions and parts of statements -/

theorem gives_expression (n : Nat) : Gives T (expression n) fun e => Kept T e.slots := by
  intro lo c all e a c' run
  refine ⟨((expressions n).expression lo c all e a c' run).1, ?_⟩
  have spells := ((yieldsExpressions n).expression _ c rfl a c' run).spells
  exact spells.kept fun t inside => all t ((List.takeWhile_prefix _).subset inside)

theorem gives_optionalExpression (n : Nat) (place : Place) :
    Gives T (optionalExpression n place) fun value => ∀ e ∈ value, Kept T e.slots := by
  refine gives_bind gives_symbol? fun found _ => ?_
  cases found with
  | some _ => exact gives_pure nofun
  | none =>
    refine gives_bind (gives_expression n) fun e h => gives_bind gives_expect fun _ _ => ?_
    refine gives_pure fun e' there => ?_
    cases there
    exact h

theorem gives_varDecl (n : Nat) : Gives T (varDecl n) fun s => Kept T s.slots := by
  refine gives_bind gives_name fun name named => gives_bind gives_symbol? fun found _ => ?_
  cases found with
  | some _ =>
    refine gives_bind (gives_expression n) fun e h => gives_bind gives_expect fun _ _ => ?_
    exact gives_pure (by simp [Stmt.slots, named, h])
  | none =>
    exact gives_bind gives_expect fun _ _ => gives_pure (by simp [Stmt.slots, named])

theorem gives_expressionStmt (n : Nat) :
    Gives T (expressionStmt n) fun s => Kept T s.slots := by
  refine gives_bind (gives_expression n) fun e h => gives_bind gives_expect fun _ _ => ?_
  exact gives_pure (by simp [Stmt.slots, h])

theorem gives_forInitializer (n : Nat) :
    Gives T (forInitializer n) fun s => ∀ s' ∈ s, Kept T s'.slots := by
  have one {s : Stmt} (h : Kept T s.slots) : ∀ s' ∈ some s, Kept T s'.slots := by
    rintro _ ⟨⟩
    exact h
  refine gives_bind gives_symbol? fun found _ => ?_
  cases found with
  | some _ => exact gives_pure nofun
  | none =>
    refine gives_bind gives_keyword? fun found _ => ?_
    cases found with
    | some _ => exact gives_bind (gives_varDecl n) fun s h => gives_pure (one h)
    | none => exact gives_bind (gives_expressionStmt n) fun s h => gives_pure (one h)

/-- What the clauses and the body keep, the loop keeps. -/
theorem kept_loop {initializer : Option Stmt} {condition increment : Option Expr} {body : Stmt}
    (h₁ : ∀ s ∈ initializer, Kept T s.slots) (h₂ : ∀ e ∈ condition, Kept T e.slots)
    (h₃ : ∀ e ∈ increment, Kept T e.slots) (h₄ : Kept T body.slots) :
    Kept T (loop initializer condition increment body).slots := by
  have isCondition : Kept T (condition.getD (.literal .true)).slots := by
    cases condition with
    | none => exact kept_cons.mpr ⟨.keyword .true, kept_nil⟩
    | some e => exact h₂ e rfl
  have round {body : Stmt} (h : Kept T body.slots) :
      Kept T (Stmt.while (condition.getD (.literal .true)) body).slots := by
    simp [Stmt.slots, isCondition, h]
  have rounds : Kept T (loop none condition increment body).slots := by
    cases increment with
    | none => exact round h₄
    | some e => exact round (by simp [Stmt.slots, Stmt.slotsList, h₄, h₃ e rfl])
  cases initializer with
  | none => exact rounds
  | some s =>
    have whole : Kept T (Stmt.block [s, loop none condition increment body]).slots := by
      simp [Stmt.slots, Stmt.slotsList, rounds, h₁ s rfl]
    exact whole

theorem gives_parametersFrom (n count : Nat) :
    Gives T (parametersFrom n count) fun params => ∀ l ∈ params, (Slot.name l).From T := by
  induction n generalizing count with
  | zero => exact gives_fail
  | succ n ih =>
    unfold parametersFrom
    split
    · exact gives_fail
    · refine gives_bind gives_name fun param named => gives_bind gives_symbol? fun comma _ => ?_
      cases comma with
      | some _ =>
        exact gives_bind (ih (count + 1)) fun params h =>
          gives_pure (List.forall_mem_cons.mpr ⟨named, h⟩)
      | none => exact gives_pure (List.forall_mem_singleton.mpr named)

theorem gives_parameters (n : Nat) :
    Gives T (parameters n) fun params => ∀ l ∈ params, (Slot.name l).From T := by
  refine gives_bind gives_symbol? fun found _ => ?_
  cases found with
  | some _ => exact gives_pure nofun
  | none =>
    exact gives_bind (gives_parametersFrom n 0) fun params h =>
      gives_bind gives_expect fun _ _ => gives_pure h

theorem gives_superclass :
    Gives T superclass fun c => ∀ c' ∈ c, (Slot.name c'.name).From T := by
  refine gives_bind gives_symbol? fun found _ => ?_
  cases found with
  | some _ =>
    refine gives_bind gives_name fun name named => gives_bind gives_freshId fun id _ => ?_
    refine gives_pure fun c' there => ?_
    cases there
    exact named
  | none => exact gives_pure nofun

/-! ## Statements -/

/-- What the rules for statements give, at the depth `n`. -/
structure GivesStatements (T : Token → Prop) (n : Nat) : Prop where
  declaration : Gives T (declaration n) fun s => Kept T s.slots
  classDecl : Gives T (classDecl n) fun s => Kept T s.slots
  methods : Gives T (methods n) fun decls => Kept T (FunctionDecl.slotsList decls)
  function : ∀ routine, Gives T (function n routine) fun decl => Kept T decl.slots
  block : Gives T (block n) fun ss => Kept T (Stmt.slotsList ss)
  statement : Gives T (statement n) fun s => Kept T s.slots
  forStmt : Gives T (forStmt n) fun s => Kept T s.slots
  ifStmt : Gives T (ifStmt n) fun s => Kept T s.slots

section
variable {n : Nat} (ih : GivesStatements T n)
include ih

theorem gives_declaration : Gives T (declaration (n + 1)) fun s => Kept T s.slots := by
  refine gives_bind gives_keyword? fun found _ => ?_
  cases found with
  | some _ => exact ih.classDecl
  | none =>
  refine gives_bind gives_keyword? fun found _ => ?_
  cases found with
  | some _ =>
    exact gives_bind (ih.function _) fun decl h => gives_pure (by simp [Stmt.slots, h])
  | none =>
  refine gives_bind gives_keyword? fun found _ => ?_
  cases found with
  | some _ => exact gives_varDecl n
  | none => exact ih.statement

theorem gives_classDecl : Gives T (classDecl (n + 1)) fun s => Kept T s.slots := by
  refine gives_bind gives_name fun name named => gives_bind gives_superclass fun above h => ?_
  refine gives_bind gives_expect fun _ _ => gives_bind ih.methods fun methods h' => gives_pure ?_
  cases above with
  | none => simp [Stmt.slots, named, h']
  | some above => simp [Stmt.slots, named, h', h above rfl]

theorem gives_methods :
    Gives T (methods (n + 1)) fun decls => Kept T (FunctionDecl.slotsList decls) := by
  refine gives_bind gives_symbol? fun found _ => ?_
  cases found with
  | some _ => exact gives_pure kept_nil
  | none =>
    refine gives_bind gives_atEnd fun ended _ => ?_
    cases ended with
    | true => exact gives_fail
    | false =>
      refine gives_bind (ih.function _) fun method h => gives_bind ih.methods fun methods h' => ?_
      exact gives_pure (kept_append.mpr ⟨h, h'⟩)

theorem gives_function (routine : Routine) :
    Gives T (function (n + 1) routine) fun decl => Kept T decl.slots := by
  refine gives_bind gives_name fun name named => gives_bind gives_expect fun _ _ => ?_
  refine gives_bind (gives_parameters n) fun params h => gives_bind gives_expect fun _ _ => ?_
  refine gives_bind ih.block fun body h' => gives_pure ?_
  simp [FunctionDecl.slots, named, kept_names.mpr h, h']

theorem gives_block : Gives T (block (n + 1)) fun ss => Kept T (Stmt.slotsList ss) := by
  refine gives_bind gives_symbol? fun found _ => ?_
  cases found with
  | some _ => exact gives_pure kept_nil
  | none =>
    refine gives_bind gives_atEnd fun ended _ => ?_
    cases ended with
    | true => exact gives_fail
    | false =>
      refine gives_bind ih.declaration fun s h => gives_bind ih.block fun ss h' => ?_
      exact gives_pure (kept_append.mpr ⟨h, h'⟩)

theorem gives_statement : Gives T (statement (n + 1)) fun s => Kept T s.slots := by
  refine gives_bind gives_keyword? fun found _ => ?_
  cases found with
  | some _ => exact ih.forStmt
  | none =>
  refine gives_bind gives_keyword? fun found _ => ?_
  cases found with
  | some _ => exact ih.ifStmt
  | none =>
  refine gives_bind gives_keyword? fun found _ => ?_
  cases found with
  | some _ =>
    refine gives_bind (gives_expression n) fun e h => gives_bind gives_expect fun _ _ => ?_
    exact gives_pure (by simp [Stmt.slots, h])
  | none =>
  refine gives_bind gives_keyword? fun found isKeyword => ?_
  cases found with
  | some keyword =>
    refine gives_bind (gives_optionalExpression n _) fun value h => gives_pure ?_
    cases value with
    | none => simp [Stmt.slots, isKeyword keyword rfl]
    | some value => simp [Stmt.slots, isKeyword keyword rfl, h value rfl]
  | none =>
  refine gives_bind gives_keyword? fun found _ => ?_
  cases found with
  | some _ =>
    refine gives_bind gives_expect fun _ _ => gives_bind (gives_expression n) fun condition h => ?_
    refine gives_bind gives_expect fun _ _ => gives_bind ih.statement fun body h' => ?_
    exact gives_pure (by simp [Stmt.slots, h, h'])
  | none =>
  refine gives_bind gives_symbol? fun found _ => ?_
  cases found with
  | some _ => exact gives_bind ih.block fun body h => gives_pure (by simp [Stmt.slots, h])
  | none => exact gives_expressionStmt n

theorem gives_forStmt : Gives T (forStmt (n + 1)) fun s => Kept T s.slots := by
  refine gives_bind gives_expect fun _ _ => gives_bind (gives_forInitializer n) fun _ h₁ => ?_
  refine gives_bind (gives_optionalExpression n _) fun _ h₂ => ?_
  refine gives_bind (gives_optionalExpression n _) fun _ h₃ => ?_
  exact gives_bind ih.statement fun _ h₄ => gives_pure (kept_loop h₁ h₂ h₃ h₄)

theorem gives_ifStmt : Gives T (ifStmt (n + 1)) fun s => Kept T s.slots := by
  refine gives_bind gives_expect fun _ _ => gives_bind (gives_expression n) fun condition h₁ => ?_
  refine gives_bind gives_expect fun _ _ => gives_bind ih.statement fun thenBranch h₂ => ?_
  refine gives_bind gives_keyword? fun found _ => ?_
  cases found with
  | some _ =>
    exact gives_bind ih.statement fun elseBranch h₃ =>
      gives_pure (by simp [Stmt.slots, h₁, h₂, h₃])
  | none => exact gives_pure (by simp [Stmt.slots, h₁, h₂])

end

theorem givesStatements (n : Nat) : GivesStatements T n := by
  induction n with
  | zero => constructor <;> intros <;> exact gives_fail
  | succ n ih =>
    exact {
      declaration := gives_declaration ih
      classDecl := gives_classDecl ih
      methods := gives_methods ih
      function := gives_function ih
      block := gives_block ih
      statement := gives_statement ih
      forStmt := gives_forStmt ih
      ifStmt := gives_ifStmt ih }

end Rule

/-! ## Programs -/

namespace Program

variable {T : Token → Prop}

theorem kept_readFrom (depth rounds : Nat) {c : Cursor} (all : ∀ t ∈ c.rest, T t)
    (h : (readFrom depth rounds c).errors = []) :
    Kept T (Stmt.slotsList (readFrom depth rounds c).statements) := by
  induction rounds generalizing c with
  | zero => exact kept_nil
  | succ rounds ih =>
    simp only [readFrom] at h ⊢
    split
    · exact kept_nil
    · rename_i more
      rw [if_neg more] at h
      split
      · rename_i s c' read
        rw [read] at h
        obtain ⟨left, one⟩ := (Rule.givesStatements depth).declaration _ c all rfl s c' read
        exact kept_append.mpr ⟨one, ih left h⟩
      · rename_i e c' failed
        rw [failed] at h
        cases h

/-- A program that is read without errors keeps what is of its tokens. -/
theorem kept_ofTokens {tokens : List Token} (all : ∀ t ∈ tokens, T t)
    (h : (ofTokens tokens).errors = []) :
    Kept T (Stmt.slotsList (ofTokens tokens).statements) :=
  kept_readFrom (depth tokens) tokens.length all h

end Program

end Lox
