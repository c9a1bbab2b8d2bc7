import Lox.Syntax.Program
import Lox.Proofs.Sequencing
import Lox.Proofs.Syntax.Trees

/-!
# What is read

Every rule of the grammar gives well-formed trees, whose nodes it numbers without repetition from
the number at which it starts. The rules are taken one by one, in the order of the grammar, by
induction on the depth (`Expressions`, `Statements`); what a program consists of then follows for
all rounds of reading (`read_ofTokens`).
-/

namespace Lox

/-- A well-formed expression, numbered from `lo` up to `hi`. -/
def Expr.Read (T : Token → Prop) (lo : Nat) (e : Expr) (hi : Nat) : Prop :=
  e.WellFormed T ∧ Numbered lo e.ids hi

/-- Well-formed expressions, numbered from `lo` up to `hi`. -/
def Expr.ReadList (T : Token → Prop) (lo : Nat) (es : List Expr) (hi : Nat) : Prop :=
  Expr.WellFormedList T es ∧ Numbered lo (Expr.idsList es) hi

/-- The numbers of the nodes of an expression, if there is one. -/
def Expr.optionIds (e : Option Expr) : List ExprId :=
  e.elim [] Expr.ids

/-- A well-formed expression, if any, numbered from `lo` up to `hi`. -/
def Expr.ReadOption (T : Token → Prop) (lo : Nat) (e : Option Expr) (hi : Nat) : Prop :=
  (∀ e' ∈ e, e'.WellFormed T) ∧ Numbered lo (Expr.optionIds e) hi

/-- A well-formed statement, numbered from `lo` up to `hi`. -/
def Stmt.Read (T : Token → Prop) (lo : Nat) (s : Stmt) (hi : Nat) : Prop :=
  s.WellFormed T ∧ Numbered lo s.ids hi

/-- Well-formed statements, numbered from `lo` up to `hi`. -/
def Stmt.ReadList (T : Token → Prop) (lo : Nat) (ss : List Stmt) (hi : Nat) : Prop :=
  Stmt.WellFormedList T ss ∧ Numbered lo (Stmt.idsList ss) hi

/-- A well-formed statement that declares nothing, numbered from `lo` up to `hi`. -/
def Stmt.ReadInner (T : Token → Prop) (lo : Nat) (s : Stmt) (hi : Nat) : Prop :=
  s.Read T lo hi ∧ s.declared? = none

/-- A well-formed function, numbered from `lo` up to `hi`. -/
def FunctionDecl.Read (T : Token → Prop) (lo : Nat) (decl : FunctionDecl) (hi : Nat) : Prop :=
  decl.WellFormed T ∧ Numbered lo decl.ids hi

/-- Well-formed methods, numbered from `lo` up to `hi`. -/
def FunctionDecl.ReadList (T : Token → Prop) (lo : Nat) (decls : List FunctionDecl) (hi : Nat) :
    Prop :=
  FunctionDecl.WellFormedList T decls ∧ Numbered lo (FunctionDecl.idsList decls) hi

namespace Rule

variable {T : Token → Prop} {α β : Type}

/-- Whenever the rule reads something from tokens that satisfy `T`, starting with the number `lo`,
it leaves such tokens, and `P` holds of what it read and the next number. -/
def Ensures (T : Token → Prop) (r : Rule α) (lo : Nat) (P : α → Nat → Prop) : Prop :=
  ∀ c, (∀ t ∈ c.rest, T t) → c.nextId = lo → ∀ a c', r c = .ok a c' →
    (∀ t ∈ c'.rest, T t) ∧ P a c'.nextId

/-! ## Steps -/

theorem ensures_bind {r : Rule α} {f : α → Rule β} {lo : Nat} {P : α → Nat → Prop}
    {Q : β → Nat → Prop} (hr : Ensures T r lo P)
    (hf : ∀ a mid, P a mid → Ensures T (f a) mid Q) : Ensures T (r >>= f) lo Q := by
  intro c hc e b c' h
  obtain ⟨a, c₁, first, second⟩ := bind_eq_ok.mp h
  obtain ⟨hc₁, ha⟩ := hr c hc e a c₁ first
  exact hf a c₁.nextId ha c₁ hc₁ rfl b c' second

theorem ensures_mono {r : Rule α} {lo : Nat} {P Q : α → Nat → Prop} (h : Ensures T r lo P)
    (imp : ∀ a hi, P a hi → Q a hi) : Ensures T r lo Q := by
  intro c hc e a c' run
  obtain ⟨hc', ha⟩ := h c hc e a c' run
  exact ⟨hc', imp a c'.nextId ha⟩

theorem ensures_pure {a : α} {lo : Nat} {P : α → Nat → Prop} (h : P a lo) :
    Ensures T (pure a) lo P := by
  rintro c hc rfl b c' ⟨⟩
  exact ⟨hc, h⟩

theorem ensures_fail {cause : SyntaxCause} {lo : Nat} {P : α → Nat → Prop} :
    Ensures T (fail cause) lo P :=
  fun _ _ _ _ _ h => nomatch h

theorem ensures_failAt {rest : List Token} {cause : SyntaxCause} {lo : Nat} {P : α → Nat → Prop} :
    Ensures T (failAt rest cause) lo P :=
  fun _ _ _ _ _ h => nomatch h

theorem ensures_position {lo : Nat} : Ensures T position lo fun _ hi => hi = lo := by
  rintro c hc rfl _ _ ⟨⟩
  exact ⟨hc, rfl⟩

theorem ensures_atEnd {lo : Nat} : Ensures T atEnd lo fun _ hi => hi = lo := by
  rintro c hc rfl _ _ ⟨⟩
  exact ⟨hc, rfl⟩

theorem ensures_freshId {lo : Nat} : Ensures T freshId lo fun id hi => id = lo ∧ hi = lo + 1 := by
  rintro c hc rfl _ _ ⟨⟩
  exact ⟨hc, rfl, rfl⟩

theorem ensures_accept? {read : TokenKind → Option α} {lo : Nat} :
    Ensures T (accept? read) lo fun found hi =>
      hi = lo ∧ ∀ a l, found = some (a, l) → ∃ kind, read kind = some a ∧ l.From T kind := by
  rintro c hc rfl found c' h
  simp only [accept?] at h
  split at h
  · cases h
    exact ⟨hc, rfl, nofun⟩
  · rename_i t ts e
    have rest : ∀ t' ∈ ts, T t' := fun t' ht' => hc t' (e ▸ List.mem_cons_of_mem t ht')
    split at h
    · cases h
      exact ⟨hc, rfl, nofun⟩
    · rename_i kind _
      split at h <;> cases h
      · rename_i a read
        refine ⟨rest, rfl, fun b l e' => ?_⟩
        cases e'
        exact ⟨t.kind, read, t, hc t (e ▸ List.mem_cons_self), rfl, rfl⟩
      · exact ⟨hc, rfl, nofun⟩

theorem ensures_symbol? {s : Symbol} {lo : Nat} : Ensures T (symbol? s) lo fun _ hi => hi = lo :=
  ensures_bind ensures_accept? fun _ _ h => ensures_pure h.1

theorem ensures_keyword? {k : Keyword} {lo : Nat} : Ensures T (keyword? k) lo fun _ hi => hi = lo :=
  ensures_bind ensures_accept? fun _ _ h => ensures_pure h.1

theorem ensures_expect {place : Place} {lo : Nat} :
    Ensures T (expect place) lo fun _ hi => hi = lo := by
  refine ensures_bind ensures_symbol? fun found hi h => ?_
  cases found with
  | some mark => exact ensures_pure h
  | none => exact ensures_fail

theorem ensures_name {what : Named} {lo : Nat} :
    Ensures T (name what) lo fun l hi => hi = lo ∧ l.From T .identifier := by
  refine ensures_bind ensures_accept? fun found hi ⟨same, h⟩ => ?_
  cases found with
  | some found =>
    obtain ⟨kind, read, hl⟩ := h _ _ rfl
    refine ensures_pure ⟨same, ?_⟩
    split at read
    · exact hl
    · cases read
  | none => exact ensures_fail

/-! ## Expressions -/

theorem read_node {op : Connective} {mark : Lexeme} {left right : Expr} {lo mid hi : Nat}
    (h : left.Read T lo mid) (h' : right.Read T mid hi) :
    (op.node mark left right).Read T lo hi := by
  cases op <;> exact ⟨⟨h.1, h'.1⟩, h.2.append h'.2⟩

theorem ensures_assignTo {target value : Expr} {rest : List Token} {lo mid hi : Nat}
    (h : target.Read T lo mid) (h' : value.Read T mid hi) :
    Ensures T (assignTo target value rest) hi fun e hi' => e.Read T lo hi' := by
  unfold assignTo
  split
  · rename_i name
    refine ensures_bind ensures_freshId fun id hi' e => ?_
    obtain ⟨rfl, rfl⟩ := e
    exact ensures_pure ⟨⟨h.1, h'.1⟩, (h'.2.append (.singleton _)).mono h.2.le⟩
  · exact ensures_pure ⟨⟨h.1.1, h.1.2, h'.1⟩, h.2.append h'.2⟩
  · exact ensures_failAt

/-- The kind of token with which each primary expression begins. -/
theorem ofKind?_eq_some {kind : TokenKind} {atom : Atom} (h : Atom.ofKind? kind = some atom) :
    (atom = .this → kind = .keyword .this) ∧ (atom = .variable → kind = .identifier) ∧
      (atom = .super → kind = .keyword .super) := by
  unfold Atom.ofKind? at h
  split at h <;> cases h <;> simp

/-- What the rules for expressions read, at the depth `n`. -/
structure Expressions (T : Token → Prop) (n : Nat) : Prop where
  expression : ∀ lo, Ensures T (expression n) lo fun e hi => e.Read T lo hi
  operators : ∀ level lo, Ensures T (operators n level) lo fun e hi => e.Read T lo hi
  operatorsFrom : ∀ level left lo mid, left.Read T lo mid →
    Ensures T (operatorsFrom n level left) mid fun e hi => e.Read T lo hi
  operand : ∀ level lo, Ensures T (operand n level) lo fun e hi => e.Read T lo hi
  unary : ∀ lo, Ensures T (unary n) lo fun e hi => e.Read T lo hi
  call : ∀ lo, Ensures T (call n) lo fun e hi => e.Read T lo hi
  callFrom : ∀ e lo mid, e.Read T lo mid →
    Ensures T (callFrom n e) mid fun e hi => e.Read T lo hi
  arguments : ∀ count lo, Ensures T (arguments n count) lo fun es hi => Expr.ReadList T lo es hi
  primary : ∀ lo, Ensures T (primary n) lo fun e hi => e.Read T lo hi

section
variable {n : Nat} (ih : Expressions T n)
include ih

theorem ensures_expression (lo : Nat) :
    Ensures T (expression (n + 1)) lo fun e hi => e.Read T lo hi := by
  refine ensures_bind (ih.operators .or lo) fun target mid h => ?_
  refine ensures_bind ensures_position fun rest _ e => ?_
  subst e
  refine ensures_bind ensures_symbol? fun found _ e => ?_
  subst e
  cases found with
  | some _ => exact ensures_bind (ih.expression _) fun value hi h' => ensures_assignTo h h'
  | none => exact ensures_pure h

theorem ensures_operatorsFrom (level : Level) {left : Expr} {lo mid : Nat}
    (h : left.Read T lo mid) :
    Ensures T (operatorsFrom (n + 1) level left) mid fun e hi => e.Read T lo hi := by
  refine ensures_bind ensures_accept? fun found _ e => ?_
  obtain ⟨rfl, -⟩ := e
  cases found with
  | some found =>
    refine ensures_bind (ih.operand level _) fun right hi h' => ?_
    exact ih.operatorsFrom level _ lo hi (read_node h h')
  | none => exact ensures_pure h

theorem ensures_operand (level : Level) (lo : Nat) :
    Ensures T (operand (n + 1) level) lo fun e hi => e.Read T lo hi := by
  unfold operand
  split
  · exact ih.operators _ lo
  · exact ih.unary lo

theorem ensures_unary (lo : Nat) : Ensures T (unary (n + 1)) lo fun e hi => e.Read T lo hi := by
  refine ensures_bind ensures_accept? fun found _ e => ?_
  obtain ⟨rfl, -⟩ := e
  cases found with
  | some found => exact ensures_bind (ih.unary _) fun right hi h => ensures_pure h
  | none => exact ih.call _

theorem ensures_callFrom {e : Expr} {lo mid : Nat} (h : e.Read T lo mid) :
    Ensures T (callFrom (n + 1) e) mid fun e hi => e.Read T lo hi := by
  refine ensures_bind ensures_symbol? fun opening _ e => ?_
  subst e
  cases opening with
  | some _ =>
    refine ensures_bind ensures_symbol? fun closing _ e => ?_
    subst e
    cases closing with
    | some paren =>
      refine ih.callFrom _ lo _ ⟨⟨h.1, trivial⟩, ?_⟩
      simpa only [Expr.ids, Expr.idsList, List.append_nil] using h.2
    | none =>
      refine ensures_bind (ih.arguments 0 _) fun arguments hi h' => ?_
      refine ensures_bind ensures_expect fun paren _ e => ?_
      subst e
      exact ih.callFrom _ lo _ ⟨⟨h.1, h'.1⟩, h.2.append h'.2⟩
  | none =>
    refine ensures_bind ensures_symbol? fun dot _ e => ?_
    subst e
    cases dot with
    | some _ =>
      refine ensures_bind ensures_name fun property _ e => ?_
      obtain ⟨rfl, hname⟩ := e
      exact ih.callFrom _ lo _ ⟨⟨h.1, hname⟩, h.2⟩
    | none => exact ensures_pure h

theorem ensures_arguments (count lo : Nat) :
    Ensures T (arguments (n + 1) count) lo fun es hi => Expr.ReadList T lo es hi := by
  unfold arguments
  split
  · exact ensures_fail
  · refine ensures_bind (ih.expression lo) fun e mid h => ?_
    refine ensures_bind ensures_symbol? fun comma _ same => ?_
    subst same
    cases comma with
    | some _ =>
      refine ensures_bind (ih.arguments (count + 1) _) fun es hi h' => ?_
      exact ensures_pure ⟨⟨h.1, h'.1⟩, h.2.append h'.2⟩
    | none =>
      refine ensures_pure ⟨⟨h.1, trivial⟩, ?_⟩
      simpa only [Expr.idsList, List.append_nil] using h.2

theorem ensures_primary (lo : Nat) :
    Ensures T (primary (n + 1)) lo fun e hi => e.Read T lo hi := by
  refine ensures_bind ensures_accept? fun found _ e => ?_
  obtain ⟨rfl, h⟩ := e
  cases found with
  | none => exact ensures_fail
  | some found =>
    obtain ⟨atom, l⟩ := found
    obtain ⟨kind, isAtom, hl⟩ := h atom l rfl
    obtain ⟨this, variable', super⟩ := ofKind?_eq_some isAtom
    cases atom with
    | literal value => exact ensures_pure ⟨trivial, .nil _⟩
    | this =>
      refine ensures_bind ensures_freshId fun id _ e => ?_
      obtain ⟨rfl, rfl⟩ := e
      rw [this rfl] at hl
      exact ensures_pure ⟨hl, .singleton _⟩
    | «variable» =>
      refine ensures_bind ensures_freshId fun id _ e => ?_
      obtain ⟨rfl, rfl⟩ := e
      rw [variable' rfl] at hl
      exact ensures_pure ⟨hl, .singleton _⟩
    | super =>
      refine ensures_bind ensures_expect fun _ _ e => ?_
      subst e
      refine ensures_bind ensures_name fun method _ e => ?_
      obtain ⟨rfl, hmethod⟩ := e
      refine ensures_bind ensures_freshId fun id _ e => ?_
      obtain ⟨rfl, rfl⟩ := e
      rw [super rfl] at hl
      exact ensures_pure ⟨⟨hl, hmethod⟩, .singleton _⟩
    | group =>
      refine ensures_bind (ih.expression _) fun inner hi h => ?_
      refine ensures_bind ensures_expect fun _ _ e => ?_
      subst e
      exact ensures_pure h

end

theorem expressions (n : Nat) : Expressions T n := by
  induction n with
  | zero =>
    constructor <;> intros <;> exact ensures_fail
  | succ n ih =>
    exact {
      expression := ensures_expression ih
      operators := fun level lo => ensures_bind (ih.operand level lo) fun left mid h =>
        ih.operatorsFrom level left lo mid h
      operatorsFrom := fun level _ _ _ h => ensures_operatorsFrom ih level h
      operand := ensures_operand ih
      unary := ensures_unary ih
      call := fun lo => ensures_bind (ih.primary lo) fun callee mid h => ih.callFrom callee lo mid h
      callFrom := fun _ _ _ h => ensures_callFrom ih h
      arguments := ensures_arguments ih
      primary := ensures_primary ih }

/-! ## Parts of statements -/

theorem ensures_optionalExpression (n : Nat) (place : Place) (lo : Nat) :
    Ensures T (optionalExpression n place) lo fun e hi => Expr.ReadOption T lo e hi := by
  refine ensures_bind ensures_symbol? fun found _ e => ?_
  subst e
  cases found with
  | some _ => exact ensures_pure ⟨nofun, .nil _⟩
  | none =>
    refine ensures_bind ((expressions n).expression _) fun e hi h => ?_
    refine ensures_bind ensures_expect fun _ _ same => ?_
    subst same
    refine ensures_pure ⟨fun e' he' => ?_, h.2⟩
    cases he'
    exact h.1

theorem ensures_varDecl (n lo : Nat) : Ensures T (varDecl n) lo fun s hi => s.Read T lo hi := by
  refine ensures_bind ensures_name fun name _ e => ?_
  obtain ⟨rfl, hname⟩ := e
  refine ensures_bind ensures_symbol? fun found _ e => ?_
  subst e
  cases found with
  | some _ =>
    refine ensures_bind ((expressions n).expression _) fun e hi h => ?_
    refine ensures_bind ensures_expect fun _ _ same => ?_
    subst same
    exact ensures_pure ⟨⟨hname, h.1⟩, h.2⟩
  | none =>
    refine ensures_bind ensures_expect fun _ _ same => ?_
    subst same
    exact ensures_pure ⟨hname, .nil _⟩

theorem ensures_expressionStmt (n lo : Nat) :
    Ensures T (expressionStmt n) lo fun s hi => s.ReadInner T lo hi := by
  refine ensures_bind ((expressions n).expression _) fun e hi h => ?_
  refine ensures_bind ensures_expect fun _ _ same => ?_
  subst same
  exact ensures_pure ⟨h, rfl⟩

theorem ensures_forInitializer (n lo : Nat) :
    Ensures T (forInitializer n) lo fun s hi => Stmt.ReadList T lo s.toList hi := by
  have one {s : Stmt} {hi : Nat} (h : s.Read T lo hi) : Stmt.ReadList T lo (some s).toList hi := by
    refine ⟨⟨h.1, trivial⟩, ?_⟩
    simpa only [Option.toList_some, Stmt.idsList, List.append_nil] using h.2
  refine ensures_bind ensures_symbol? fun found _ e => ?_
  subst e
  cases found with
  | some _ => exact ensures_pure ⟨trivial, .nil _⟩
  | none =>
    refine ensures_bind ensures_keyword? fun found _ e => ?_
    subst e
    cases found with
    | some _ => exact ensures_bind (ensures_varDecl n _) fun s hi h => ensures_pure (one h)
    | none => exact ensures_bind (ensures_expressionStmt n _) fun s hi h => ensures_pure (one h.1)

/-- The increment is read before the body of the loop, but stands after it in the tree. -/
theorem read_loop {initializer : Option Stmt} {condition increment : Option Expr} {body : Stmt}
    {lo a b c hi : Nat} (h₁ : Stmt.ReadList T lo initializer.toList a)
    (h₂ : Expr.ReadOption T a condition b) (h₃ : Expr.ReadOption T b increment c)
    (h₄ : body.ReadInner T c hi) :
    (loop initializer condition increment body).ReadInner T lo hi := by
  have inOrder := h₁.2.append (h₂.2.append ((h₃.2.append h₄.1.2).perm List.perm_append_comm))
  have isCondition : (condition.getD (.literal .true)).WellFormed T ∧
      (condition.getD (.literal .true)).ids = Expr.optionIds condition := by
    cases condition with
    | none => exact ⟨trivial, rfl⟩
    | some condition => exact ⟨h₂.1 condition rfl, rfl⟩
  obtain ⟨hcondition, ids⟩ := isCondition
  cases increment with
  | none =>
    cases initializer with
    | none => exact ⟨⟨⟨hcondition, h₄.1.1, h₄.2⟩, by
        simpa only [loop, Stmt.ids, ids, Option.toList_none, Stmt.idsList, Expr.optionIds,
          Option.elim_none, List.nil_append, List.append_nil] using inOrder⟩, rfl⟩
    | some s => exact ⟨⟨⟨h₁.1.1, ⟨hcondition, h₄.1.1, h₄.2⟩, trivial⟩, by
        simpa only [loop, Stmt.ids, ids, Option.toList_some, Stmt.idsList, Expr.optionIds,
          Option.elim_none, List.nil_append, List.append_nil] using inOrder⟩, rfl⟩
  | some e =>
    have hbody : Stmt.WellFormed T (.block [body, .expression e]) :=
      ⟨h₄.1.1, h₃.1 e rfl, trivial⟩
    cases initializer with
    | none => exact ⟨⟨⟨hcondition, hbody, rfl⟩, by
        simpa only [loop, Stmt.ids, ids, Option.toList_none, Stmt.idsList, Expr.optionIds,
          Option.elim_some, List.nil_append, List.append_nil] using inOrder⟩, rfl⟩
    | some s => exact ⟨⟨⟨h₁.1.1, ⟨hcondition, hbody, rfl⟩, trivial⟩, by
        simpa only [loop, Stmt.ids, ids, Option.toList_some, Stmt.idsList, Expr.optionIds,
          Option.elim_some, List.nil_append, List.append_nil] using inOrder⟩, rfl⟩

theorem ensures_parametersFrom (n count lo : Nat) :
    Ensures T (parametersFrom n count) lo fun params hi =>
      hi = lo ∧ ∀ param ∈ params, param.From T .identifier := by
  induction n generalizing count lo with
  | zero => exact ensures_fail
  | succ n ih =>
    unfold parametersFrom
    split
    · exact ensures_fail
    · refine ensures_bind ensures_name fun param _ e => ?_
      obtain ⟨rfl, hparam⟩ := e
      refine ensures_bind ensures_symbol? fun comma _ e => ?_
      subst e
      cases comma with
      | some _ =>
        refine ensures_bind (ih (count + 1) _) fun params _ e => ?_
        obtain ⟨rfl, hparams⟩ := e
        exact ensures_pure ⟨rfl, List.forall_mem_cons.mpr ⟨hparam, hparams⟩⟩
      | none => exact ensures_pure ⟨rfl, List.forall_mem_cons.mpr ⟨hparam, nofun⟩⟩

theorem ensures_parameters (n lo : Nat) :
    Ensures T (parameters n) lo fun params hi =>
      hi = lo ∧ ∀ param ∈ params, param.From T .identifier := by
  refine ensures_bind ensures_symbol? fun found _ e => ?_
  subst e
  cases found with
  | some _ => exact ensures_pure ⟨rfl, nofun⟩
  | none =>
    refine ensures_bind (ensures_parametersFrom n 0 _) fun params _ h => ?_
    refine ensures_bind ensures_expect fun _ _ same => ?_
    subst same
    exact ensures_pure h

theorem ensures_superclass (lo : Nat) :
    Ensures T superclass lo fun c hi =>
      (∀ c' ∈ c, c'.name.From T .identifier) ∧ Numbered lo (c.map Superclass.id).toList hi := by
  refine ensures_bind ensures_symbol? fun found _ e => ?_
  subst e
  cases found with
  | some _ =>
    refine ensures_bind ensures_name fun name _ e => ?_
    obtain ⟨rfl, hname⟩ := e
    refine ensures_bind ensures_freshId fun id _ e => ?_
    obtain ⟨rfl, rfl⟩ := e
    refine ensures_pure ⟨fun c' hc' => ?_, .singleton _⟩
    cases hc'
    exact hname
  | none => exact ensures_pure ⟨nofun, .nil _⟩

/-! ## Statements -/

/-- What the rules for statements read, at the depth `n`. -/
structure Statements (T : Token → Prop) (n : Nat) : Prop where
  declaration : ∀ lo, Ensures T (declaration n) lo fun s hi => s.Read T lo hi
  classDecl : ∀ lo, Ensures T (classDecl n) lo fun s hi => s.Read T lo hi
  methods : ∀ lo, Ensures T (methods n) lo fun decls hi => FunctionDecl.ReadList T lo decls hi
  function : ∀ routine lo, Ensures T (function n routine) lo fun decl hi => decl.Read T lo hi
  block : ∀ lo, Ensures T (block n) lo fun ss hi => Stmt.ReadList T lo ss hi
  statement : ∀ lo, Ensures T (statement n) lo fun s hi => s.ReadInner T lo hi
  forStmt : ∀ lo, Ensures T (forStmt n) lo fun s hi => s.ReadInner T lo hi
  ifStmt : ∀ lo, Ensures T (ifStmt n) lo fun s hi => s.ReadInner T lo hi

section
variable {n : Nat} (ih : Statements T n)
include ih

theorem ensures_declaration (lo : Nat) :
    Ensures T (declaration (n + 1)) lo fun s hi => s.Read T lo hi := by
  refine ensures_bind ensures_keyword? fun found _ e => ?_
  subst e
  cases found with
  | some _ => exact ih.classDecl _
  | none =>
  refine ensures_bind ensures_keyword? fun found _ e => ?_
  subst e
  cases found with
  | some _ => exact ensures_bind (ih.function _ _) fun decl hi h => ensures_pure h
  | none =>
  refine ensures_bind ensures_keyword? fun found _ e => ?_
  subst e
  cases found with
  | some _ => exact ensures_varDecl n _
  | none => exact ensures_mono (ih.statement _) fun s hi h => h.1

theorem ensures_classDecl (lo : Nat) :
    Ensures T (classDecl (n + 1)) lo fun s hi => s.Read T lo hi := by
  refine ensures_bind ensures_name fun name _ e => ?_
  obtain ⟨rfl, hname⟩ := e
  refine ensures_bind (ensures_superclass _) fun superclass mid hsuperclass => ?_
  refine ensures_bind ensures_expect fun _ _ e => ?_
  subst e
  refine ensures_bind (ih.methods _) fun methods hi hmethods => ?_
  exact ensures_pure ⟨⟨hname, hsuperclass.1, hmethods.1⟩, hsuperclass.2.append hmethods.2⟩

theorem ensures_methods (lo : Nat) :
    Ensures T (methods (n + 1)) lo fun decls hi => FunctionDecl.ReadList T lo decls hi := by
  refine ensures_bind ensures_symbol? fun found _ e => ?_
  subst e
  cases found with
  | some _ => exact ensures_pure ⟨trivial, .nil _⟩
  | none =>
    refine ensures_bind ensures_atEnd fun ended _ e => ?_
    subst e
    cases ended with
    | true => exact ensures_fail
    | false =>
      refine ensures_bind (ih.function _ _) fun method mid h => ?_
      refine ensures_bind (ih.methods _) fun methods hi h' => ?_
      exact ensures_pure ⟨⟨h.1, h'.1⟩, h.2.append h'.2⟩

theorem ensures_function (routine : Routine) (lo : Nat) :
    Ensures T (function (n + 1) routine) lo fun decl hi => decl.Read T lo hi := by
  refine ensures_bind ensures_name fun name _ e => ?_
  obtain ⟨rfl, hname⟩ := e
  refine ensures_bind ensures_expect fun _ _ e => ?_
  subst e
  refine ensures_bind (ensures_parameters n _) fun params _ e => ?_
  obtain ⟨rfl, hparams⟩ := e
  refine ensures_bind ensures_expect fun _ _ e => ?_
  subst e
  refine ensures_bind (ih.block _) fun body hi h => ?_
  exact ensures_pure ⟨⟨hname, hparams, h.1⟩, h.2⟩

theorem ensures_block (lo : Nat) :
    Ensures T (block (n + 1)) lo fun ss hi => Stmt.ReadList T lo ss hi := by
  refine ensures_bind ensures_symbol? fun found _ e => ?_
  subst e
  cases found with
  | some _ => exact ensures_pure ⟨trivial, .nil _⟩
  | none =>
    refine ensures_bind ensures_atEnd fun ended _ e => ?_
    subst e
    cases ended with
    | true => exact ensures_fail
    | false =>
      refine ensures_bind (ih.declaration _) fun s mid h => ?_
      refine ensures_bind (ih.block _) fun ss hi h' => ?_
      exact ensures_pure ⟨⟨h.1, h'.1⟩, h.2.append h'.2⟩

theorem ensures_statement (lo : Nat) :
    Ensures T (statement (n + 1)) lo fun s hi => s.ReadInner T lo hi := by
  have expression := (expressions (T := T) n).expression
  refine ensures_bind ensures_keyword? fun found _ e => ?_
  subst e
  cases found with
  | some _ => exact ih.forStmt _
  | none =>
  refine ensures_bind ensures_keyword? fun found _ e => ?_
  subst e
  cases found with
  | some _ => exact ih.ifStmt _
  | none =>
  refine ensures_bind ensures_keyword? fun found _ e => ?_
  subst e
  cases found with
  | some _ =>
    refine ensures_bind (expression _) fun e hi h => ?_
    refine ensures_bind ensures_expect fun _ _ e => ?_
    subst e
    exact ensures_pure ⟨h, rfl⟩
  | none =>
  refine ensures_bind ensures_keyword? fun found _ e => ?_
  subst e
  cases found with
  | some keyword =>
    refine ensures_bind (ensures_optionalExpression n _ _) fun value hi h => ?_
    refine ensures_pure ⟨?_, rfl⟩
    cases value with
    | none => exact ⟨trivial, h.2⟩
    | some value => exact ⟨h.1 value rfl, h.2⟩
  | none =>
  refine ensures_bind ensures_keyword? fun found _ e => ?_
  subst e
  cases found with
  | some _ =>
    refine ensures_bind ensures_expect fun _ _ e => ?_
    subst e
    refine ensures_bind (expression _) fun condition mid h => ?_
    refine ensures_bind ensures_expect fun _ _ e => ?_
    subst e
    refine ensures_bind (ih.statement _) fun body hi h' => ?_
    exact ensures_pure ⟨⟨⟨h.1, h'.1.1, h'.2⟩, h.2.append h'.1.2⟩, rfl⟩
  | none =>
  refine ensures_bind ensures_symbol? fun found _ e => ?_
  subst e
  cases found with
  | some _ => exact ensures_bind (ih.block _) fun body hi h => ensures_pure ⟨h, rfl⟩
  | none => exact ensures_expressionStmt n _

theorem ensures_forStmt (lo : Nat) :
    Ensures T (forStmt (n + 1)) lo fun s hi => s.ReadInner T lo hi := by
  refine ensures_bind ensures_expect fun _ _ e => ?_
  subst e
  refine ensures_bind (ensures_forInitializer n _) fun initializer _ h₁ => ?_
  refine ensures_bind (ensures_optionalExpression n _ _) fun condition _ h₂ => ?_
  refine ensures_bind (ensures_optionalExpression n _ _) fun increment _ h₃ => ?_
  refine ensures_bind (ih.statement _) fun body hi h₄ => ?_
  exact ensures_pure (read_loop h₁ h₂ h₃ h₄)

theorem ensures_ifStmt (lo : Nat) :
    Ensures T (ifStmt (n + 1)) lo fun s hi => s.ReadInner T lo hi := by
  refine ensures_bind ensures_expect fun _ _ e => ?_
  subst e
  refine ensures_bind ((expressions n).expression _) fun condition _ h₁ => ?_
  refine ensures_bind ensures_expect fun _ _ e => ?_
  subst e
  refine ensures_bind (ih.statement _) fun thenBranch _ h₂ => ?_
  refine ensures_bind ensures_keyword? fun found _ e => ?_
  subst e
  cases found with
  | some _ =>
    refine ensures_bind (ih.statement _) fun elseBranch hi h₃ => ?_
    exact ensures_pure
        ⟨⟨⟨h₁.1, h₂.1.1, h₂.2, h₃.1.1, h₃.2⟩, h₁.2.append (h₂.1.2.append h₃.1.2)⟩, rfl⟩
  | none => exact ensures_pure ⟨⟨⟨h₁.1, h₂.1.1, h₂.2⟩, h₁.2.append h₂.1.2⟩, rfl⟩

end

theorem statements (n : Nat) : Statements T n := by
  induction n with
  | zero =>
    constructor <;> intros <;> exact ensures_fail
  | succ n ih =>
    exact {
      declaration := ensures_declaration ih
      classDecl := ensures_classDecl ih
      methods := ensures_methods ih
      function := ensures_function ih
      block := ensures_block ih
      statement := ensures_statement ih
      forStmt := ensures_forStmt ih
      ifStmt := ensures_ifStmt ih }

end Rule

/-! ## Programs -/

namespace Program

variable {T : Token → Prop}

theorem read_readFrom (depth rounds : Nat) {c : Cursor} (hc : ∀ t ∈ c.rest, T t)
    (h : (readFrom depth rounds c).errors = []) :
    Stmt.ReadList T c.nextId (readFrom depth rounds c).statements
      (readFrom depth rounds c).nextId := by
  induction rounds generalizing c with
  | zero => exact ⟨trivial, .nil _⟩
  | succ rounds ih =>
    simp only [readFrom] at h ⊢
    split
    · exact ⟨trivial, .nil _⟩
    · rename_i more
      rw [if_neg more] at h
      split
      · rename_i s c' read
        rw [read] at h
        obtain ⟨hc', hs⟩ := (Rule.statements depth).declaration _ c hc rfl s c' read
        obtain ⟨wellFormed, numbered⟩ := ih hc' h
        exact ⟨⟨hs.1, wellFormed⟩, hs.2.append numbered⟩
      · rename_i e c' failed
        rw [failed] at h
        cases h

/-- A program that is read without errors is well formed, and its nodes have numbers of their own,
below the next number. -/
theorem read_ofTokens {tokens : List Token} (hT : ∀ t ∈ tokens, T t)
    (h : (ofTokens tokens).errors = []) :
    Stmt.ReadList T 0 (ofTokens tokens).statements (ofTokens tokens).nextId :=
  read_readFrom (depth tokens) tokens.length hT h

end Program

/-- An expression that is read on its own is well formed. -/
theorem Expr.wellFormed_ofTokens {T : Token → Prop} {tokens : List Token} {e : Expr}
    (hT : ∀ t ∈ tokens, T t) (h : Expr.ofTokens tokens = .ok e) : e.WellFormed T := by
  have whole : Rule.Ensures T (Rule.wholeExpression (depth tokens)) 0 fun e _ =>
      e.WellFormed T := by
    refine Rule.ensures_bind ((Rule.expressions _).expression _) fun e _ read => ?_
    refine Rule.ensures_bind Rule.ensures_atEnd fun ended _ _ => ?_
    split
    · exact Rule.ensures_pure read.1
    · exact Rule.ensures_fail
  unfold Expr.ofTokens at h
  split at h
  · rename_i e' c read
    cases h
    exact (whole ⟨tokens, 0⟩ hT rfl e c read).2
  · cases h

end Lox
