import Mathlib.Data.List.Basic
import Lox.Proofs.Syntax.Form
import Lox.Proofs.Syntax.Kept
import Lox.Proofs.Syntax.Relabel

/-!
# A printed tree can be read back

Every tree has a form (`Expr.form`, `Stmt.form`). If what it keeps is of genuine tokens, the form
has the text that the tree is printed as (`Expr.text_form`), and its leaves may be printed
(`Expr.valid_form`). A form shows which tree it is of (`Form.expr?`, `Form.stmt?`): what was read
is found again, but for the numbers of its nodes and the lines of its lexemes (`Expr.expr?_form`,
`Stmt.stmt?_form`).
-/

namespace Lox

/-- The lexeme is a text of the kind of token, and a number is finite. -/
structure Token.Genuine (t : Token) : Prop where
  text : t.kind ≠ .eof → TokenText t.kind t.lexeme.toList
  finite : ∀ x, t.kind = .number x → x.isFinite

/-- Every node without its number, every lexeme without its line. -/
def Relabelling.bare : Relabelling :=
  ⟨fun _ => 0, fun _ => 0⟩

/-! ## Lexemes of genuine tokens -/

theorem Slot.From.tokenText {kind : TokenKind} {l : Lexeme}
    (h : (⟨kind, some l⟩ : Slot).From Token.Genuine) (inner : kind ≠ .eof) :
    TokenText kind l.text.toList := by
  cases h with
  | token genuine takes =>
    obtain ⟨rfl, kept⟩ := takes
    rw [kept l rfl]
    exact genuine.text inner

theorem Slot.From.name {l : Lexeme} (h : (Slot.name l).From Token.Genuine) :
    (Leaf.name l.text).Valid :=
  h.tokenText nofun

theorem Slot.From.symbol_text {s : Symbol} {l : Lexeme}
    (h : (⟨.symbol s, some l⟩ : Slot).From Token.Genuine) : l = ⟨s.text, l.line⟩ := by
  obtain ⟨text, line⟩ := l
  have isText := h.tokenText nofun
  generalize here : text.toList = cs at isText
  cases isText
  rw [String.toList_inj.mp here]

theorem Slot.From.keyword_text {k : Keyword} {l : Lexeme}
    (h : (⟨.keyword k, some l⟩ : Slot).From Token.Genuine) : l = ⟨k.text, l.line⟩ := by
  obtain ⟨text, line⟩ := l
  have isText := h.tokenText nofun
  generalize here : text.toList = cs at isText
  cases isText
  rw [String.toList_inj.mp here]

/-- The leaf that a constant is printed as. -/
def Literal.leaf : Literal → Leaf
  | number value => .number value
  | string contents => .string contents
  | true => .keyword .true
  | false => .keyword .false
  | nil => .keyword .nil

theorem Literal.valid_leaf {value : Literal}
    (h : (⟨value.kind, none⟩ : Slot).From Token.Genuine) : value.leaf.Valid := by
  cases value with
  | number x =>
    cases h with
    | token genuine takes => exact genuine.finite x takes.kind
  | string contents =>
    cases h with
    | token genuine takes =>
      have isText := genuine.text (takes.kind ▸ nofun)
      rw [show _ = TokenKind.string contents from takes.kind] at isText
      generalize Token.lexeme _ = lexeme at isText
      generalize lexeme.toList = cs at isText
      cases isText with
      | string noQuote => rwa [leaf, Leaf.valid_string, String.toList_ofList]
  | true | false | nil => trivial

/-! ## The forms of trees -/

/-- The form of a name. -/
def Lexeme.form (l : Lexeme) : Form :=
  .leaf (.name l.text)

mutual

/-- The form of an expression. -/
def Expr.form : Expr → Form
  | .assign _ name value => .node (.symbol .equal) [name.form, value.form]
  | .binary op _ left right => .node (.symbol op.symbol) [left.form, right.form]
  | .call callee _ arguments => .node .call (callee.form :: Expr.formList arguments)
  | .get object name => .node (.symbol .dot) [object.form, name.form]
  | .grouping inner => .node .group [inner.form]
  | .literal value => .leaf value.leaf
  | .logical op _ left right => .node (.keyword op.keyword) [left.form, right.form]
  | .set object name value => .node (.symbol .equal) [object.form, name.form, value.form]
  | .super _ _ method => .node (.keyword .super) [method.form]
  | .this _ _ => .leaf (.keyword .this)
  | .unary op _ right => .node (.symbol op.symbol) [right.form]
  | .variable _ name => name.form

/-- The forms of expressions. -/
def Expr.formList : List Expr → List Form
  | [] => []
  | e :: es => e.form :: Expr.formList es

end

mutual

/-- The form of a statement. -/
def Stmt.form : Stmt → Form
  | .block body => .node .block (Stmt.formList body)
  | .classDecl name none methods =>
    .node (.keyword .class) (name.form :: FunctionDecl.formList methods)
  | .classDecl name (some superclass) methods =>
    .node (.keyword .class)
      (name.form :: .leaf (.symbol .less) :: superclass.name.form :: FunctionDecl.formList methods)
  | .expression e => .node (.symbol .semicolon) [e.form]
  | .function decl => decl.form
  | .ifThen condition thenBranch =>
    .node (.keyword .if) [condition.form, .leaf (.name "then"), thenBranch.form]
  | .ifElse condition thenBranch elseBranch =>
    .node (.keyword .if) [condition.form, .leaf (.name "then"), thenBranch.form,
      .leaf (.keyword .else), elseBranch.form]
  | .print e => .node (.keyword .print) [e.form]
  | .returning _ none => .node (.keyword .return) []
  | .returning _ (some value) => .node (.keyword .return) [value.form]
  | .varDecl name none => .node (.keyword .var) [name.form]
  | .varDecl name (some initializer) =>
    .node (.keyword .var) [name.form, .leaf (.symbol .equal), initializer.form]
  | .while condition body => .node (.keyword .while) [condition.form, body.form]

/-- The form of a function or method. -/
def FunctionDecl.form : FunctionDecl → Form
  | ⟨name, params, body⟩ =>
    .node (.keyword .fun) (.header name.text (params.map Lexeme.text) :: Stmt.formList body)

/-- The forms of statements. -/
def Stmt.formList : List Stmt → List Form
  | [] => []
  | s :: ss => s.form :: Stmt.formList ss

/-- The forms of methods. -/
def FunctionDecl.formList : List FunctionDecl → List Form
  | [] => []
  | method :: methods => method.form :: FunctionDecl.formList methods

end

/-! ## Labels

A form shows no labels. -/

mutual

theorem Expr.form_relabel (R : Relabelling) : (e : Expr) → (e.relabel R).form = e.form
  | .assign _ name value => by simp [relabel, form, Lexeme.form, value.form_relabel R]
  | .binary _ _ left right | .logical _ _ left right => by
    simp [relabel, form, left.form_relabel R, right.form_relabel R]
  | .call callee _ arguments => by
    simp [relabel, form, callee.form_relabel R, Expr.formList_relabelList R arguments]
  | .get object name => by simp [relabel, form, Lexeme.form, object.form_relabel R]
  | .grouping inner => by simp [relabel, form, inner.form_relabel R]
  | .set object name value => by
    simp [relabel, form, Lexeme.form, object.form_relabel R, value.form_relabel R]
  | .unary _ _ right => by simp [relabel, form, right.form_relabel R]
  | .literal _ | .super _ _ _ | .this _ _ | .variable _ _ => rfl

theorem Expr.formList_relabelList (R : Relabelling) :
    (es : List Expr) → Expr.formList (Expr.relabelList R es) = Expr.formList es
  | [] => rfl
  | e :: es => by simp [relabelList, formList, e.form_relabel R, Expr.formList_relabelList R es]

end

mutual

theorem Stmt.form_relabel (R : Relabelling) : (s : Stmt) → (s.relabel R).form = s.form
  | .block body => by simp [Stmt.relabel, Stmt.form, Stmt.formList_relabelList R body]
  | .classDecl name none methods => by
    simp [Stmt.relabel, Stmt.form, Lexeme.form, FunctionDecl.formList_relabelList R methods]
  | .classDecl name (some above) methods => by
    simp [Stmt.relabel, Stmt.form, Lexeme.form, Superclass.relabel,
      FunctionDecl.formList_relabelList R methods]
  | .expression e | .print e => by simp [Stmt.relabel, Stmt.form, e.form_relabel R]
  | .function decl => by simp [Stmt.relabel, Stmt.form, decl.form_relabel R]
  | .ifThen condition thenBranch => by
    simp [Stmt.relabel, Stmt.form, condition.form_relabel R, thenBranch.form_relabel R]
  | .ifElse condition thenBranch elseBranch => by
    simp [Stmt.relabel, Stmt.form, condition.form_relabel R, thenBranch.form_relabel R,
      elseBranch.form_relabel R]
  | .returning _ none | .varDecl _ none => rfl
  | .returning _ (some e) | .varDecl _ (some e) => by
    simp [Stmt.relabel, Stmt.form, Lexeme.form, e.form_relabel R]
  | .while condition body => by
    simp [Stmt.relabel, Stmt.form, condition.form_relabel R, body.form_relabel R]

theorem FunctionDecl.form_relabel (R : Relabelling) :
    (decl : FunctionDecl) → (decl.relabel R).form = decl.form
  | ⟨_, _, body⟩ => by
    simp [FunctionDecl.relabel, FunctionDecl.form, Function.comp_def,
      Stmt.formList_relabelList R body]

theorem Stmt.formList_relabelList (R : Relabelling) :
    (ss : List Stmt) → Stmt.formList (Stmt.relabelList R ss) = Stmt.formList ss
  | [] => rfl
  | s :: ss => by
    simp [Stmt.relabelList, Stmt.formList, s.form_relabel R, Stmt.formList_relabelList R ss]

theorem FunctionDecl.formList_relabelList (R : Relabelling) : (methods : List FunctionDecl) →
    FunctionDecl.formList (FunctionDecl.relabelList R methods) = FunctionDecl.formList methods
  | [] => rfl
  | method :: methods => by
    simp [FunctionDecl.relabelList, FunctionDecl.formList, method.form_relabel R,
      FunctionDecl.formList_relabelList R methods]

end

/-! ## Reading a form back -/

/-- The operator that a symbol between two operands is. -/
def BinaryOp.ofSymbol? : Symbol → Option BinaryOp
  | .plus => some add
  | .minus => some subtract
  | .star => some multiply
  | .slash => some divide
  | .greater => some greater
  | .greaterEqual => some greaterEqual
  | .less => some less
  | .lessEqual => some lessEqual
  | .equalEqual => some equal
  | .bangEqual => some unequal
  | _ => none

/-- The operator that a keyword between two operands is. -/
def LogicalOp.ofKeyword? : Keyword → Option LogicalOp
  | .and => some and
  | .or => some or
  | _ => none

/-- The expression that is printed as the leaf. -/
def Leaf.expr? : Leaf → Option Expr
  | name text => some (.variable 0 ⟨text, 0⟩)
  | number value => some (.literal (.number value))
  | string contents => some (.literal (.string contents))
  | keyword .true => some (.literal .true)
  | keyword .false => some (.literal .false)
  | keyword .nil => some (.literal .nil)
  | keyword .this => some (.this 0 ⟨"this", 0⟩)
  | _ => none

/-- The expression that is printed as a list in parentheses. Of each part its form is given and, if
there is one, the expression that is printed as it. -/
def Head.expr? : Head → List Form → List (Option Expr) → Option Expr
  | symbol .equal, [.leaf (.name text), _], [_, some value] => some (.assign 0 ⟨text, 0⟩ value)
  | symbol .equal, [_, .leaf (.name text), _], [some object, _, some value] =>
    some (.set object ⟨text, 0⟩ value)
  | symbol .dot, [_, .leaf (.name text)], [some object, _] => some (.get object ⟨text, 0⟩)
  -- a minus before one operand, or between two
  | symbol s, _, [some right] =>
    (UnaryOp.ofKind? (.symbol s)).map fun op => .unary op ⟨s.text, 0⟩ right
  | symbol s, _, [some left, some right] =>
    (BinaryOp.ofSymbol? s).map fun op => .binary op ⟨s.text, 0⟩ left right
  | keyword .super, [.leaf (.name text)], _ => some (.super 0 ⟨"super", 0⟩ ⟨text, 0⟩)
  | keyword k, _, [some left, some right] =>
    (LogicalOp.ofKeyword? k).map fun op => .logical op ⟨k.text, 0⟩ left right
  | call, _, some callee :: arguments => arguments.allSome.map (.call callee ⟨")", 0⟩)
  | group, _, [some inner] => some (.grouping inner)
  | _, _, _ => none

mutual

/-- The expression that is printed as the form. -/
def Form.expr? : Form → Option Expr
  | leaf l => l.expr?
  | header _ _ => none
  | node head parts => head.expr? parts (exprs? parts)

/-- The expressions that are printed as the forms. -/
def Form.exprs? : List Form → List (Option Expr)
  | [] => []
  | f :: fs => f.expr? :: exprs? fs

end

/-- The function that a statement declares. -/
def Stmt.function? : Stmt → Option FunctionDecl
  | .function decl => some decl
  | _ => none

/-- The statement that is printed as a list in parentheses. Of each part its form is given and, if
there is one, the statement that is printed as it. -/
def Head.stmt? : Head → List Form → List (Option Stmt) → Option Stmt
  | block, _, body => body.allSome.map .block
  -- a method is a list, so that the sign after the name can only be that before a superclass
  | keyword .class, .leaf (.name text) :: .leaf (.symbol .less) :: .leaf (.name above) :: _,
      _ :: _ :: _ :: methods =>
    (methods.map (Option.bind · Stmt.function?)).allSome.map
      (.classDecl ⟨text, 0⟩ (some ⟨0, ⟨above, 0⟩⟩))
  | keyword .class, .leaf (.name text) :: _, _ :: methods =>
    (methods.map (Option.bind · Stmt.function?)).allSome.map (.classDecl ⟨text, 0⟩ none)
  | keyword .fun, .header name params :: _, _ :: body =>
    body.allSome.map fun body => .function ⟨⟨name, 0⟩, params.map fun param => ⟨param, 0⟩, body⟩
  | keyword .if, [condition, _, _], [_, _, some thenBranch] =>
    condition.expr?.map fun condition => .ifThen condition thenBranch
  | keyword .if, [condition, _, _, _, _], [_, _, some thenBranch, _, some elseBranch] =>
    condition.expr?.map fun condition => .ifElse condition thenBranch elseBranch
  | keyword .while, [condition, _], [_, some body] =>
    condition.expr?.map fun condition => .while condition body
  | keyword .print, [e], _ => e.expr?.map .print
  | keyword .return, [], _ => some (.returning ⟨"return", 0⟩ none)
  | keyword .return, [value], _ => value.expr?.map fun value => .returning ⟨"return", 0⟩ value
  | keyword .var, [.leaf (.name text)], _ => some (.varDecl ⟨text, 0⟩ none)
  | keyword .var, [.leaf (.name text), _, initializer], _ =>
    initializer.expr?.map fun initializer => .varDecl ⟨text, 0⟩ initializer
  | symbol .semicolon, [e], _ => e.expr?.map .expression
  | _, _, _ => none

mutual

/-- The statement that is printed as the form. -/
def Form.stmt? : Form → Option Stmt
  | leaf _ => none
  | header _ _ => none
  | node head parts => head.stmt? parts (stmts? parts)

/-- The statements that are printed as the forms. -/
def Form.stmts? : List Form → List (Option Stmt)
  | [] => []
  | f :: fs => f.stmt? :: stmts? fs

end

theorem allSome_map_some {α : Type} (as : List α) : (as.map some).allSome = some as := by
  rw [List.allSome, List.mapM_map]
  exact (List.mapM_pure ..).trans (by simp)

/-! ## Expressions -/

theorem Literal.text_leaf {value : Literal} (h : value.leaf.Valid) :
    value.leaf.text = value.treeText.toList := by
  cases value with
  | number x => rfl
  | string contents =>
    have kept : (contents.toList.flatMap fun c => if c = '"' then ['\\', '"'] else [c]) =
        contents.toList := by
      refine Eq.trans ?_ (List.flatMap_singleton' contents.toList)
      refine List.flatMap_congr fun c inside => if_neg ?_
      rintro rfl
      exact h inside
    simp [leaf, Leaf.text, treeText, kept]
  | true | false | nil => rfl

/-- The form of the expression has its text, may be printed, and shows the expression. -/
structure Expr.Shown (e : Expr) : Prop where
  text : e.form.text = e.text.toList
  valid : e.form.Valid
  reads : e.form.expr? = some (e.relabel .bare)

section
attribute [local simp] Form.text Form.textList Head.text Leaf.text Lexeme.form Symbol.text
  Keyword.text Form.Valid Form.ValidList Head.Valid Form.expr? Form.exprs? Head.expr? Leaf.expr?
  Lexeme.relabel Relabelling.bare

mutual

theorem Expr.shown : (e : Expr) → Kept Token.Genuine e.slots → e.Shown
  | .assign _ name value, h => by
    simp only [slots, kept_cons] at h
    obtain ⟨named, -, h⟩ := h
    have v := value.shown h
    exact ⟨by simp [form, text, v.text], by simp [form, named.name, v.valid],
      by simp [form, relabel, v.reads]⟩
  | .binary op mark left right, h => by
    simp only [slots, kept_append, kept_cons] at h
    obtain ⟨hl, marked, hr⟩ := h
    have l := left.shown hl
    have r := right.shown hr
    rw [marked.symbol_text]
    exact ⟨by simp [form, text, l.text, r.text],
      by cases op <;> simp [form, BinaryOp.symbol, l.valid, r.valid],
      by cases op <;> simp [form, relabel, BinaryOp.symbol, BinaryOp.ofSymbol?, l.reads, r.reads]⟩
  | .call callee paren arguments, h => by
    simp only [slots, kept_append, kept_cons, kept_slotsList] at h
    obtain ⟨hc, -, ha, closes, -⟩ := h
    have c := callee.shown hc
    obtain ⟨texts, valid, reads⟩ := Expr.shownList arguments ha
    rw [closes.symbol_text]
    exact ⟨by simp [form, text, c.text, texts], by simp [form, c.valid, valid],
      by simp [form, relabel, c.reads, reads, allSome_map_some]⟩
  | .get object name, h => by
    simp only [slots, kept_append, kept_cons] at h
    obtain ⟨ho, -, named, -⟩ := h
    have o := object.shown ho
    exact ⟨by simp [form, text, o.text], by simp [form, named.name, o.valid],
      by simp [form, relabel, o.reads]⟩
  | .grouping inner, h => by
    simp only [slots, kept_append, kept_cons] at h
    have i := inner.shown h.2.1
    exact ⟨by simp [form, text, i.text], by simp [form, i.valid],
      by simp [form, relabel, i.reads]⟩
  | .literal value, h => by
    simp only [slots, kept_cons] at h
    have valid := Literal.valid_leaf h.1
    exact ⟨by rw [form, text, Form.text, Literal.text_leaf valid], by simpa [form] using valid,
      by cases value <;> rfl⟩
  | .logical op mark left right, h => by
    simp only [slots, kept_append, kept_cons] at h
    obtain ⟨hl, marked, hr⟩ := h
    have l := left.shown hl
    have r := right.shown hr
    rw [marked.keyword_text]
    exact ⟨by simp [form, text, l.text, r.text], by simp [form, l.valid, r.valid],
      by cases op <;>
        simp [form, relabel, LogicalOp.keyword, LogicalOp.ofKeyword?, l.reads, r.reads]⟩
  | .set object name value, h => by
    simp only [slots, kept_append, kept_cons] at h
    obtain ⟨ho, -, named, -, hv⟩ := h
    have o := object.shown ho
    have v := value.shown hv
    exact ⟨by simp [form, text, o.text, v.text], by simp [form, named.name, o.valid, v.valid],
      by simp [form, relabel, o.reads, v.reads]⟩
  | .super _ keyword method, h => by
    simp only [slots, kept_cons] at h
    obtain ⟨isSuper, -, named, -⟩ := h
    rw [isSuper.keyword_text]
    exact ⟨by simp [form, text], by simp [form, named.name], by simp [form, relabel]⟩
  | .this _ keyword, h => by
    simp only [slots, kept_cons] at h
    rw [h.1.keyword_text]
    exact ⟨by simp [form, text], trivial, by simp [form, relabel]⟩
  | .unary op mark right, h => by
    simp only [slots, kept_cons] at h
    have r := right.shown h.2
    rw [h.1.symbol_text]
    exact ⟨by simp [form, text, r.text], by cases op <;> simp [form, UnaryOp.symbol, r.valid],
      by cases op <;> simp [form, relabel, UnaryOp.symbol, UnaryOp.ofKind?, r.reads]⟩
  | .variable _ name, h => by
    simp only [slots, kept_cons] at h
    exact ⟨rfl, h.1.name, rfl⟩

theorem Expr.shownList : (es : List Expr) → (∀ e ∈ es, Kept Token.Genuine e.slots) →
    Form.textList (Expr.formList es) = (Expr.textList es).toList ∧
      Form.ValidList (Expr.formList es) ∧
      Form.exprs? (Expr.formList es) = (Expr.relabelList .bare es).map some
  | [], _ => ⟨rfl, trivial, rfl⟩
  | e :: es, h => by
    obtain ⟨first, others⟩ := List.forall_mem_cons.mp h
    have one := e.shown first
    obtain ⟨texts, valid, reads⟩ := Expr.shownList es others
    exact ⟨by simp [formList, textList, one.text, texts], ⟨one.valid, valid⟩,
      by simp [formList, relabelList, one.reads, reads]⟩

end

/-! ## Statements -/

/-- The form of the statement has its text, may be printed, and shows the statement. -/
structure Stmt.Shown (s : Stmt) : Prop where
  text : s.form.text = s.text.toList
  valid : s.form.Valid
  reads : s.form.stmt? = some (s.relabel .bare)

/-- The form of the function has its text, may be printed, and shows the declaration. -/
structure FunctionDecl.Shown (decl : FunctionDecl) : Prop where
  text : decl.form.text = decl.text.toList
  valid : decl.form.Valid
  reads : decl.form.stmt? = some (.function (decl.relabel .bare))

/-- The word between the condition of a choice and what is done then. -/
@[simp] theorem Leaf.valid_then : (name "then").Valid :=
  Piece.tokenText_word (c := 't') rfl ['h', 'e', 'n']

theorem allSome_function? (methods : List FunctionDecl) :
    ((methods.map fun decl => some (Stmt.function decl)).map
      (Option.bind · Stmt.function?)).allSome = some methods := by
  rw [List.map_map]
  exact allSome_map_some methods

attribute [local simp] Form.stmt? Form.stmts? Head.stmt?

mutual

theorem Stmt.shown : (s : Stmt) → Kept Token.Genuine s.slots → s.Shown
  | .block body, h => by
    simp only [Stmt.slots, kept_append, kept_cons] at h
    obtain ⟨texts, valid, reads⟩ := Stmt.shownList body h.2.1
    exact ⟨by simp [Stmt.form, Stmt.text, texts], by simp [Stmt.form, valid],
      by simp [Stmt.form, Stmt.relabel, reads, allSome_map_some]⟩
  | .classDecl name none methods, h => by
    simp only [Stmt.slots, Option.elim_none, kept_append, kept_cons] at h
    obtain ⟨-, named, -, -, hm, -⟩ := h
    obtain ⟨texts, valid, reads⟩ := FunctionDecl.shownList methods hm
    refine ⟨by simp [Stmt.form, Stmt.text, texts], by simp [Stmt.form, named.name, valid], ?_⟩
    -- no method is a leaf, so that the first of them is not taken for a sign
    have shows : (Stmt.classDecl name none methods).form.stmt? =
        ((Form.stmts? (FunctionDecl.formList methods)).map
          (Option.bind · Stmt.function?)).allSome.map (.classDecl ⟨name.text, 0⟩ none) := by
      cases methods with
      | nil => rfl
      | cons method methods => cases method; rfl
    rw [shows, reads, allSome_function?]
    rfl
  | .classDecl name (some above) methods, h => by
    simp only [Stmt.slots, Option.elim_some, kept_append, kept_cons] at h
    obtain ⟨-, named, ⟨-, named', -⟩, -, hm, -⟩ := h
    obtain ⟨texts, valid, reads⟩ := FunctionDecl.shownList methods hm
    refine ⟨by simp [Stmt.form, Stmt.text, texts],
      by simp [Stmt.form, named.name, named'.name, valid], ?_⟩
    have shows : (Stmt.classDecl name (some above) methods).form.stmt? =
        ((Form.stmts? (FunctionDecl.formList methods)).map
          (Option.bind · Stmt.function?)).allSome.map
            (.classDecl ⟨name.text, 0⟩ (some ⟨0, ⟨above.name.text, 0⟩⟩)) := rfl
    rw [shows, reads, allSome_function?]
    rfl
  | .expression e, h => by
    simp only [Stmt.slots, kept_append] at h
    have e' := e.shown h.1
    exact ⟨by simp [Stmt.form, Stmt.text, e'.text], by simp [Stmt.form, e'.valid],
      by simp [Stmt.form, Stmt.relabel, e'.reads]⟩
  | .function decl, h => by
    simp only [Stmt.slots, kept_cons] at h
    have d := decl.shown h.2
    exact ⟨d.text, d.valid, d.reads⟩
  | .ifThen condition thenBranch, h => by
    simp only [Stmt.slots, kept_append, kept_cons] at h
    obtain ⟨-, -, hc, -, ht⟩ := h
    have c := condition.shown hc
    have t := thenBranch.shown ht
    exact ⟨by simp [Stmt.form, Stmt.text, c.text, t.text],
      by simp [Stmt.form, c.valid, t.valid],
      by simp [Stmt.form, Stmt.relabel, c.reads, t.reads]⟩
  | .ifElse condition thenBranch elseBranch, h => by
    simp only [Stmt.slots, kept_append, kept_cons] at h
    obtain ⟨-, -, hc, -, ht, -, he⟩ := h
    have c := condition.shown hc
    have t := thenBranch.shown ht
    have e := elseBranch.shown he
    exact ⟨by simp [Stmt.form, Stmt.text, c.text, t.text, e.text],
      by simp [Stmt.form, c.valid, t.valid, e.valid],
      by simp [Stmt.form, Stmt.relabel, c.reads, t.reads, e.reads]⟩
  | .print e, h => by
    simp only [Stmt.slots, kept_append, kept_cons] at h
    have e' := e.shown h.2.1
    exact ⟨by simp [Stmt.form, Stmt.text, e'.text], by simp [Stmt.form, e'.valid],
      by simp [Stmt.form, Stmt.relabel, e'.reads]⟩
  | .returning keyword none, h => by
    simp only [Stmt.slots, kept_cons] at h
    rw [h.1.keyword_text]
    exact ⟨by simp [Stmt.form, Stmt.text], by simp [Stmt.form],
      by simp [Stmt.form, Stmt.relabel]⟩
  | .returning keyword (some value), h => by
    simp only [Stmt.slots, kept_append, kept_cons] at h
    have v := value.shown h.2.1
    rw [h.1.keyword_text]
    exact ⟨by simp [Stmt.form, Stmt.text, v.text], by simp [Stmt.form, v.valid],
      by simp [Stmt.form, Stmt.relabel, v.reads]⟩
  | .varDecl name none, h => by
    simp only [Stmt.slots, kept_cons] at h
    exact ⟨by simp [Stmt.form, Stmt.text], by simp [Stmt.form, h.2.1.name],
      by simp [Stmt.form, Stmt.relabel]⟩
  | .varDecl name (some initializer), h => by
    simp only [Stmt.slots, kept_append, kept_cons] at h
    obtain ⟨-, named, -, hi, -⟩ := h
    have i := initializer.shown hi
    exact ⟨by simp [Stmt.form, Stmt.text, i.text],
      by simp [Stmt.form, named.name, i.valid],
      by simp [Stmt.form, Stmt.relabel, i.reads]⟩
  | .while condition body, h => by
    simp only [Stmt.slots, kept_append, kept_cons] at h
    obtain ⟨-, -, hc, -, hb⟩ := h
    have c := condition.shown hc
    have b := body.shown hb
    exact ⟨by simp [Stmt.form, Stmt.text, c.text, b.text], by simp [Stmt.form, c.valid, b.valid],
      by simp [Stmt.form, Stmt.relabel, c.reads, b.reads]⟩

theorem FunctionDecl.shown : (decl : FunctionDecl) → Kept Token.Genuine decl.slots → decl.Shown
  | ⟨name, params, body⟩, h => by
    simp only [FunctionDecl.slots, kept_append, kept_cons, kept_names] at h
    obtain ⟨named, -, named', -, -, hb, -⟩ := h
    obtain ⟨texts, valid, reads⟩ := Stmt.shownList body hb
    have params_valid : ∀ l ∈ params, (Leaf.name l.text).Valid := fun l inside =>
      (named' l inside).name
    exact ⟨by simp [FunctionDecl.form, FunctionDecl.text, texts, String.toList_intercalate,
        Function.comp_def],
      by simpa [FunctionDecl.form, named.name, valid] using params_valid,
      by simp [FunctionDecl.form, FunctionDecl.relabel, reads, allSome_map_some, Function.comp_def]⟩

theorem Stmt.shownList : (ss : List Stmt) → Kept Token.Genuine (Stmt.slotsList ss) →
    Form.textList (Stmt.formList ss) = (Stmt.textList ss).toList ∧
      Form.ValidList (Stmt.formList ss) ∧
      Form.stmts? (Stmt.formList ss) = (Stmt.relabelList .bare ss).map some
  | [], _ => ⟨rfl, trivial, rfl⟩
  | s :: ss, h => by
    obtain ⟨first, others⟩ := kept_append.mp h
    have one := s.shown first
    obtain ⟨texts, valid, reads⟩ := Stmt.shownList ss others
    exact ⟨by simp [Stmt.formList, Stmt.textList, one.text, texts], ⟨one.valid, valid⟩,
      by simp [Stmt.formList, Stmt.relabelList, one.reads, reads]⟩

theorem FunctionDecl.shownList : (methods : List FunctionDecl) →
    Kept Token.Genuine (FunctionDecl.slotsList methods) →
      Form.textList (FunctionDecl.formList methods) = (FunctionDecl.textList methods).toList ∧
        Form.ValidList (FunctionDecl.formList methods) ∧
        Form.stmts? (FunctionDecl.formList methods) =
          (FunctionDecl.relabelList .bare methods).map fun decl => some (.function decl)
  | [], _ => ⟨rfl, trivial, rfl⟩
  | method :: methods, h => by
    obtain ⟨first, others⟩ := kept_append.mp h
    have one := method.shown first
    obtain ⟨texts, valid, reads⟩ := FunctionDecl.shownList methods others
    exact ⟨by simp [FunctionDecl.formList, FunctionDecl.textList, one.text, texts],
      ⟨one.valid, valid⟩,
      by simp [FunctionDecl.formList, FunctionDecl.relabelList, one.reads, reads]⟩

end

end

end Lox
