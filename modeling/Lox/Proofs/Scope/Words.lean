import Lox.Proofs.Scope.Exact

/-!
# The words that a survey blames

A survey comes to the words that it may blame in a fixed order, that of evaluation (`Stmt.words`):
the errors that it adds go through these words in order, with none, one or several errors at a word
(`Survey.Blames`, `Stmt.blames`). In two places this is not the order of the text: a property
assignment has its value surveyed before its object, and a loop its body before its increment, which
is written before the body in a `for` loop (`Stmt.exchanges`).
-/

namespace Lox

/-! ## Lists that go through others -/

/-- The first list goes through the second in order: it may stay at an element for several of its
own, and may pass over others. -/
inductive Through {α : Type} : List α → List α → Prop
  | done : Through [] []
  | pass {as bs : List α} {b : α} (rest : Through as bs) : Through as (b :: bs)
  | stay {as bs : List α} {b : α} (rest : Through as (b :: bs)) : Through (b :: as) (b :: bs)

namespace Through

variable {α : Type} {as as' bs bs' : List α}

theorem nil : ∀ bs : List α, Through [] bs
  | [] => .done
  | _ :: bs => .pass (nil bs)

theorem single (a : α) : Through [a] [a] :=
  .stay (.nil _)

theorem append (h : Through as bs) (h' : Through as' bs') : Through (as ++ as') (bs ++ bs') := by
  induction h with
  | done => exact h'
  | pass _ ih => exact .pass ih
  | stay _ ih => exact .stay ih

theorem mem (h : Through as bs) : ∀ a ∈ as, a ∈ bs := by
  induction h with
  | done => exact fun _ inside => inside
  | pass _ ih => exact fun a inside => List.mem_cons_of_mem _ (ih a inside)
  | stay _ ih => exact List.forall_mem_cons.mpr ⟨List.mem_cons_self, ih⟩

/-- A list may stay at one element. -/
theorem of_forall {b : α} : ∀ {as : List α}, (∀ a ∈ as, a = b) → Through as [b]
  | [], _ => .nil _
  | _ :: _, same => by
    obtain ⟨rfl, same⟩ := List.forall_mem_cons.mp same
    exact .stay (of_forall same)

/-- What is true of any two elements in order is true of any two different ones that are come to. -/
theorem pairwise {R : α → α → Prop} (h : Through as bs) (all : bs.Pairwise R) :
    as.Pairwise fun a b => a = b ∨ R a b := by
  induction h with
  | done => exact .nil
  | pass _ ih => exact ih (List.pairwise_cons.mp all).2
  | stay rest ih =>
    refine List.pairwise_cons.mpr ⟨fun a inside => ?_, ih all⟩
    rcases List.mem_cons.mp (rest.mem a inside) with rfl | later
    · exact .inl rfl
    · exact .inr ((List.pairwise_cons.mp all).1 a later)

end Through

/-! ## Words -/

mutual

/-- The words of an expression that a survey may blame, in the order in which it comes to them. -/
def Expr.words : Expr → List Lexeme
  | .assign _ _ value => value.words
  | .binary _ _ left right => left.words ++ right.words
  | .call callee _ arguments => callee.words ++ Expr.wordsList arguments
  | .get object _ => object.words
  | .grouping inner => inner.words
  | .literal _ => []
  | .logical _ _ left right => left.words ++ right.words
  | .set object _ value => value.words ++ object.words
  | .super _ keyword _ => [keyword]
  | .this _ keyword => [keyword]
  | .unary _ _ right => right.words
  | .variable _ name => [name]

/-- The words of expressions. -/
def Expr.wordsList : List Expr → List Lexeme
  | [] => []
  | e :: es => e.words ++ Expr.wordsList es

end

mutual

/-- The words of a statement that a survey may blame, in the order in which it comes to them. -/
def Stmt.words : Stmt → List Lexeme
  | .block body => Stmt.wordsList body
  | .classDecl name superclass methods =>
    name :: ((superclass.map Superclass.name).toList ++ FunctionDecl.wordsList methods)
  | .expression e => e.words
  | .function decl => decl.name :: decl.words
  | .ifThen condition thenBranch => condition.words ++ thenBranch.words
  | .ifElse condition thenBranch elseBranch =>
    condition.words ++ (thenBranch.words ++ elseBranch.words)
  | .print e => e.words
  | .returning keyword none => [keyword]
  | .returning keyword (some value) => keyword :: value.words
  | .varDecl name none => [name]
  | .varDecl name (some initializer) => name :: initializer.words
  | .while condition body => condition.words ++ body.words

/-- The words of statements. -/
def Stmt.wordsList : List Stmt → List Lexeme
  | [] => []
  | s :: ss => s.words ++ Stmt.wordsList ss

/-- The words of a function behind its name. -/
def FunctionDecl.words : FunctionDecl → List Lexeme
  | ⟨_, params, body⟩ => params ++ Stmt.wordsList body

/-- The words of methods, whose names are never blamed. -/
def FunctionDecl.wordsList : List FunctionDecl → List Lexeme
  | [] => []
  | method :: methods => method.words ++ FunctionDecl.wordsList methods

end

/-! ## Exchanges -/

/-- Two parts of a program that a survey may come to in another order than that of the text: first
the value of a property assignment, then its object; and first the body of a loop, then its
increment. -/
inductive Exchange
  | assignment (value object : Expr)
  | round (body : Stmt) (increment : Expr)

namespace Exchange

/-- The words of the part that the survey comes to first. -/
def first : Exchange → List Lexeme
  | assignment value _ => value.words
  | round body _ => body.words

/-- The words of the other part. -/
def later : Exchange → List Lexeme
  | assignment _ object => object.words
  | round _ increment => increment.words

end Exchange

mutual

/-- The values and objects of the property assignments in an expression. -/
def Expr.exchanges : Expr → List Exchange
  | .assign _ _ value => value.exchanges
  | .binary _ _ left right => left.exchanges ++ right.exchanges
  | .call callee _ arguments => callee.exchanges ++ Expr.exchangesList arguments
  | .get object _ => object.exchanges
  | .grouping inner => inner.exchanges
  | .literal _ => []
  | .logical _ _ left right => left.exchanges ++ right.exchanges
  | .set object _ value => .assignment value object :: (value.exchanges ++ object.exchanges)
  | .super _ _ _ => []
  | .this _ _ => []
  | .unary _ _ right => right.exchanges
  | .variable _ _ => []

/-- The exchanges in expressions. -/
def Expr.exchangesList : List Expr → List Exchange
  | [] => []
  | e :: es => e.exchanges ++ Expr.exchangesList es

end

/-- The body and the increment of a `for` loop, if the statement is the block with both that the
`while` loop in its place has as its body. A `while` loop may be written with such a block too. -/
def Stmt.round : Stmt → List Exchange
  | .block [body, .expression increment] => [.round body increment]
  | _ => []

mutual

/-- The values and objects of the property assignments in a statement, and the bodies and increments
of its `for` loops. -/
def Stmt.exchanges : Stmt → List Exchange
  | .block body => Stmt.exchangesList body
  | .classDecl _ _ methods => FunctionDecl.exchangesList methods
  | .expression e => e.exchanges
  | .function decl => decl.exchanges
  | .ifThen condition thenBranch => condition.exchanges ++ thenBranch.exchanges
  | .ifElse condition thenBranch elseBranch =>
    condition.exchanges ++ (thenBranch.exchanges ++ elseBranch.exchanges)
  | .print e => e.exchanges
  | .returning _ none => []
  | .returning _ (some value) => value.exchanges
  | .varDecl _ none => []
  | .varDecl _ (some initializer) => initializer.exchanges
  | .while condition body => condition.exchanges ++ (body.round ++ body.exchanges)

/-- The exchanges in statements. -/
def Stmt.exchangesList : List Stmt → List Exchange
  | [] => []
  | s :: ss => s.exchanges ++ Stmt.exchangesList ss

/-- The exchanges in a function. -/
def FunctionDecl.exchanges : FunctionDecl → List Exchange
  | ⟨_, _, body⟩ => Stmt.exchangesList body

/-- The exchanges in methods. -/
def FunctionDecl.exchangesList : List FunctionDecl → List Exchange
  | [] => []
  | method :: methods => method.exchanges ++ FunctionDecl.exchangesList methods

end

/-- One word is of the part of an exchange that comes first in the survey, and the other of the
other part. -/
def Exchanged (exchanges : List Exchange) (a b : Lexeme) : Prop :=
  ∃ x ∈ exchanges, a ∈ x.first ∧ b ∈ x.later

/-- In the words, the exchanged parts stand one after the other as the survey comes to them. -/
def Exchange.Within (words : List Lexeme) (x : Exchange) : Prop :=
  (x.first ++ x.later).Sublist words

namespace Exchange

variable {words words' : List Lexeme} {xs xs' : List Exchange}

theorem within_append (h : ∀ x ∈ xs, x.Within words) (h' : ∀ x ∈ xs', x.Within words') :
    ∀ x ∈ xs ++ xs', x.Within (words ++ words') :=
  List.forall_mem_append.mpr ⟨fun x inside => (h x inside).trans (List.sublist_append_left _ _),
    fun x inside => (h' x inside).trans (List.sublist_append_right _ _)⟩

theorem within_cons (word : Lexeme) (h : ∀ x ∈ xs, x.Within words) :
    ∀ x ∈ xs, x.Within (word :: words) :=
  fun x inside => (h x inside).trans (List.sublist_cons_self _ _)

end Exchange

mutual

theorem Expr.within_words : ∀ e : Expr, ∀ x ∈ e.exchanges, x.Within e.words
  | .assign _ _ value => value.within_words
  | .binary _ _ left right | .logical _ _ left right =>
    Exchange.within_append left.within_words right.within_words
  | .call callee _ arguments =>
    Exchange.within_append callee.within_words (Expr.within_wordsList arguments)
  | .get object _ => object.within_words
  | .grouping inner => inner.within_words
  | .literal _ => nofun
  | .set object _ value =>
    List.forall_mem_cons.mpr ⟨List.Sublist.refl _,
      Exchange.within_append value.within_words object.within_words⟩
  | .super _ _ _ | .this _ _ | .variable _ _ => nofun
  | .unary _ _ right => right.within_words

theorem Expr.within_wordsList : ∀ es : List Expr,
    ∀ x ∈ Expr.exchangesList es, x.Within (Expr.wordsList es)
  | [] => nofun
  | e :: es => Exchange.within_append e.within_words (Expr.within_wordsList es)

end

theorem Stmt.within_round (body : Stmt) : ∀ x ∈ body.round, x.Within body.words := by
  unfold Stmt.round
  split
  · rename_i body increment
    refine List.forall_mem_singleton.mpr ?_
    simp [Exchange.Within, Exchange.first, Exchange.later, Stmt.words, Stmt.wordsList]
  · nofun

mutual

theorem Stmt.within_words : ∀ s : Stmt, ∀ x ∈ s.exchanges, x.Within s.words
  | .block body => Stmt.within_wordsList body
  | .classDecl name superclass methods => by
    refine Exchange.within_cons name fun x inside => ?_
    exact (FunctionDecl.within_wordsList methods x inside).trans (List.sublist_append_right _ _)
  | .expression e | .print e => e.within_words
  | .function decl => Exchange.within_cons decl.name decl.within_words
  | .ifThen condition thenBranch =>
    Exchange.within_append condition.within_words thenBranch.within_words
  | .ifElse condition thenBranch elseBranch =>
    Exchange.within_append condition.within_words
      (Exchange.within_append thenBranch.within_words elseBranch.within_words)
  | .returning _ none | .varDecl _ none => nofun
  | .returning keyword (some value) => Exchange.within_cons keyword value.within_words
  | .varDecl name (some initializer) => Exchange.within_cons name initializer.within_words
  | .while condition body =>
    Exchange.within_append condition.within_words
      (List.forall_mem_append.mpr ⟨body.within_round, body.within_words⟩)

theorem Stmt.within_wordsList : ∀ ss : List Stmt,
    ∀ x ∈ Stmt.exchangesList ss, x.Within (Stmt.wordsList ss)
  | [] => nofun
  | s :: ss => Exchange.within_append s.within_words (Stmt.within_wordsList ss)

theorem FunctionDecl.within_words : ∀ decl : FunctionDecl,
    ∀ x ∈ decl.exchanges, x.Within decl.words
  | ⟨_, _, body⟩ => fun x inside =>
    (Stmt.within_wordsList body x inside).trans (List.sublist_append_right _ _)

theorem FunctionDecl.within_wordsList : ∀ methods : List FunctionDecl,
    ∀ x ∈ FunctionDecl.exchangesList methods, x.Within (FunctionDecl.wordsList methods)
  | [] => nofun
  | method :: methods =>
    Exchange.within_append method.within_words (FunctionDecl.within_wordsList methods)

end

/-! ## Errors -/

namespace Survey

/-- The errors that were added from `s` to `s'` go through the words. -/
def Blames (s : Survey) (words : List Lexeme) (s' : Survey) : Prop :=
  ∃ added, s'.errors.toList = s.errors.toList ++ added ∧
    Through (added.map ScopeError.blamed) words

namespace Blames

variable {s s₁ s' : Survey} {words words' : List Lexeme}

theorem of_eq (errors : s'.errors = s.errors) (words : List Lexeme) : s.Blames words s' :=
  ⟨[], by rw [errors, List.append_nil], .nil words⟩

theorem trans (h : s.Blames words s₁) (h' : s₁.Blames words' s') :
    s.Blames (words ++ words') s' := by
  obtain ⟨added, e, through⟩ := h
  obtain ⟨added', e', through'⟩ := h'
  refine ⟨added ++ added', by rw [e', e, List.append_assoc], ?_⟩
  rw [List.map_append]
  exact through.append through'

theorem before (h : s.Blames words s₁) (errors : s'.errors = s₁.errors) : s.Blames words s' := by
  have := h.trans (of_eq errors [])
  rwa [List.append_nil] at this

theorem after (errors : s₁.errors = s.errors) (h : s₁.Blames words s') : s.Blames words s' :=
  (of_eq errors []).trans h

/-- Two errors may blame one word. -/
theorem again {word : Lexeme} (h : s.Blames [word] s₁) (h' : s₁.Blames [word] s') :
    s.Blames [word] s' := by
  obtain ⟨added, e, through⟩ := h
  obtain ⟨added', e', through'⟩ := h'
  refine ⟨added ++ added', by rw [e', e, List.append_assoc], .of_forall fun a inside => ?_⟩
  rw [List.map_append, List.mem_append] at inside
  exact List.mem_singleton.mp (inside.elim (through.mem a) (through'.mem a))

end Blames

theorem blames_report (s : Survey) (cause : ScopeCause) (blamed : Lexeme) :
    s.Blames [blamed] (s.report cause blamed) :=
  ⟨[⟨cause, blamed⟩], by simp [report], .single blamed⟩

theorem blames_reportIf (s : Survey) (p : Prop) [Decidable p] (cause : ScopeCause)
    (blamed : Lexeme) : s.Blames [blamed] (if p then s.report cause blamed else s) := by
  split
  · exact blames_report s cause blamed
  · exact .of_eq rfl _

theorem errors_locate (s : Survey) (id : ExprId) (name : Lexeme) :
    (s.locate id name).errors = s.errors := by
  unfold locate
  split <;> rfl

theorem blames_refer (s : Survey) (id : ExprId) (name : Lexeme) :
    s.Blames [name] (s.refer id name) :=
  (blames_reportIf s _ .readInInitializer name).before (errors_locate _ id name)

end Survey

mutual

theorem Expr.blames : ∀ (e : Expr) (s : Survey), s.Blames e.words (e.survey s)
  | .assign id name value, s => (value.blames s).before (Survey.errors_locate _ id name)
  | .binary _ _ left right, s | .logical _ _ left right, s => (left.blames s).trans (right.blames _)
  | .call callee _ arguments, s => (callee.blames s).trans (Expr.blames_list arguments _)
  | .get object _, s => object.blames s
  | .grouping inner, s => inner.blames s
  | .literal _, _ => .of_eq rfl _
  | .set object _ value, s => (value.blames s).trans (object.blames _)
  | .super id keyword _, s => by
    simp only [Expr.survey]
    split
    · exact s.blames_report _ keyword
    · exact s.blames_report _ keyword
    · exact .of_eq (s.errors_locate id keyword) _
  | .this id keyword, s => by
    simp only [Expr.survey]
    split
    · exact s.blames_report _ keyword
    all_goals exact .of_eq (s.errors_locate id keyword) _
  | .unary _ _ right, s => right.blames s
  | .variable id name, s => s.blames_refer id name

theorem Expr.blames_list : ∀ (es : List Expr) (s : Survey),
    s.Blames (Expr.wordsList es) (Expr.surveyList es s)
  | [], _ => .of_eq rfl _
  | e :: es, s => (e.blames s).trans (Expr.blames_list es _)

end

namespace Survey

theorem blames_declare (s : Survey) (name : Lexeme) : s.Blames [name] (s.declare name) := by
  unfold declare
  split
  · exact .of_eq rfl _
  · dsimp only
    split
    · exact (Survey.blames_report _ _ name).after rfl
    · exact .of_eq rfl _

theorem blames_bind (s : Survey) (name : Lexeme) :
    s.Blames [name] ((s.declare name).define name.text) :=
  (s.blames_declare name).before (distances_define _ _).1

theorem blames_params (params : List Lexeme) (s : Survey) :
    s.Blames params (params.foldl (fun s param => (s.declare param).define param.text) s) := by
  induction params generalizing s with
  | nil => exact .of_eq rfl _
  | cons param params ih => exact (s.blames_bind param).trans (ih _)

theorem blames_noteReturn (s : Survey) (keyword : Lexeme) (withValue : Bool) :
    s.Blames [keyword] (s.noteReturn keyword withValue) := by
  unfold noteReturn
  split
  · exact s.blames_report _ keyword
  · exact s.blames_reportIf _ _ keyword
  all_goals exact .of_eq rfl _

/-- A superclass may be blamed for being the class itself, and for being read too early. -/
theorem blames_enterClass (s : Survey) (name : Lexeme) (superclass : Option Superclass) :
    s.Blames (superclass.map Superclass.name).toList (s.enterClass name superclass) := by
  cases superclass with
  | none => exact .of_eq rfl _
  | some c =>
    have itself := s.blames_reportIf (c.name.text = name.text) .inheritsItself c.name
    have read := Survey.blames_refer { (if c.name.text = name.text then
      s.report .inheritsItself c.name else s) with enclosingClass := .derived } c.id c.name
    exact (itself.again (read.after rfl)).before rfl

end Survey

mutual

/-- The errors that the survey of a statement adds go through its words. -/
theorem Stmt.blames : ∀ (stmt : Stmt) (s : Survey), s.Blames stmt.words (stmt.survey s)
  | .block body, s => ((Stmt.blames_list body s.enter).after rfl).before rfl
  | .classDecl name superclass methods, s => by
    have entered := Survey.blames_enterClass ((s.declare name).define name.text) name superclass
    have inside := entered.trans (FunctionDecl.blames_methods methods _)
    refine (s.blames_bind name).trans (inside.before ?_)
    cases superclass <;> rfl
  | .expression e, s | .print e, s => e.blames s
  | .function decl, s => (s.blames_bind decl.name).trans (decl.blames .function _)
  | .ifThen condition thenBranch, s => (condition.blames s).trans (thenBranch.blames _)
  | .ifElse condition thenBranch elseBranch, s =>
    (condition.blames s).trans ((thenBranch.blames _).trans (elseBranch.blames _))
  | .returning keyword none, s => by
    rw [Stmt.survey, Survey.returns_eq]
    exact s.blames_noteReturn keyword false
  | .returning keyword (some value), s => by
    rw [Stmt.survey, Survey.returns_eq]
    exact (s.blames_noteReturn keyword true).trans (value.blames _)
  | .varDecl name none, s => s.blames_bind name
  | .varDecl name (some initializer), s =>
    ((s.blames_declare name).trans (initializer.blames _)).before (Survey.distances_define _ _).1
  | .while condition body, s => (condition.blames s).trans (body.blames _)

theorem Stmt.blames_list : ∀ (stmts : List Stmt) (s : Survey),
    s.Blames (Stmt.wordsList stmts) (Stmt.surveyList stmts s)
  | [], _ => .of_eq rfl _
  | stmt :: stmts, s => (stmt.blames s).trans (Stmt.blames_list stmts _)

theorem FunctionDecl.blames : ∀ (decl : FunctionDecl) (kind : BodyKind) (s : Survey),
    s.Blames decl.words (decl.survey kind s)
  | ⟨_, params, body⟩, kind, s =>
    have start := Survey.blames_params params ({ s with body := kind } : Survey).enter
    ((start.trans (Stmt.blames_list body _)).after rfl).before rfl

theorem FunctionDecl.blames_methods : ∀ (methods : List FunctionDecl) (s : Survey),
    s.Blames (FunctionDecl.wordsList methods) (FunctionDecl.surveyMethods methods s)
  | [], _ => .of_eq rfl _
  | method :: methods, s =>
    (method.blames method.methodBody s).trans (FunctionDecl.blames_methods methods _)

end

end Lox
