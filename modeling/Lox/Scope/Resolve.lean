import Lox.Scope

/-!
# The scope survey of a program

Each statement and expression turns what was known before it into what is known after it. The
order of the walk is the order of evaluation: in `object.name = value` the value comes first.
-/

namespace Lox

mutual

/-- Surveys an expression. -/
def Expr.survey : Expr → Survey → Survey
  | .assign id name value, s => (value.survey s).locate id name
  | .binary _ _ left right, s => right.survey (left.survey s)
  | .call callee _ arguments, s => Expr.surveyList arguments (callee.survey s)
  | .get object _, s => object.survey s
  | .grouping inner, s => inner.survey s
  | .literal _, s => s
  | .logical _ _ left right, s => right.survey (left.survey s)
  | .set object _ value, s => object.survey (value.survey s)
  | .super id keyword _, s =>
    match s.enclosingClass with
    | .none => s.report .superOutsideClass keyword
    | .root => s.report .superWithoutSuperclass keyword
    | .derived => s.locate id keyword
  | .this id keyword, s =>
    match s.enclosingClass with
    | .none => s.report .thisOutsideClass keyword
    | .root | .derived => s.locate id keyword
  | .unary _ _ right, s => right.survey s
  | .variable id name, s => s.refer id name

/-- Surveys expressions in order. -/
def Expr.surveyList : List Expr → Survey → Survey
  | [], s => s
  | e :: es, s => Expr.surveyList es (e.survey s)

end

/-- The kind of body that a method has. -/
def FunctionDecl.methodBody (decl : FunctionDecl) : BodyKind :=
  if decl.name.text = initializerName then .initializer else .method

/-- Opens the scopes around the methods of a class: one for `super` if there is a superclass, and
one for `this`. -/
def Survey.enterClass (s : Survey) (name : Lexeme) : Option Superclass → Survey
  | none => { s with enclosingClass := .root }.enterWith "this"
  | some superclass =>
    let s' :=
      if superclass.name.text = name.text then s.report .inheritsItself superclass.name else s
    (({ s' with enclosingClass := .derived }.refer superclass.id superclass.name).enterWith
      "super").enterWith "this"

/-- Closes the scopes around the methods of a class. -/
def Survey.leaveClass (s : Survey) : Option Superclass → Survey
  | none => s.leave
  | some _ => s.leave.leave

/-- Notes a return statement. -/
def Survey.returns (s : Survey) (keyword : Lexeme) (value : Option Expr) : Survey :=
  let s' := if s.body = .none then s.report .returnOutsideFunction keyword else s
  match value with
  | none => s'
  | some value =>
    value.survey
      (if s.body = .initializer then s'.report .returnFromInitializer keyword else s')

mutual

/-- Surveys a statement. -/
def Stmt.survey : Stmt → Survey → Survey
  | .block body, s => (Stmt.surveyList body s.enter).leave
  | .classDecl name superclass methods, s =>
    let inside := ((s.declare name).define name.text).enterClass name superclass
    { (FunctionDecl.surveyMethods methods inside).leaveClass superclass with
      enclosingClass := s.enclosingClass }
  | .expression e, s => e.survey s
  | .function decl, s => decl.survey .function ((s.declare decl.name).define decl.name.text)
  | .ifThen condition thenBranch, s => thenBranch.survey (condition.survey s)
  | .ifElse condition thenBranch elseBranch, s =>
    elseBranch.survey (thenBranch.survey (condition.survey s))
  | .print e, s => e.survey s
  | .returning keyword value, s => s.returns keyword value
  | .varDecl name none, s => (s.declare name).define name.text
  | .varDecl name (some initializer), s => (initializer.survey (s.declare name)).define name.text
  | .while condition body, s => body.survey (condition.survey s)

/-- Surveys statements in order. -/
def Stmt.surveyList : List Stmt → Survey → Survey
  | [], s => s
  | stmt :: stmts, s => Stmt.surveyList stmts (stmt.survey s)

/-- Surveys the parameters and the body of a function, which share one scope. -/
def FunctionDecl.survey : FunctionDecl → BodyKind → Survey → Survey
  | ⟨_, params, body⟩, kind, s =>
    let inside := params.foldl (fun s param => (s.declare param).define param.text)
      { s with body := kind }.enter
    { (Stmt.surveyList body inside).leave with body := s.body }

/-- Surveys the methods of a class in order. -/
def FunctionDecl.surveyMethods : List FunctionDecl → Survey → Survey
  | [], s => s
  | method :: methods, s =>
    FunctionDecl.surveyMethods methods (method.survey method.methodBody s)

end

/-- The distances of a program's references, or every breach of the scope rules. -/
def distancesOf (statements : List Stmt) : Except (List ScopeError) Distances :=
  let s := Stmt.surveyList statements Survey.start
  if s.errors.isEmpty then .ok s.distances else .error s.errors.toList

end Lox
