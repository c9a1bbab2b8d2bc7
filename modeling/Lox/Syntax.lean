import Lox.Token

/-!
# Syntax trees

Expressions, statements and function declarations. A node whose meaning depends on scope (a
variable, an assignment, `this`, `super`, a superclass name) carries a number of its own, by which
scope analysis and evaluation refer to it. Names, operators and the keywords that an error may
point at are kept as the source writes them (`Lexeme`).
-/

namespace Lox

/-- A name, operator or keyword as the source writes it, and its line. -/
structure Lexeme where
  text : String
  line : Nat
deriving DecidableEq, Repr

/-- The number of a node whose meaning depends on scope. -/
abbrev ExprId := Nat

/-- A constant. -/
inductive Literal
  | number (value : Float)
  | string (contents : String)
  | true
  | false
  | nil

/-- The operators on two evaluated operands. -/
inductive BinaryOp
  | add | subtract | multiply | divide | greater | greaterEqual | less | lessEqual | equal
  | unequal
deriving DecidableEq, Repr

/-- How the operator is written. -/
def BinaryOp.symbol : BinaryOp → Symbol
  | add => .plus
  | subtract => .minus
  | multiply => .star
  | divide => .slash
  | greater => .greater
  | greaterEqual => .greaterEqual
  | less => .less
  | lessEqual => .lessEqual
  | equal => .equalEqual
  | unequal => .bangEqual

/-- The operators that may leave their second operand alone. -/
inductive LogicalOp
  | and | or
deriving DecidableEq, Repr

/-- How the operator is written. -/
def LogicalOp.keyword : LogicalOp → Keyword
  | and => .and
  | or => .or

/-- The operators on one operand. -/
inductive UnaryOp
  | not | negate
deriving DecidableEq, Repr

/-- How the operator is written. -/
def UnaryOp.symbol : UnaryOp → Symbol
  | not => .bang
  | negate => .minus

/-- Expressions. `paren` is the parenthesis that closes a call. -/
inductive Expr
  | assign (id : ExprId) (name : Lexeme) (value : Expr)
  | binary (op : BinaryOp) (mark : Lexeme) (left right : Expr)
  | call (callee : Expr) (paren : Lexeme) (arguments : List Expr)
  | get (object : Expr) (name : Lexeme)
  | grouping (inner : Expr)
  | literal (value : Literal)
  | logical (op : LogicalOp) (mark : Lexeme) (left right : Expr)
  | set (object : Expr) (name : Lexeme) (value : Expr)
  | super (id : ExprId) (keyword method : Lexeme)
  | this (id : ExprId) (keyword : Lexeme)
  | unary (op : UnaryOp) (mark : Lexeme) (right : Expr)
  | variable (id : ExprId) (name : Lexeme)

/-- The superclass that a class names. -/
structure Superclass where
  id : ExprId
  name : Lexeme

mutual

/-- Statements. -/
inductive Stmt
  | block (body : List Stmt)
  | classDecl (name : Lexeme) (superclass : Option Superclass) (methods : List FunctionDecl)
  | expression (e : Expr)
  | function (decl : FunctionDecl)
  | ifThen (condition : Expr) (thenBranch : Stmt)
  | ifElse (condition : Expr) (thenBranch elseBranch : Stmt)
  | print (e : Expr)
  | returning (keyword : Lexeme) (value : Option Expr)
  | varDecl (name : Lexeme) (initializer : Option Expr)
  | while (condition : Expr) (body : Stmt)

/-- The declaration of a function or a method. -/
structure FunctionDecl where
  name : Lexeme
  params : List Lexeme
  body : List Stmt

end

/-- The name of the method that runs when an instance is made. -/
def initializerName : String := "init"

end Lox
