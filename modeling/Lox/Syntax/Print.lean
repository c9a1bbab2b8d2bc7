import Lox.Syntax

/-!
# The text of a syntax tree

A tree is written with every node in parentheses, its operator or keyword first. Operators are
written as the source writes them.
-/

namespace Lox

/-- A constant. In a string every quote has a backslash in front. -/
def Literal.treeText : Literal → String
  | number value => Number.treeText value
  | string contents =>
    "\"" ++ String.ofList (contents.toList.flatMap fun c => if c = '"' then ['\\', '"'] else [c]) ++
      "\""
  | true => "true"
  | false => "false"
  | nil => "nil"

mutual

/-- The text of an expression. -/
def Expr.text : Expr → String
  | .assign _ name value => "(= " ++ name.text ++ " " ++ value.text ++ ")"
  | .binary _ mark left right => "(" ++ mark.text ++ " " ++ left.text ++ " " ++ right.text ++ ")"
  | .call callee _ arguments => "(call " ++ callee.text ++ Expr.textList arguments ++ ")"
  | .get object name => "(. " ++ object.text ++ " " ++ name.text ++ ")"
  | .grouping inner => "(group " ++ inner.text ++ ")"
  | .literal value => value.treeText
  | .logical _ mark left right => "(" ++ mark.text ++ " " ++ left.text ++ " " ++ right.text ++ ")"
  | .set object name value =>
    "(= " ++ object.text ++ " " ++ name.text ++ " " ++ value.text ++ ")"
  | .super _ _ method => "(super " ++ method.text ++ ")"
  | .this _ _ => "this"
  | .unary _ mark right => "(" ++ mark.text ++ " " ++ right.text ++ ")"
  | .variable _ name => name.text

/-- The texts of expressions, each with a blank in front. -/
def Expr.textList : List Expr → String
  | [] => ""
  | e :: es => " " ++ e.text ++ Expr.textList es

end

mutual

/-- The text of a statement. -/
def Stmt.text : Stmt → String
  | .block body => "(block" ++ Stmt.textList body ++ ")"
  | .classDecl name none methods =>
    "(class " ++ name.text ++ FunctionDecl.textList methods ++ ")"
  | .classDecl name (some superclass) methods =>
    "(class " ++ name.text ++ " < " ++ superclass.name.text ++ FunctionDecl.textList methods ++ ")"
  | .expression e => "(; " ++ e.text ++ ")"
  | .function decl => decl.text
  | .ifThen condition thenBranch =>
    "(if " ++ condition.text ++ " then " ++ thenBranch.text ++ ")"
  | .ifElse condition thenBranch elseBranch =>
    "(if " ++ condition.text ++ " then " ++ thenBranch.text ++ " else " ++ elseBranch.text ++ ")"
  | .print e => "(print " ++ e.text ++ ")"
  | .returning _ none => "(return)"
  | .returning _ (some value) => "(return " ++ value.text ++ ")"
  | .varDecl name none => "(var " ++ name.text ++ ")"
  | .varDecl name (some initializer) =>
    "(var " ++ name.text ++ " = " ++ initializer.text ++ ")"
  | .while condition body => "(while " ++ condition.text ++ " " ++ body.text ++ ")"

/-- The text of a function or method. -/
def FunctionDecl.text : FunctionDecl → String
  | ⟨name, params, body⟩ =>
    "(fun " ++ name.text ++ "(" ++ " ".intercalate (params.map Lexeme.text) ++ ")" ++
      Stmt.textList body ++ ")"

/-- The texts of statements, each with a blank in front. -/
def Stmt.textList : List Stmt → String
  | [] => ""
  | s :: ss => " " ++ s.text ++ Stmt.textList ss

/-- The texts of methods, each with a blank in front. -/
def FunctionDecl.textList : List FunctionDecl → String
  | [] => ""
  | d :: ds => " " ++ d.text ++ FunctionDecl.textList ds

end

/-- The text of a program: one statement a line. -/
def programText (statements : List Stmt) : String :=
  "\n".intercalate (statements.map Stmt.text)

end Lox
