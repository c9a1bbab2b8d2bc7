import Lox.Token

/-!
# Syntax errors

What can be wrong with a list of tokens (`SyntaxCause`), and the token that is blamed for it. The
symbols that the grammar asks for are named by their place in it (`Place`).
-/

namespace Lox

/-- A declaration with parameters and a body: a function, or a method of a class. -/
inductive Routine
  | function | method
deriving DecidableEq, Repr

/-- The declaration in words. -/
def Routine.text : Routine → String
  | function => "function"
  | method => "method"

/-- The places where the grammar asks for a symbol. -/
inductive Place
  | classBody | classEnd | parameters (r : Routine) | parametersEnd | body (r : Routine)
  | variableEnd | forClauses | forCondition | forClausesEnd | ifCondition | ifConditionEnd
  | printEnd | returnEnd | whileCondition | whileConditionEnd | expressionEnd | blockEnd
  | argumentsEnd | superDot | groupEnd
deriving DecidableEq, Repr

/-- The symbol that the grammar asks for. -/
def Place.symbol : Place → Symbol
  | classBody | body _ => .leftBrace
  | classEnd | blockEnd => .rightBrace
  | parameters _ | forClauses | ifCondition | whileCondition => .leftParen
  | parametersEnd | forClausesEnd | ifConditionEnd | whileConditionEnd | argumentsEnd
  | groupEnd => .rightParen
  | variableEnd | forCondition | printEnd | returnEnd | expressionEnd => .semicolon
  | superDot => .dot

/-- The place in words. -/
def Place.text : Place → String
  | classBody => "before class body"
  | classEnd => "after class body"
  | parameters r => "after " ++ r.text ++ " name"
  | parametersEnd => "after parameters"
  | body r => "before " ++ r.text ++ " body"
  | variableEnd => "after variable declaration"
  | forClauses => "after 'for'"
  | forCondition => "after loop condition"
  | forClausesEnd => "after for clauses"
  | ifCondition => "after 'if'"
  | ifConditionEnd => "after if condition"
  | printEnd => "after value"
  | returnEnd => "after return value"
  | whileCondition => "after 'while'"
  | whileConditionEnd => "after condition"
  | expressionEnd => "after expression"
  | blockEnd => "after block"
  | argumentsEnd => "after arguments"
  | superDot => "after 'super'"
  | groupEnd => "after expression"

/-- What a name that the grammar asks for stands for. -/
inductive Named
  | «class» | superclass | routine (r : Routine) | parameter | variable | property | superMethod
deriving DecidableEq, Repr

/-- The name in words. -/
def Named.text : Named → String
  | .class => "class name"
  | .superclass => "superclass name"
  | .routine r => r.text ++ " name"
  | .parameter => "parameter name"
  | .variable => "variable name"
  | .property => "property name after '.'"
  | .superMethod => "superclass method name"

/-- Lists of bounded length. -/
inductive Listing
  | parameters | arguments
deriving DecidableEq, Repr

/-- The list in words. -/
def Listing.text : Listing → String
  | parameters => "parameters"
  | arguments => "arguments"

/-- The greatest number of parameters and of arguments. -/
def Listing.limit : Nat := 255

/-- What is wrong with a list of tokens. -/
inductive SyntaxCause
  | missingSymbol (place : Place)
  | missingName (what : Named)
  | missingExpression
  | missingEnd
  | tooMany (what : Listing)
  | invalidAssignment
deriving DecidableEq, Repr

/-- What is said about it. -/
def SyntaxCause.message : SyntaxCause → String
  | missingSymbol place => "Expect '" ++ place.symbol.text ++ "' " ++ place.text ++ "."
  | missingName what => "Expect " ++ what.text ++ "."
  | missingExpression => "Expect expression."
  | missingEnd => "Expect end of expression."
  | tooMany what =>
    "Can't have more than " ++ toString Listing.limit ++ " " ++ what.text ++ "."
  | invalidAssignment => "Invalid assignment target."

/-- What follows the last token of a list: the end of the input, on line 0. -/
def Token.afterLast : Token :=
  ⟨.eof, "", 0⟩

/-- A syntax error, and the tokens from the blamed one on. -/
structure SyntaxError where
  cause : SyntaxCause
  rest : List Token

/-- The token that is blamed. -/
def SyntaxError.token (e : SyntaxError) : Token :=
  e.rest.headD Token.afterLast

end Lox
