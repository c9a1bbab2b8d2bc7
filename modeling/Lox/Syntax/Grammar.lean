import Lox.Syntax.Cursor

/-!
# The grammar

One rule for each line of the grammar, from the loosest to the tightest:

    expression  → ( call "." )? NAME "=" expression | or
    or … factor → the binary operators, six levels, each from left to right
    unary       → ( "!" | "-" ) unary | call
    call        → primary ( "(" arguments? ")" | "." NAME )*
    primary     → constant | "this" | NAME | "super" "." NAME | "(" expression ")"

    declaration → class | "fun" function | variable | statement
    statement   → for | if | print | return | while | block | expression ";"

Each rule decides by the next token alone. A rule takes as its first argument how deep rules may
still be nested; `depth` is more than any list of tokens needs. A `for` loop has no tree of its
own: it is read as a block with a `while` loop.
-/

namespace Lox

/-- The levels of binary operators, loosest first. -/
inductive Level
  | or | and | equality | comparison | term | factor
deriving DecidableEq, Repr

/-- The next tighter level. -/
def Level.tighter? : Level → Option Level
  | or => some and
  | and => some equality
  | equality => some comparison
  | comparison => some term
  | term => some factor
  | factor => none

/-- An operator between two operands. -/
inductive Connective
  | binary (op : BinaryOp)
  | logical (op : LogicalOp)
deriving DecidableEq, Repr

/-- The tree of an operator and its operands. -/
def Connective.node : Connective → Lexeme → Expr → Expr → Expr
  | binary op => .binary op
  | logical op => .logical op

/-- The operator of the level that a token stands for. -/
def Level.connective? : Level → TokenKind → Option Connective
  | or, .keyword .or => some (.logical .or)
  | and, .keyword .and => some (.logical .and)
  | equality, .symbol .bangEqual => some (.binary .unequal)
  | equality, .symbol .equalEqual => some (.binary .equal)
  | comparison, .symbol .greater => some (.binary .greater)
  | comparison, .symbol .greaterEqual => some (.binary .greaterEqual)
  | comparison, .symbol .less => some (.binary .less)
  | comparison, .symbol .lessEqual => some (.binary .lessEqual)
  | term, .symbol .minus => some (.binary .subtract)
  | term, .symbol .plus => some (.binary .add)
  | factor, .symbol .slash => some (.binary .divide)
  | factor, .symbol .star => some (.binary .multiply)
  | _, _ => none

/-- The operator before an operand that a token stands for. -/
def UnaryOp.ofKind? : TokenKind → Option UnaryOp
  | .symbol .bang => some .not
  | .symbol .minus => some .negate
  | _ => none

/-- How a primary expression begins. -/
inductive Atom
  | literal (value : Literal)
  | this
  | variable
  | super
  | group

/-- The beginning of a primary expression that a token stands for. -/
def Atom.ofKind? : TokenKind → Option Atom
  | .keyword .false => some (.literal .false)
  | .keyword .true => some (.literal .true)
  | .keyword .nil => some (.literal .nil)
  | .number value => some (.literal (.number value))
  | .string contents => some (.literal (.string contents))
  | .keyword .this => some .this
  | .identifier => some .variable
  | .keyword .super => some .super
  | .symbol .leftParen => some .group
  | _ => none

namespace Rule

/-! ## Expressions -/

/-- Turns an expression into the target of an assignment; `rest` begins with the equals sign. -/
def assignTo (target value : Expr) (rest : List Token) : Rule Expr :=
  match target with
  | .variable _ name => do return .assign (← freshId) name value
  | .get object name => return .set object name value
  | _ => failAt rest .invalidAssignment

mutual

/-- Any expression. The target of an assignment is first read as an expression. -/
def expression : Nat → Rule Expr
  | 0 => fail .missingExpression
  | n + 1 => do
    let target ← operators n .or
    let rest ← position
    match ← symbol? .equal with
    | some _ => do
      let value ← expression n
      assignTo target value rest
    | none => return target

/-- Operands joined by operators of the level. -/
def operators : Nat → Level → Rule Expr
  | 0, _ => fail .missingExpression
  | n + 1, level => do
    let left ← operand n level
    operatorsFrom n level left

/-- More operators of the level, after the operand `left`. -/
def operatorsFrom : Nat → Level → Expr → Rule Expr
  | 0, _, _ => fail .missingExpression
  | n + 1, level, left => do
    match ← accept? level.connective? with
    | some (op, mark) => do
      let right ← operand n level
      operatorsFrom n level (op.node mark left right)
    | none => return left

/-- An operand for operators of the level. -/
def operand : Nat → Level → Rule Expr
  | 0, _ => fail .missingExpression
  | n + 1, level =>
    match level.tighter? with
    | some tighter => operators n tighter
    | none => unary n

/-- An operand, with any number of operators before it. -/
def unary : Nat → Rule Expr
  | 0 => fail .missingExpression
  | n + 1 => do
    match ← accept? UnaryOp.ofKind? with
    | some (op, mark) => return .unary op mark (← unary n)
    | none => call n

/-- A primary expression, with calls and property names after it. -/
def call : Nat → Rule Expr
  | 0 => fail .missingExpression
  | n + 1 => do
    let callee ← primary n
    callFrom n callee

/-- Calls and property names after the expression `e`. -/
def callFrom : Nat → Expr → Rule Expr
  | 0, _ => fail .missingExpression
  | n + 1, e => do
    match ← symbol? .leftParen with
    | some _ => do
      match ← symbol? .rightParen with
      | some paren => callFrom n (.call e paren [])
      | none => do
        let arguments ← arguments n 0
        let paren ← expect .argumentsEnd
        callFrom n (.call e paren arguments)
    | none => do
      match ← symbol? .dot with
      | some _ => do
        let property ← name .property
        callFrom n (.get e property)
      | none => return e

/-- One argument or more, after `count` others. -/
def arguments : Nat → Nat → Rule (List Expr)
  | 0, _ => fail .missingExpression
  | n + 1, count => do
    if Listing.limit ≤ count then
      fail (.tooMany .arguments)
    else do
      let e ← expression n
      match ← symbol? .comma with
      | some _ => return e :: (← arguments n (count + 1))
      | none => return [e]

/-- The smallest expressions: constants, names, and expressions in parentheses. -/
def primary : Nat → Rule Expr
  | 0 => fail .missingExpression
  | n + 1 => do
    match ← accept? Atom.ofKind? with
    | some (.literal value, _) => return .literal value
    | some (.this, keyword) => return .this (← freshId) keyword
    | some (.variable, name) => return .variable (← freshId) name
    | some (.super, keyword) => do
      let _ ← expect .superDot
      let method ← name .superMethod
      return .super (← freshId) keyword method
    | some (.group, _) => do
      let inner ← expression n
      let _ ← expect .groupEnd
      return .grouping inner
    | none => fail .missingExpression

end

/-! ## Statements -/

/-- The expression before the symbol that `place` asks for, if there is one. -/
def optionalExpression (n : Nat) (place : Place) : Rule (Option Expr) := do
  match ← symbol? place.symbol with
  | some _ => return none
  | none => do
    let e ← expression n
    let _ ← expect place
    return some e

/-- The value of a variable declaration, and the semicolon that ends it. -/
def varDecl (n : Nat) : Rule Stmt := do
  let name ← name .variable
  match ← symbol? .equal with
  | some _ => do
    let initializer ← expression n
    let _ ← expect .variableEnd
    return .varDecl name (some initializer)
  | none => do
    let _ ← expect .variableEnd
    return .varDecl name none

/-- An expression as a statement. -/
def expressionStmt (n : Nat) : Rule Stmt := do
  let e ← expression n
  let _ ← expect .expressionEnd
  return .expression e

/-- What is done before a loop, if anything. -/
def forInitializer (n : Nat) : Rule (Option Stmt) := do
  match ← symbol? .semicolon with
  | some _ => return none
  | none => do
    match ← keyword? .var with
    | some _ => return some (← varDecl n)
    | none => return some (← expressionStmt n)

/-- A `for` loop as a block with a `while` loop. -/
def loop (initializer : Option Stmt) (condition increment : Option Expr) (body : Stmt) : Stmt :=
  let body :=
    match increment with
    | some increment => .block [body, .expression increment]
    | none => body
  let loop := .while (condition.getD (.literal .true)) body
  match initializer with
  | some initializer => .block [initializer, loop]
  | none => loop

/-- One parameter or more, after `count` others. -/
def parametersFrom : Nat → Nat → Rule (List Lexeme)
  | 0, _ => fail (.missingName .parameter)
  | n + 1, count => do
    if Listing.limit ≤ count then
      fail (.tooMany .parameters)
    else do
      let parameter ← name .parameter
      match ← symbol? .comma with
      | some _ => return parameter :: (← parametersFrom n (count + 1))
      | none => return [parameter]

/-- The parameters of a function, after the opening parenthesis. -/
def parameters (n : Nat) : Rule (List Lexeme) := do
  match ← symbol? .rightParen with
  | some _ => return []
  | none => do
    let parameters ← parametersFrom n 0
    let _ ← expect .parametersEnd
    return parameters

/-- The superclass that a class names, if it names one. -/
def superclass : Rule (Option Superclass) := do
  match ← symbol? .less with
  | some _ => do
    let name ← name .superclass
    return some ⟨← freshId, name⟩
  | none => return none

mutual

/-- What may stand in a block: a declaration or a statement. -/
def declaration : Nat → Rule Stmt
  | 0 => fail .missingExpression
  | n + 1 => do
    match ← keyword? .class with
    | some _ => classDecl n
    | none =>
    match ← keyword? .fun with
    | some _ => return .function (← function n .function)
    | none =>
    match ← keyword? .var with
    | some _ => varDecl n
    | none => statement n

/-- A class, after its keyword. -/
def classDecl : Nat → Rule Stmt
  | 0 => fail .missingExpression
  | n + 1 => do
    let name ← name .class
    let superclass ← superclass
    let _ ← expect .classBody
    return .classDecl name superclass (← methods n)

/-- The methods of a class, and the brace that closes it. -/
def methods : Nat → Rule (List FunctionDecl)
  | 0 => fail .missingExpression
  | n + 1 => do
    match ← symbol? .rightBrace with
    | some _ => return []
    | none =>
      if ← atEnd then
        fail (.missingSymbol .classEnd)
      else do
        let method ← function n .method
        return method :: (← methods n)

/-- The name, the parameters and the body of a function or a method. -/
def function : Nat → Routine → Rule FunctionDecl
  | 0, _ => fail .missingExpression
  | n + 1, routine => do
    let name ← name (.routine routine)
    let _ ← expect (.parameters routine)
    let params ← parameters n
    let _ ← expect (.body routine)
    return ⟨name, params, ← block n⟩

/-- The statements of a block, and the brace that closes it. -/
def block : Nat → Rule (List Stmt)
  | 0 => fail .missingExpression
  | n + 1 => do
    match ← symbol? .rightBrace with
    | some _ => return []
    | none =>
      if ← atEnd then
        fail (.missingSymbol .blockEnd)
      else do
        let first ← declaration n
        return first :: (← block n)

/-- A statement that declares nothing in the block around it. -/
def statement : Nat → Rule Stmt
  | 0 => fail .missingExpression
  | n + 1 => do
    match ← keyword? .for with
    | some _ => forStmt n
    | none =>
    match ← keyword? .if with
    | some _ => ifStmt n
    | none =>
    match ← keyword? .print with
    | some _ => do
      let e ← expression n
      let _ ← expect .printEnd
      return .print e
    | none =>
    match ← keyword? .return with
    | some keyword => return .returning keyword (← optionalExpression n .returnEnd)
    | none =>
    match ← keyword? .while with
    | some _ => do
      let _ ← expect .whileCondition
      let condition ← expression n
      let _ ← expect .whileConditionEnd
      return .while condition (← statement n)
    | none =>
    match ← symbol? .leftBrace with
    | some _ => return .block (← block n)
    | none => expressionStmt n

/-- A `for` loop, after its keyword. -/
def forStmt : Nat → Rule Stmt
  | 0 => fail .missingExpression
  | n + 1 => do
    let _ ← expect .forClauses
    let initializer ← forInitializer n
    let condition ← optionalExpression n .forCondition
    let increment ← optionalExpression n .forClausesEnd
    return loop initializer condition increment (← statement n)

/-- A choice, after its keyword; `else` belongs to the nearest `if`. -/
def ifStmt : Nat → Rule Stmt
  | 0 => fail .missingExpression
  | n + 1 => do
    let _ ← expect .ifCondition
    let condition ← expression n
    let _ ← expect .ifConditionEnd
    let thenBranch ← statement n
    match ← keyword? .else with
    | some _ => return .ifElse condition thenBranch (← statement n)
    | none => return .ifThen condition thenBranch

end

end Rule

/-- A depth that no list of tokens exceeds: between two tokens, rules nest less than this deep. -/
def depth (tokens : List Token) : Nat :=
  24 * (tokens.length + 1)

end Lox
