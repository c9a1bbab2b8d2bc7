import Lox.Operators
import Lox.Objects

/-!
# Evaluation

Expressions give values; statements run on to the next one or return from a function. Every rule
takes as its first argument how deep rules may be nested and how often a loop may go round
together (`fuel`). A run that ends does not depend on how much fuel is left.
-/

namespace Lox

/-- How a statement ends when it does not fail. -/
inductive Flow
  | normal
  | returned (v : Value)

namespace Eval

/-- The result of an operator, or a failure at it. -/
def ofExcept (mark : Lexeme) : Except RuntimeCause Value → Eval Value
  | .ok v => return v
  | .error cause => fail mark cause

/-- What a call gives, once the body has ended: for an initializer the instance that it was bound
to, otherwise what was returned. -/
def result (f : Function) (flow : Flow) : Eval Value := fun m =>
  if f.isInitializer then
    .ok (m.heap.getAt f.closure 0 "this") m
  else
    match flow with
    | .returned v => .ok v m
    | .normal => .ok .nil m

mutual

/-- Evaluates an expression. -/
def expr : Nat → Expr → Eval Value
  | 0, _ => throw .outOfFuel
  | n + 1, .assign id name value => do
    let v ← expr n value
    assign id name v
    return v
  | n + 1, .binary op mark left right => do
    let a ← expr n left
    let b ← expr n right
    ofExcept mark (op.apply a b)
  | n + 1, .call callee paren arguments => do
    let f ← expr n callee
    let vs ← exprs n arguments
    apply n f paren vs
  | n + 1, .get object name => do
    match ← expr n object with
    | .instance o => property o name
    | _ => fail name .noProperties
  | n + 1, .grouping inner => expr n inner
  | _ + 1, .literal value => return value.value
  | n + 1, .logical op _ left right => do
    let v ← expr n left
    if op.decides v then return v else expr n right
  | n + 1, .set object name value => do
    let v ← expr n value
    match ← expr n object with
    | .instance o => do
      setProperty o name v
      return v
    | _ => fail name .noFields
  | _ + 1, .super id keyword method => superMethod id keyword method
  | _ + 1, .this id keyword => lookUp id keyword
  | n + 1, .unary op mark right => do
    let v ← expr n right
    ofExcept mark (op.apply v)
  | _ + 1, .variable id name => lookUp id name

/-- Evaluates expressions in order. -/
def exprs : Nat → List Expr → Eval (List Value)
  | 0, _ => throw .outOfFuel
  | _ + 1, [] => return []
  | n + 1, e :: es => do
    let v ← expr n e
    let vs ← exprs n es
    return v :: vs

/-- Calls the value `f` with arguments. -/
def apply : Nat → Value → Lexeme → List Value → Eval Value
  | 0, _, _, _ => throw .outOfFuel
  | n + 1, .function f, paren, vs => do
    checkArity paren f.arity vs.length
    call n f vs
  | _ + 1, .native .clock, _, _ => readClock
  | n + 1, .class c, paren, vs => do
    checkArity paren c.arity vs.length
    make n c vs
  | _ + 1, _, paren, _ => fail paren .notCallable

/-- Runs the body of a function in a new frame. Arguments beyond the parameters are dropped. -/
def call : Nat → Function → List Value → Eval Value
  | 0, _, _ => throw .outOfFuel
  | n + 1, f, vs => do
    let frame ← newFrame f.closure
    bindParams frame f.decl.params vs
    let flow ← within frame (stmts n f.decl.body)
    result f flow

/-- Makes an instance of a class and runs its initializer, if it has one. -/
def make : Nat → Class → List Value → Eval Value
  | 0, _, _ => throw .outOfFuel
  | n + 1, c, vs => do
    let o ← newInstance c
    match c.initializer? with
    | some f => do
      let f ← bind f o
      let _ ← call n f vs
      return .instance o
    | none => return .instance o

/-- Runs a statement. -/
def stmt : Nat → Stmt → Eval Flow
  | 0, _ => throw .outOfFuel
  | n + 1, .block body => do
    let frame ← newFrame (← currentFrame)
    within frame (stmts n body)
  | _ + 1, .classDecl name superclass methods => do
    declareClass name superclass methods
    return .normal
  | n + 1, .expression e => do
    let _ ← expr n e
    return .normal
  | _ + 1, .function decl => do
    declareFunction decl
    return .normal
  | n + 1, .ifThen condition thenBranch => do
    let v ← expr n condition
    if v.isTruthy then stmt n thenBranch else return .normal
  | n + 1, .ifElse condition thenBranch elseBranch => do
    let v ← expr n condition
    if v.isTruthy then stmt n thenBranch else stmt n elseBranch
  | n + 1, .print e => do
    let v ← expr n e
    write v.text
    return .normal
  | _ + 1, .returning _ none => return .returned .nil
  | n + 1, .returning _ (some value) => do
    let v ← expr n value
    return .returned v
  | _ + 1, .varDecl name none => do
    define name .nil
    return .normal
  | n + 1, .varDecl name (some initializer) => do
    let v ← expr n initializer
    define name v
    return .normal
  | n + 1, .while condition body => loop n condition body

/-- Runs statements in order, up to one that returns. -/
def stmts : Nat → List Stmt → Eval Flow
  | 0, _ => throw .outOfFuel
  | _ + 1, [] => return .normal
  | n + 1, s :: ss => do
    match ← stmt n s with
    | .normal => stmts n ss
    | .returned v => return .returned v

/-- Runs a loop. -/
def loop : Nat → Expr → Stmt → Eval Flow
  | 0, _, _ => throw .outOfFuel
  | n + 1, condition, body => do
    let v ← expr n condition
    if v.isTruthy then
      match ← stmt n body with
      | .normal => loop n condition body
      | .returned v => return .returned v
    else
      return .normal

end

/-- Runs the statements of a program, in order. A statement that returns ends only itself. -/
def topLevel (fuel : Nat) : List Stmt → Eval Unit
  | [] => return ()
  | s :: ss => do
    let _ ← stmt fuel s
    topLevel fuel ss

/-- Runs a program whose references lie at `distances`, and flushes what it printed. -/
def program (fuel : Nat) (statements : List Stmt) (distances : Distances) : Eval Unit := do
  modify fun m => { m with distances := distances }
  topLevel fuel statements
  flush

end Eval

/-- More fuel than any run can use up in practice. -/
def ampleFuel : Nat := Nat.pow 2 62

end Lox
