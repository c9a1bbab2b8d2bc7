import Mathlib.Logic.Relation
import Lox.Source
import Lox.Proofs.Eval.Laws

/-!
# The points of a run

Each rule of evaluation is a task, which a run performs on some machine (`Task.run`). A point of a
run is a task about to be performed, the machine it is performed on, and the fuel that is left. A
point calls other points: the tasks that its rule performs, each on the machine that the tasks
before it left (`Point.Calls`, one constructor for each task that a rule performs). The points of
a run are those that are reached from a statement of the program (`Reached`). Functions are made at
points of three kinds: where they are declared, where the class is declared that they are methods
of, and where such a method is bound.
-/

namespace Lox

/-- What the rules of evaluation perform. -/
inductive Task
  | expr (e : Expr)
  | exprs (es : List Expr)
  | apply (f : Value) (paren : Lexeme) (vs : List Value)
  | call (f : Function) (vs : List Value)
  | make (c : Class) (vs : List Value)
  | stmt (s : Stmt)
  | stmts (ss : List Stmt)
  | loop (condition : Expr) (body : Stmt)

namespace Task

/-- What a task gives. -/
@[reducible] def Answer : Task → Type
  | expr _ | apply .. | call .. | make .. => Value
  | exprs _ => List Value
  | stmt _ | stmts _ | loop .. => Flow

/-- Performs a task. -/
def run (n : Nat) : (t : Task) → Eval t.Answer
  | expr e => Eval.expr n e
  | exprs es => Eval.exprs n es
  | apply f paren vs => Eval.apply n f paren vs
  | call f vs => Eval.call n f vs
  | make c vs => Eval.make n c vs
  | stmt s => Eval.stmt n s
  | stmts ss => Eval.stmts n ss
  | loop condition body => Eval.loop n condition body

/-- The values that a task works with, next to those that are on the heap. -/
def values : Task → List Value
  | apply f _ vs => f :: vs
  | call f vs => .function f :: vs
  | make c vs => .class c :: vs
  | _ => []

/-- The values in the answer of a task. -/
def given : (t : Task) → t.Answer → List Value
  | expr _, v | apply .., v | call .., v | make .., v => [v]
  | exprs _, vs => vs
  | stmt _, flow | stmts _, flow | loop .., flow =>
    match flow with
    | .normal => []
    | .returned v => [v]

/-- Does the task evaluate expressions of the current body? -/
def evaluates : Task → Bool
  | expr _ | exprs _ => true
  | _ => false

/-- Does the task run statements of the current body? -/
def runsStatements : Task → Bool
  | stmt _ | stmts _ | loop .. => true
  | _ => false

end Task

/-- A point of a run. -/
structure Point where
  fuel : Nat
  task : Task
  machine : Machine

namespace Point

/-- The first point performs the second as a step of its own rule. -/
inductive Calls : Point → Point → Prop
  | assign {n m id name value} : Calls ⟨n + 1, .expr (.assign id name value), m⟩ ⟨n, .expr value, m⟩
  | binaryLeft {n m op mark left right} :
    Calls ⟨n + 1, .expr (.binary op mark left right), m⟩ ⟨n, .expr left, m⟩
  | binaryRight {n m op mark left right a m₁} (h : Eval.expr n left m = .ok a m₁) :
    Calls ⟨n + 1, .expr (.binary op mark left right), m⟩ ⟨n, .expr right, m₁⟩
  | callee {n m callee paren arguments} :
    Calls ⟨n + 1, .expr (.call callee paren arguments), m⟩ ⟨n, .expr callee, m⟩
  | arguments {n m callee paren arguments f m₁} (h : Eval.expr n callee m = .ok f m₁) :
    Calls ⟨n + 1, .expr (.call callee paren arguments), m⟩ ⟨n, .exprs arguments, m₁⟩
  | apply {n m callee paren arguments f m₁ vs m₂} (h : Eval.expr n callee m = .ok f m₁)
    (h' : Eval.exprs n arguments m₁ = .ok vs m₂) :
    Calls ⟨n + 1, .expr (.call callee paren arguments), m⟩ ⟨n, .apply f paren vs, m₂⟩
  | getObject {n m object name} : Calls ⟨n + 1, .expr (.get object name), m⟩ ⟨n, .expr object, m⟩
  | grouping {n m inner} : Calls ⟨n + 1, .expr (.grouping inner), m⟩ ⟨n, .expr inner, m⟩
  | logicalLeft {n m op mark left right} :
    Calls ⟨n + 1, .expr (.logical op mark left right), m⟩ ⟨n, .expr left, m⟩
  | logicalRight {n m op mark left right v m₁} (h : Eval.expr n left m = .ok v m₁)
    (undecided : op.decides v = false) :
    Calls ⟨n + 1, .expr (.logical op mark left right), m⟩ ⟨n, .expr right, m₁⟩
  | setValue {n m object name value} :
    Calls ⟨n + 1, .expr (.set object name value), m⟩ ⟨n, .expr value, m⟩
  | setObject {n m object name value v m₁} (h : Eval.expr n value m = .ok v m₁) :
    Calls ⟨n + 1, .expr (.set object name value), m⟩ ⟨n, .expr object, m₁⟩
  | unary {n m op mark right} : Calls ⟨n + 1, .expr (.unary op mark right), m⟩ ⟨n, .expr right, m⟩
  | firstOf {n m e es} : Calls ⟨n + 1, .exprs (e :: es), m⟩ ⟨n, .expr e, m⟩
  | restOf {n m e es v m₁} (h : Eval.expr n e m = .ok v m₁) :
    Calls ⟨n + 1, .exprs (e :: es), m⟩ ⟨n, .exprs es, m₁⟩
  | function {n m f paren vs} (enough : f.arity ≤ vs.length) :
    Calls ⟨n + 1, .apply (.function f) paren vs, m⟩ ⟨n, .call f vs, m⟩
  | «class» {n m c paren vs} (enough : c.arity ≤ vs.length) :
    Calls ⟨n + 1, .apply (.class c) paren vs, m⟩ ⟨n, .make c vs, m⟩
  | body {n m f vs} : Calls ⟨n + 1, .call f vs, m⟩ ⟨n, .stmts f.decl.body, m.activate f vs⟩
  | initializer {n m c vs f o m₁} (h : c.initializer? = some f)
    (made : Eval.newInstance c m = .ok o m₁) :
    Calls ⟨n + 1, .make c vs, m⟩ ⟨n, .call (f.boundBy m₁) vs, m₁.afterBinding f o⟩
  | block {n m body} : Calls ⟨n + 1, .stmt (.block body), m⟩ ⟨n, .stmts body, m.enter m.current⟩
  | expression {n m e} : Calls ⟨n + 1, .stmt (.expression e), m⟩ ⟨n, .expr e, m⟩
  | ifThenCondition {n m condition thenBranch} :
    Calls ⟨n + 1, .stmt (.ifThen condition thenBranch), m⟩ ⟨n, .expr condition, m⟩
  | ifThen {n m condition thenBranch v m₁} (h : Eval.expr n condition m = .ok v m₁)
    (holds : v.isTruthy = true) :
    Calls ⟨n + 1, .stmt (.ifThen condition thenBranch), m⟩ ⟨n, .stmt thenBranch, m₁⟩
  | ifElseCondition {n m condition thenBranch elseBranch} :
    Calls ⟨n + 1, .stmt (.ifElse condition thenBranch elseBranch), m⟩ ⟨n, .expr condition, m⟩
  | ifElseThen {n m condition thenBranch elseBranch v m₁} (h : Eval.expr n condition m = .ok v m₁)
    (holds : v.isTruthy = true) :
    Calls ⟨n + 1, .stmt (.ifElse condition thenBranch elseBranch), m⟩ ⟨n, .stmt thenBranch, m₁⟩
  | ifElse {n m condition thenBranch elseBranch v m₁} (h : Eval.expr n condition m = .ok v m₁)
    (fails : v.isTruthy = false) :
    Calls ⟨n + 1, .stmt (.ifElse condition thenBranch elseBranch), m⟩ ⟨n, .stmt elseBranch, m₁⟩
  | print {n m e} : Calls ⟨n + 1, .stmt (.print e), m⟩ ⟨n, .expr e, m⟩
  | returning {n m keyword value} :
    Calls ⟨n + 1, .stmt (.returning keyword (some value)), m⟩ ⟨n, .expr value, m⟩
  | varDecl {n m name initializer} :
    Calls ⟨n + 1, .stmt (.varDecl name (some initializer)), m⟩ ⟨n, .expr initializer, m⟩
  | while {n m condition body} :
    Calls ⟨n + 1, .stmt (.while condition body), m⟩ ⟨n, .loop condition body, m⟩
  | firstStmt {n m s ss} : Calls ⟨n + 1, .stmts (s :: ss), m⟩ ⟨n, .stmt s, m⟩
  | restStmts {n m s ss m₁} (h : Eval.stmt n s m = .ok .normal m₁) :
    Calls ⟨n + 1, .stmts (s :: ss), m⟩ ⟨n, .stmts ss, m₁⟩
  | loopCondition {n m condition body} :
    Calls ⟨n + 1, .loop condition body, m⟩ ⟨n, .expr condition, m⟩
  | loopBody {n m condition body v m₁} (h : Eval.expr n condition m = .ok v m₁)
    (holds : v.isTruthy = true) : Calls ⟨n + 1, .loop condition body, m⟩ ⟨n, .stmt body, m₁⟩
  | loopAgain {n m condition body v m₁ m₂} (h : Eval.expr n condition m = .ok v m₁)
    (holds : v.isTruthy = true) (h' : Eval.stmt n body m₁ = .ok .normal m₂) :
    Calls ⟨n + 1, .loop condition body, m⟩ ⟨n, .loop condition body, m₂⟩

/-- The first point performs the second in its course. -/
abbrev Reaches : Point → Point → Prop :=
  Relation.ReflTransGen Calls

/-! ## What a point makes -/

/-- At the point a function declaration makes the function. -/
inductive DeclaresFunction : Point → Function → Prop
  | intro {n m decl} : DeclaresFunction ⟨n + 1, .stmt (.function decl), m⟩
    ⟨m.nextIdentity, decl, m.current, false⟩

/-- At the point a class declaration, whose superclass, if it names one, is then the class
`superclass`, makes the methods `table`. -/
inductive DeclaresMethods : Point → Option Class → Std.TreeMap String Function → Prop
  | intro {n m m₁ m₂ name superclass methods superclass' table}
    (declared : Eval.declare name m = .ok () m₁)
    (yields : Eval.superclassOf name superclass m₁ = .ok superclass' m₁)
    (made : Eval.inMethodFrame superclass' (Eval.declareMethods methods ∅) m₁ = .ok table m₂) :
    DeclaresMethods ⟨n + 1, .stmt (.classDecl name superclass methods), m⟩ superclass' table

/-- At the point the method `f` is bound to the instance `o`, by the machine `m'`: as a property of
`o`, through `super` in a method that runs on `o`, or because `o` is made. -/
inductive BindsMethod : Point → Function → Instance → Machine → Prop
  | property {n m object name f o m'} (evaluated : Eval.expr n object m = .ok (.instance o) m')
    (noField : m'.heap.field? o.identity name.text = none)
    (found : o.ofClass.method? name.text = some f) :
    BindsMethod ⟨n + 1, .expr (.get object name), m⟩ f o m'
  | super {n m id keyword method d c f o} (known : m.distances[id]? = some (d + 1))
    (superclass : m.heap.getAt m.current (d + 1) "super" = .class c)
    (receiver : m.heap.getAt m.current d "this" = .instance o)
    (found : c.method? method.text = some f) :
    BindsMethod ⟨n + 1, .expr (.super id keyword method), m⟩ f o m
  | initializer {n m c vs f o m'} (found : c.initializer? = some f)
    (made : Eval.newInstance c m = .ok o m') : BindsMethod ⟨n + 1, .make c vs, m⟩ f o m'

end Point

/-- Running the statements `ss` on `m` comes to the statement `s` of them, on the machine `m'`. -/
inductive Starts (fuel : Nat) : List Stmt → Machine → Stmt → Machine → Prop
  | first {s ss m} : Starts fuel (s :: ss) m s m
  | later {s ss m flow m₁ s' m'} (h : Eval.stmt fuel s m = .ok flow m₁)
    (rest : Starts fuel ss m₁ s' m') : Starts fuel (s :: ss) m s' m'

/-- The point at which one of the statements `ss` starts when they are run on `m`. -/
def Starting (fuel : Nat) (ss : List Stmt) (m : Machine) (y : Point) : Prop :=
  ∃ s m', Starts fuel ss m s m' ∧ y = ⟨fuel, .stmt s, m'⟩

/-- The points of a run of the statements `ss` on `m`. -/
def Passes (fuel : Nat) (ss : List Stmt) (m : Machine) (x : Point) : Prop :=
  ∃ y, Starting fuel ss m y ∧ y.Reaches x

section
variable {fuel : Nat} {s : Stmt} {ss : List Stmt} {m m' : Machine} {x : Point}

theorem Starts.append (h : Starts fuel ss m s m') (more : List Stmt) :
    Starts fuel (ss ++ more) m s m' := by
  induction h with
  | first => exact .first
  | later ran _ ih => exact .later ran ih

theorem Starts.passes (h : Starts fuel ss m s m') (path : Point.Reaches ⟨fuel, .stmt s, m'⟩ x) :
    Passes fuel ss m x :=
  ⟨_, ⟨s, m', h, rfl⟩, path⟩

theorem Passes.later {flow : Flow} (ran : Eval.stmt fuel s m = .ok flow m')
    (h : Passes fuel ss m' x) : Passes fuel (s :: ss) m x := by
  obtain ⟨_, ⟨s', m₁, starts, rfl⟩, path⟩ := h
  exact (Starts.later ran starts).passes path

theorem Passes.append (h : Passes fuel ss m x) (more : List Stmt) :
    Passes fuel (ss ++ more) m x := by
  obtain ⟨_, ⟨s', m₁, starts, rfl⟩, path⟩ := h
  exact (starts.append more).passes path

end

/-- The machine on which a program starts that is run on its own. -/
def Checked.start (p : Checked) (host : Host) : Machine :=
  { Machine.start host with distances := p.distances }

/-- `x` is a point of the run of the program `p`. -/
def Reached (p : Checked) (host : Host) (fuel : Nat) (x : Point) : Prop :=
  ∃ s m, Starts fuel p.statements (p.start host) s m ∧ Point.Reaches ⟨fuel, .stmt s, m⟩ x

end Lox
