import Lox.Proofs.Syntax.Trees
import Lox.Proofs.Eval.CurrentFrame

/-!
# Rules as compositions

The rule for a task performs operations of the machine and the tasks that it calls, one after the
other, and fails in few ways of its own, at a name, an operator or a parenthesis of what it performs
(`Task.Raises`). So a property of computations that is kept by sequencing, and is true of the
operations and of the tasks that are called, is true of the task (`Point.Composes.task`). What each
operation is performed for is part of what is asked (`Point.Composes`): frames are made for blocks,
calls, superclasses and receivers (`Point.Opens`), names are bound where they are declared or
assigned, a text is written once it was evaluated.
-/

namespace Lox

/-- A runtime error at a name, operator or parenthesis. -/
def Lexeme.blamedFor (l : Lexeme) (cause : RuntimeCause) : Failure :=
  .runtime ⟨cause, l.line⟩

/-- The failures that the rule for a task raises itself. -/
inductive Task.Raises : Task → Failure → Prop
  | assign {id name value} :
    Raises (.expr (.assign id name value)) (name.blamedFor (.undefinedVariable name.text))
  | operandsNotNumbers {op mark left right} :
    Raises (.expr (.binary op mark left right)) (mark.blamedFor .operandsNotNumbers)
  | operandsNotAddable {op mark left right} :
    Raises (.expr (.binary op mark left right)) (mark.blamedFor .operandsNotAddable)
  | noProperties {object name} : Raises (.expr (.get object name)) (name.blamedFor .noProperties)
  | undefinedProperty {object name} :
    Raises (.expr (.get object name)) (name.blamedFor (.undefinedProperty name.text))
  | noFields {object name value} :
    Raises (.expr (.set object name value)) (name.blamedFor .noFields)
  | superOutsideClass {id keyword method} :
    Raises (.expr (.super id keyword method)) (keyword.blamedFor .superOutsideClass)
  | superUndefined {id keyword method} :
    Raises (.expr (.super id keyword method)) (method.blamedFor (.undefinedProperty method.text))
  | this {id keyword} :
    Raises (.expr (.this id keyword)) (keyword.blamedFor (.undefinedVariable keyword.text))
  | operandNotNumber {op mark right} :
    Raises (.expr (.unary op mark right)) (mark.blamedFor .operandNotNumber)
  | variable {id name} :
    Raises (.expr (.variable id name)) (name.blamedFor (.undefinedVariable name.text))
  | notCallable {f paren vs} : Raises (.apply f paren vs) (paren.blamedFor .notCallable)
  | notEnoughArguments {f paren vs} {expected : Nat} (few : vs.length < expected) :
    Raises (.apply f paren vs) (paren.blamedFor (.notEnoughArguments expected vs.length))
  | superclassUndefined {name superclass methods} {c : Superclass} (h : superclass = some c) :
    Raises (.stmt (.classDecl name superclass methods))
      (c.name.blamedFor (.undefinedVariable c.name.text))
  | superclassNotClass {name superclass methods} :
    Raises (.stmt (.classDecl name superclass methods)) (name.blamedFor .superclassNotClass)
  | classUndefined {name superclass methods} :
    Raises (.stmt (.classDecl name superclass methods))
      (name.blamedFor (.undefinedVariable name.text))
  | functionUndefined {decl} :
    Raises (.stmt (.function decl)) (decl.name.blamedFor (.undefinedVariable decl.name.text))
  | sinkFull {e} : Raises (.stmt (.print e)) (.io .sinkFull)

theorem BinaryOp.cause_of_apply {op : BinaryOp} {a b : Value} {cause : RuntimeCause}
    (e : op.apply a b = .error cause) :
    cause = .operandsNotNumbers ∨ cause = .operandsNotAddable := by
  have onNumbers {f : Float → Float → Value} (e : onNumbers f a b = .error cause) :
      cause = .operandsNotNumbers := by
    unfold BinaryOp.onNumbers at e
    split at e <;> cases e
    rfl
  cases op with
  | add =>
    cases a <;> cases b <;> cases e <;> exact .inr rfl
  | equal | unequal => cases e
  | subtract | multiply | divide | greater | greaterEqual | less | lessEqual =>
    exact .inl (onNumbers e)

theorem UnaryOp.cause_of_apply {op : UnaryOp} {v : Value} {cause : RuntimeCause}
    (e : op.apply v = .error cause) : cause = .operandNotNumber := by
  unfold apply at e
  split at e <;> cases e
  rfl

/-- The point runs the declaration of the name. -/
def Point.Declares (x : Point) (name : String) : Prop :=
  ∃ s, x.task = .stmt s ∧ s.declared? = some name

/-- What a frame is made for. -/
inductive Purpose
  | block (body : List Stmt)
  | call (f : Function)
  | superclass (c : Class)
  | receiver (o : Instance)

/-- The names that a frame may bind: what is declared directly in the block, the parameters and what
is declared directly in the body, or the keyword. -/
def Purpose.names : Purpose → List String
  | block body => body.filterMap Stmt.declared?
  | call f => f.decl.params.map Lexeme.text ++ f.decl.body.filterMap Stmt.declared?
  | superclass _ => ["super"]
  | receiver _ => ["this"]

/-- At the point the frame is made, for a block, for a call, around the methods of a class with a
superclass, or to bind a method. -/
inductive Point.Opens : Point → FrameId → Purpose → Prop
  | block {n m body} : Opens ⟨n + 1, .stmt (.block body), m⟩ m.heap.frames.size (.block body)
  | call {n m f vs} : Opens ⟨n + 1, .call f vs, m⟩ m.heap.frames.size (.call f)
  | super {n m m₁ name superclass methods c} (declared : Eval.declare name m = .ok () m₁)
    (yields : Eval.superclassOf name superclass m₁ = .ok (some c) m₁) :
    Opens ⟨n + 1, .stmt (.classDecl name superclass methods), m⟩ m.heap.frames.size (.superclass c)
  | receiver {x f o m} (binds : x.BindsMethod f o m) : Opens x m.heap.frames.size (.receiver o)

/-- What is asked of a property of computations, each on a machine, for it to be true of the rule
for the task of `x`. -/
structure Point.Composes (x : Point) (Q : (α : Type) → Eval α → Machine → Prop) : Prop where
  outOfFuel {α : Type} {m : Machine} : Q α (throw .outOfFuel) m
  pure {α : Type} {m : Machine} (a : α) : Q α (pure a) m
  bind {α β : Type} {m : Machine} {y : Eval α} {f : α → Eval β} : Q α y m →
    (∀ a m₁, y m = .ok a m₁ → Q β (f a) m₁) → Q β (y >>= f) m
  within {α : Type} {m : Machine} {frame : FrameId} {body : Eval α} :
    Q α body { m with current := frame } → Q α (Eval.within frame body) m
  /-- The rule performs a task that it calls. -/
  calls {n : Nat} {t : Task} {m : Machine} : x.Calls ⟨n, t, m⟩ → Q t.Answer (t.run n) m
  fail {α : Type} {m : Machine} {l : Lexeme} {cause : RuntimeCause} :
    x.task.Raises (l.blamedFor cause) → Q α (Eval.fail l cause) m
  /-- What follows reads the machine, but not its host. -/
  get {β : Type} {m : Machine} {f : Machine → Eval β} :
    (∀ host, f { m with host := host } = f m) → Q β (f m) m → Q β (get >>= f) m
  currentFrame {m : Machine} : Q FrameId Eval.currentFrame m
  freshIdentity {m : Machine} : Q Identity Eval.freshIdentity m
  newFrame {m : Machine} {purpose : Purpose} (outer : FrameId) :
    x.Opens m.heap.frames.size purpose → Q FrameId (Eval.newFrame outer) m
  newInstance {m : Machine} (c : Class) : Q Instance (Eval.newInstance c) m
  readClock {m : Machine} : Q Value Eval.readClock m
  lookUpAt {m : Machine} (distance : Nat) (name : String) :
    Q Value (Eval.lookUpAt distance name) m
  lookUp {m : Machine} {name : Lexeme} (id : ExprId) :
    x.task.Raises (name.blamedFor (.undefinedVariable name.text)) → Q Value (Eval.lookUp id name) m
  setProperty {n : Nat} {object : Expr} {name : Lexeme} {value : Expr} {m₀ m₁ m : Machine}
    {v : Value} {o : Instance} : x = ⟨n + 1, .expr (.set object name value), m₀⟩ →
    Eval.expr n value m₀ = .ok v m₁ → Eval.expr n object m₁ = .ok (.instance o) m →
    Q Unit (Eval.setProperty o name v) m
  result {m : Machine} (f : Function) (flow : Flow) : Q Value (Eval.result f flow) m
  /-- A name that is bound is bound to something else. -/
  assignFrom {m : Machine} {name : Lexeme} (frame : FrameId) (v : Value) :
    x.task.Raises (name.blamedFor (.undefinedVariable name.text)) →
    Q Unit (Eval.assignFrom frame name v) m
  assign {n : Nat} {id : ExprId} {name : Lexeme} {value : Expr} {m₀ m : Machine} {v : Value} :
    x = ⟨n + 1, .expr (.assign id name value), m₀⟩ → Eval.expr n value m₀ = .ok v m →
    Q Unit (Eval.assign id name v) m
  define {m : Machine} {name : Lexeme} (v : Value) : x.Declares name.text →
    x.machine.SameSetting m → Q Unit (Eval.define name v) m
  declare {m : Machine} {name : Lexeme} : x.Declares name.text → x.machine.SameSetting m →
    Q Unit (Eval.declare name) m
  bindMethod {m : Machine} {f : Function} {o : Instance} : x.BindsMethod f o m →
    Q Function (Eval.bind f o) m
  /-- In the frame that was made for the methods of a class `super` is bound. -/
  bindSuper {m : Machine} {c : Class} : x.Opens x.machine.heap.frames.size (.superclass c) →
    Q Unit (Eval.modifyHeap (·.define x.machine.heap.frames.size "super" (.class c))) m
  /-- In the frame that was made for a call the parameters are bound. -/
  bindParams {n : Nat} {f : Function} {vs : List Value} {m₀ m : Machine} :
    x = ⟨n + 1, .call f vs, m₀⟩ →
    Q Unit (Eval.bindParams m₀.heap.frames.size f.decl.params vs) m
  write {n : Nat} {e : Expr} {m₀ m : Machine} {v : Value} : x = ⟨n + 1, .stmt (.print e), m₀⟩ →
    Eval.expr n e m₀ = .ok v m → Q Unit (Eval.write v.text) m

namespace Point.Composes

open Eval

variable {Q : (α : Type) → Eval α → Machine → Prop} {α : Type} {x : Point} {n : Nat}
  {m m₀ : Machine}

/-! ## Operations -/

section
variable (h : x.Composes Q)
include h

theorem ofExcept {mark : Lexeme} {r : Except RuntimeCause Value}
    (raises : ∀ cause, r = .error cause → x.task.Raises (mark.blamedFor cause)) :
    Q Value (ofExcept mark r) m := by
  cases r with
  | ok v => exact h.pure v
  | error cause => exact h.fail (raises cause rfl)

theorem checkArity {paren : Lexeme} {expected given : Nat}
    (raises : given < expected →
      x.task.Raises (paren.blamedFor (.notEnoughArguments expected given))) :
    Q Unit (checkArity paren expected given) m := by
  unfold Eval.checkArity
  split
  · rename_i few
    exact h.fail (raises few)
  · exact h.pure ()

/-- A method as a value of its own, bound to an instance. -/
theorem boundMethod {f : Function} {o : Instance} (binds : x.BindsMethod f o m) :
    Q Value (do return .function (← Eval.bind f o)) m :=
  h.bind (h.bindMethod binds) fun g _ _ => h.pure (Value.function g)

theorem property {o : Instance} {name : Lexeme}
    (binds : ∀ f, m.heap.field? o.identity name.text = none →
      o.ofClass.method? name.text = some f → x.BindsMethod f o m)
    (raises : x.task.Raises (name.blamedFor (.undefinedProperty name.text))) :
    Q Value (property o name) m := by
  refine h.get (fun _ => rfl) ?_
  split
  · exact h.pure _
  · rename_i noField
    split
    · rename_i f found
      exact h.boundMethod (binds f noField found)
    · exact h.fail raises

theorem declareFunction {decl : FunctionDecl} (task : x.task = .stmt (.function decl))
    (same : x.machine.SameSetting m) : Q Unit (declareFunction decl) m := by
  have raises : x.task.Raises (decl.name.blamedFor (.undefinedVariable decl.name.text)) :=
    task ▸ .functionUndefined
  exact h.bind (h.declare ⟨_, task, rfl⟩ same) fun _ _ _ => h.bind h.currentFrame fun _ _ _ =>
    h.bind h.freshIdentity fun _ _ _ => h.assignFrom _ _ raises

theorem declareMethods {decls : List FunctionDecl} {methods : Std.TreeMap String Function} :
    Q _ (declareMethods decls methods) m := by
  induction decls generalizing methods m with
  | nil => exact h.pure methods
  | cons decl decls ih =>
    exact h.bind h.freshIdentity fun _ _ _ => h.bind h.currentFrame fun _ _ _ => ih

theorem superclassOf {name : Lexeme} {superclass : Option Superclass}
    (undefined : ∀ c, superclass = some c →
      x.task.Raises (c.name.blamedFor (.undefinedVariable c.name.text)))
    (noClass : x.task.Raises (name.blamedFor .superclassNotClass)) :
    Q (Option Class) (superclassOf name superclass) m := by
  cases superclass with
  | none => exact h.pure none
  | some c =>
    refine h.bind (h.lookUp _ (undefined c rfl)) fun v _ _ => ?_
    split
    · exact h.pure _
    · exact h.fail noClass

theorem declareClass {name : Lexeme} {superclass : Option Superclass} {methods : List FunctionDecl}
    (here : x = ⟨n + 1, .stmt (.classDecl name superclass methods), m⟩) :
    Q Unit (declareClass name superclass methods) m := by
  have task : x.task = .stmt (.classDecl name superclass methods) := congrArg Point.task here
  have undefined : x.task.Raises (name.blamedFor (.undefinedVariable name.text)) :=
    task ▸ .classUndefined
  refine h.bind (h.declare ⟨_, task, rfl⟩ (here ▸ .refl m)) fun _ m₁ declared => ?_
  refine h.bind (h.superclassOf (fun c e => task ▸ .superclassUndefined e)
    (task ▸ .superclassNotClass)) fun c m₂ yields => ?_
  refine h.bind ?_ fun table _ _ => h.bind h.currentFrame fun frame _ _ =>
    h.bind h.freshIdentity fun _ _ _ => h.assignFrom frame _ undefined
  cases c with
  | none => exact h.declareMethods
  | some c =>
    obtain rfl := machine_of_superclassOf yields
    have opens : x.Opens m.heap.frames.size (.superclass c) := here ▸ .super declared yields
    have frames : m₂.heap.frames.size = m.heap.frames.size := by
      cases declared
      exact Heap.size_declare ..
    refine h.bind h.currentFrame fun _ _ e => ?_
    cases e
    refine h.bind (h.newFrame m₂.current (frames ▸ opens)) fun frame m₃ e => ?_
    cases e
    have bound := h.bindSuper (m := { m₂ with heap := m₂.heap.push (some m₂.current) }) (c := c)
      (here ▸ opens)
    rw [here] at bound
    rw [frames]
    exact h.bind bound fun _ _ _ => h.within h.declareMethods

end

theorem superMethod {id : ExprId} {keyword method : Lexeme}
    (h : Composes ⟨n + 1, .expr (.super id keyword method), m⟩ Q) :
    Q Value (superMethod id keyword method) m := by
  refine h.get (fun _ => rfl) ?_
  split
  · exact h.fail .superOutsideClass
  · exact h.fail .superOutsideClass
  · rename_i known
    refine h.bind (h.lookUpAt _ "super") fun superclass _ e => ?_
    cases e
    refine h.bind (h.lookUpAt _ "this") fun receiver _ e => ?_
    cases e
    split
    · rename_i isClass isInstance
      split
      · rename_i found
        exact h.boundMethod (.super known isClass isInstance found)
      · exact h.fail .superUndefined
    · exact h.fail .superUndefined

/-! ## Rules -/

theorem expr {e : Expr} (h : Composes ⟨n + 1, .expr e, m⟩ Q) : Q Value (expr (n + 1) e) m := by
  cases e with
  | assign id name value =>
    exact h.bind (h.calls (t := .expr value) .assign) fun v _ e => h.bind (h.assign rfl e)
      fun _ _ _ => h.pure v
  | binary op mark left right =>
    refine h.bind (h.calls (t := .expr left) .binaryLeft) fun a _ e => ?_
    refine h.bind (h.calls (t := .expr right) (.binaryRight e)) fun b _ _ => ?_
    refine h.ofExcept fun cause e => ?_
    rcases BinaryOp.cause_of_apply e with rfl | rfl
    · exact .operandsNotNumbers
    · exact .operandsNotAddable
  | call callee paren arguments =>
    exact h.bind (h.calls (t := .expr callee) .callee) fun f _ e =>
      h.bind (h.calls (t := .exprs arguments) (.arguments e)) fun vs _ e' =>
        h.calls (t := .apply f paren vs) (.apply e e')
  | get object name =>
    refine h.bind (h.calls (t := .expr object) .getObject) fun v _ e => ?_
    split
    · exact h.property (fun f => .property e) .undefinedProperty
    · exact h.fail .noProperties
  | grouping inner => exact h.calls (t := .expr inner) .grouping
  | literal value => exact h.pure value.value
  | logical op mark left right =>
    refine h.bind (h.calls (t := .expr left) .logicalLeft) fun v _ e => ?_
    split
    · exact h.pure v
    · rename_i undecided
      exact h.calls (t := .expr right) (.logicalRight e (Bool.eq_false_iff.mpr undecided))
  | set object name value =>
    refine h.bind (h.calls (t := .expr value) .setValue) fun v _ e => ?_
    refine h.bind (h.calls (t := .expr object) (.setObject e)) fun o _ e' => ?_
    split
    · exact h.bind (h.setProperty rfl e e') fun _ _ _ => h.pure v
    · exact h.fail .noFields
  | super id keyword method => exact h.superMethod
  | this id keyword => exact h.lookUp id .this
  | unary op mark right =>
    refine h.bind (h.calls (t := .expr right) .unary) fun v _ _ => h.ofExcept fun cause e => ?_
    cases UnaryOp.cause_of_apply e
    exact .operandNotNumber
  | «variable» id name => exact h.lookUp id .variable

theorem exprs {es : List Expr} (h : Composes ⟨n + 1, .exprs es, m⟩ Q) :
    Q (List Value) (exprs (n + 1) es) m := by
  cases es with
  | nil => exact h.pure []
  | cons e es =>
    exact h.bind (h.calls (t := .expr e) .firstOf) fun v _ e' =>
      h.bind (h.calls (t := .exprs es) (.restOf e')) fun vs _ _ => h.pure (v :: vs)

theorem apply {f : Value} {paren : Lexeme} {vs : List Value}
    (h : Composes ⟨n + 1, .apply f paren vs, m⟩ Q) : Q Value (apply (n + 1) f paren vs) m := by
  cases f with
  | function f =>
    refine h.bind (h.checkArity .notEnoughArguments) fun _ _ e => ?_
    obtain ⟨enough, rfl⟩ := checkArity_eq_ok.mp e
    exact h.calls (t := .call f vs) (.function enough)
  | «class» c =>
    refine h.bind (h.checkArity .notEnoughArguments) fun _ _ e => ?_
    obtain ⟨enough, rfl⟩ := checkArity_eq_ok.mp e
    exact h.calls (t := .make c vs) (.class enough)
  | native f =>
    cases f with
    | clock => exact h.readClock
  | nil | bool | number | string | «instance» => exact h.fail .notCallable

theorem call {f : Function} {vs : List Value} (h : Composes ⟨n + 1, .call f vs, m⟩ Q) :
    Q Value (call (n + 1) f vs) m := by
  refine h.bind (h.newFrame f.closure .call) fun frame m₁ e => ?_
  cases e
  refine h.bind (h.bindParams rfl) fun _ m₂ e => ?_
  cases (bindParams_apply ..).symm.trans e
  refine h.bind (h.within ?_) fun flow _ _ => h.result f flow
  exact h.calls (t := .stmts f.decl.body) .body

theorem make {c : Class} {vs : List Value} (h : Composes ⟨n + 1, .make c vs, m⟩ Q) :
    Q Value (make (n + 1) c vs) m := by
  refine h.bind (h.newInstance c) fun o m₁ made => ?_
  split
  · rename_i f found
    refine h.bind (h.bindMethod (.initializer found made)) fun g m₂ e => ?_
    cases (bind_apply ..).symm.trans e
    exact h.bind (h.calls (t := .call _ vs) (.initializer found made)) fun _ _ _ => h.pure _
  · exact h.pure _

theorem stmt {s : Stmt} (h : Composes ⟨n + 1, .stmt s, m⟩ Q) : Q Flow (stmt (n + 1) s) m := by
  cases s with
  | block body =>
    refine h.bind h.currentFrame fun _ _ e => ?_
    cases e
    refine h.bind (h.newFrame m.current .block) fun frame m₁ e => ?_
    cases e
    exact h.within (h.calls (t := .stmts body) .block)
  | classDecl name superclass methods =>
    exact h.bind (h.declareClass rfl) fun _ _ _ => h.pure Flow.normal
  | expression e =>
    exact h.bind (h.calls (t := .expr e) .expression) fun _ _ _ => h.pure Flow.normal
  | function decl => exact h.bind (h.declareFunction rfl (.refl m)) fun _ _ _ => h.pure Flow.normal
  | ifThen condition thenBranch =>
    refine h.bind (h.calls (t := .expr condition) .ifThenCondition) fun v _ e => ?_
    split
    · exact h.calls (t := .stmt thenBranch) (.ifThen e ‹_›)
    · exact h.pure Flow.normal
  | ifElse condition thenBranch elseBranch =>
    refine h.bind (h.calls (t := .expr condition) .ifElseCondition) fun v _ e => ?_
    split
    · exact h.calls (t := .stmt thenBranch) (.ifElseThen e ‹_›)
    · exact h.calls (t := .stmt elseBranch) (.ifElse e (Bool.eq_false_iff.mpr ‹_›))
  | print e =>
    exact h.bind (h.calls (t := .expr e) .print) fun v _ e => h.bind (h.write rfl e)
      fun _ _ _ => h.pure Flow.normal
  | returning keyword value =>
    cases value with
    | none => exact h.pure (Flow.returned .nil)
    | some value =>
      exact h.bind (h.calls (t := .expr value) .returning) fun v _ _ => h.pure (Flow.returned v)
  | varDecl name initializer =>
    cases initializer with
    | none => exact h.bind (h.define _ ⟨_, rfl, rfl⟩ (.refl m)) fun _ _ _ => h.pure Flow.normal
    | some initializer =>
      refine h.bind (h.calls (t := .expr initializer) .varDecl) fun v _ e => ?_
      have same := ((keeps_task n (.expr initializer)).ok e).toSameSetting
      exact h.bind (h.define v ⟨_, rfl, rfl⟩ same) fun _ _ _ => h.pure Flow.normal
  | «while» condition body => exact h.calls (t := .loop condition body) .while

theorem stmts {ss : List Stmt} (h : Composes ⟨n + 1, .stmts ss, m⟩ Q) :
    Q Flow (stmts (n + 1) ss) m := by
  cases ss with
  | nil => exact h.pure Flow.normal
  | cons s ss =>
    refine h.bind (h.calls (t := .stmt s) .firstStmt) fun flow _ e => ?_
    cases flow with
    | normal => exact h.calls (t := .stmts ss) (.restStmts e)
    | returned v => exact h.pure (Flow.returned v)

theorem loop {condition : Expr} {body : Stmt} (h : Composes ⟨n + 1, .loop condition body, m⟩ Q) :
    Q Flow (loop (n + 1) condition body) m := by
  refine h.bind (h.calls (t := .expr condition) .loopCondition) fun v _ e => ?_
  split
  · refine h.bind (h.calls (t := .stmt body) (.loopBody e ‹_›)) fun flow _ e' => ?_
    cases flow with
    | normal => exact h.calls (t := .loop condition body) (.loopAgain e ‹_› e')
    | returned v => exact h.pure (Flow.returned v)
  · exact h.pure Flow.normal

/-- What is true of the operations and of the tasks that are called is true of the task. -/
theorem task {n : Nat} {t : Task} (h : Composes ⟨n, t, m⟩ Q) : Q t.Answer (t.run n) m := by
  cases n with
  | zero => cases t <;> exact h.outOfFuel
  | succ n =>
    cases t with
    | expr _ => exact h.expr
    | exprs _ => exact h.exprs
    | apply _ _ _ => exact h.apply
    | call _ _ => exact h.call
    | make _ _ => exact h.make
    | stmt _ => exact h.stmt
    | stmts _ => exact h.stmts
    | loop _ _ => exact h.loop

end Point.Composes

end Lox
