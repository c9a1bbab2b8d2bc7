import Lox.Heap
import Lox.Scope

/-!
# The machine

The machine is all that a running program can read or change: the heap, the current frame, the
distances of the program's references, and what has been printed. The host says what lies outside:
what the clock reads, and how much may be printed.

A computation (`Eval`) changes the machine and ends with a value, with a failure, or without fuel.
What it did before a failure stays done.
-/

namespace Lox

/-- What goes wrong while a program runs. -/
inductive RuntimeCause
  | undefinedVariable (name : String)
  | undefinedProperty (name : String)
  | notCallable
  | notEnoughArguments (expected given : Nat)
  | noProperties
  | noFields
  | operandNotNumber
  | operandsNotNumbers
  | operandsNotAddable
  | superclassNotClass
  | superOutsideClass
deriving DecidableEq, Repr

/-- What is said about it. -/
def RuntimeCause.message : RuntimeCause → String
  | undefinedVariable name => "Undefined variable '" ++ name ++ "'."
  | undefinedProperty name => "Undefined property '" ++ name ++ "'."
  | notCallable => "Can only call functions and classes."
  | notEnoughArguments expected given =>
    "Not enough arguments. Expected " ++ toString expected ++ " but got " ++ toString given ++ "."
  | noProperties => "Only instances have properties."
  | noFields => "Only instances have fields."
  | operandNotNumber => "Operand must be a number."
  | operandsNotNumbers => "Operands must be numbers."
  | operandsNotAddable => "Operands must be two numbers or two strings."
  | superclassNotClass => "Superclass must be a class."
  | superOutsideClass => "Cannot use 'super' outside of a class."

/-- A runtime error, and the line that is blamed. -/
structure RuntimeError where
  cause : RuntimeCause
  line : Nat
deriving DecidableEq, Repr

/-- What goes wrong outside the machine. -/
inductive IoError
  | sinkFull | flushFailed
deriving DecidableEq, Repr

/-- What is said about it. -/
def IoError.message : IoError → String
  | sinkFull => "sink full"
  | flushFailed => "flush failed"

/-- A failure of a running program. -/
inductive Failure
  | runtime (e : RuntimeError)
  | io (e : IoError)
deriving DecidableEq, Repr

/-- Why a computation gives no value. -/
inductive Stop
  | failed (f : Failure)
  | outOfFuel
deriving DecidableEq, Repr

/-- What lies outside the machine. -/
structure Host where
  /-- What the clock reads, in seconds, when it is read for the `n`-th time. -/
  clock : Nat → Float
  /-- How many values may be printed, if not any number. -/
  capacity : Option Nat
  /-- Does the flush at the end of a program fail? -/
  flushFails : Bool

/-- The state of a running program. -/
structure Machine where
  heap : Heap
  globals : FrameId
  current : FrameId
  distances : Distances
  /-- The identity of the next function or class. -/
  nextIdentity : Identity
  host : Host
  /-- How often the clock has been read. -/
  readings : Nat
  /-- The texts printed so far. -/
  printed : Array String

/-- A machine that has run nothing: one frame, in which `clock` is bound. -/
def Machine.start (host : Host) : Machine where
  heap := (Heap.empty.push none).define 0 Native.clock.name (.native .clock)
  globals := 0
  current := 0
  distances := ∅
  nextIdentity := 0
  host := host
  readings := 0
  printed := #[]

/-- A computation on the machine. -/
abbrev Eval := EStateM Stop Machine

namespace Eval

/-- Fails at a name, operator or parenthesis. -/
def fail {α : Type} (blamed : Lexeme) (cause : RuntimeCause) : Eval α :=
  throw (.failed (.runtime ⟨cause, blamed.line⟩))

/-- Changes the heap. -/
@[inline] def modifyHeap (f : Heap → Heap) : Eval Unit :=
  modify fun m => { m with heap := f m.heap }

/-- Runs `body` with `frame` as the current frame. However `body` ends, the frame that was current
before is current again. -/
@[inline] def within {α : Type} (frame : FrameId) (body : Eval α) : Eval α := fun m =>
  let outer := m.current
  match body { m with current := frame } with
  | .ok a m => .ok a { m with current := outer }
  | .error stop m => .error stop { m with current := outer }

/-- A new identity. -/
def freshIdentity : Eval Identity := fun m =>
  .ok m.nextIdentity { m with nextIdentity := m.nextIdentity + 1 }

/-- The current frame. -/
def currentFrame : Eval FrameId := fun m =>
  .ok m.current m

/-- Makes a frame inside `outer`. -/
def newFrame (outer : FrameId) : Eval FrameId := fun m =>
  .ok m.heap.frames.size { m with heap := m.heap.push (some outer) }

/-- Makes an instance of a class. -/
def newInstance (c : Class) : Eval Instance := fun m =>
  .ok ⟨m.heap.fields.size, c⟩ { m with heap := m.heap.pushInstance }

/-- Prints a text, unless the sink is full. -/
def write (text : String) : Eval Unit := fun m =>
  match m.host.capacity with
  | some n =>
    if n ≤ m.printed.size then
      .error (.failed (.io .sinkFull)) m
    else
      .ok () { m with printed := m.printed.push text }
  | none => .ok () { m with printed := m.printed.push text }

/-- Flushes the sink. -/
def flush : Eval Unit := fun m =>
  if m.host.flushFails then .error (.failed (.io .flushFailed)) m else .ok () m

/-- Reads the clock. -/
def readClock : Eval Value := fun m =>
  .ok (.number (m.host.clock m.readings)) { m with readings := m.readings + 1 }

/-! ## Variables -/

/-- The value of a variable: at the distance of its node, or among the globals if the node has no
distance. -/
def lookUp (id : ExprId) (name : Lexeme) : Eval Value := fun m =>
  match m.distances[id]? with
  | some distance => .ok (m.heap.getAt m.current distance name.text) m
  | none =>
    match m.heap.get? m.globals name.text with
    | some v => .ok v m
    | none => fail name (.undefinedVariable name.text) m

/-- Binds a name anew in the nearest frame, from `frame` outward, that binds it. -/
def assignFrom (frame : FrameId) (name : Lexeme) (v : Value) : Eval Unit := fun m =>
  match m.heap.holder? frame name.text with
  | some holder => .ok () { m with heap := m.heap.define holder name.text v }
  | none => fail name (.undefinedVariable name.text) m

/-- Assigns a variable: at the distance of its node, or among the globals if the node has no
distance. -/
def assign (id : ExprId) (name : Lexeme) (v : Value) : Eval Unit := fun m =>
  match m.distances[id]? with
  | some distance => .ok () { m with heap := m.heap.assignAt m.current distance name.text v }
  | none => assignFrom m.globals name v m

/-- Binds a name in the current frame. -/
def define (name : Lexeme) (v : Value) : Eval Unit :=
  modify fun m => { m with heap := m.heap.define m.current name.text v }

/-- Binds a name in the current frame, which does not yet say to what. -/
def declare (name : Lexeme) : Eval Unit :=
  modify fun m => { m with heap := m.heap.declare m.current name.text }

end Eval

end Lox
