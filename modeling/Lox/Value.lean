import Std.Data.TreeMap
import Lox.Syntax

/-!
# Values

Functions and classes never change, so a value holds them whole; a number tells two of them apart
(`Identity`). An instance is a class and the number of its fields, which are kept on the heap,
because every holder of the instance sees them change.
-/

namespace Lox

/-- The number of a frame of bindings. -/
abbrev FrameId := Nat

/-- The number by which a function or a class is told from all others. -/
abbrev Identity := Nat

/-- The number of an instance. -/
abbrev InstanceId := Nat

/-- A function or method: its declaration and the frame in which it was declared. -/
structure Function where
  identity : Identity
  decl : FunctionDecl
  closure : FrameId
  isInitializer : Bool

/-- How many arguments a call must give at least. -/
def Function.arity (f : Function) : Nat :=
  f.decl.params.length

/-- A class: its own methods, and the class that it inherits the others from. -/
structure Class where
  identity : Identity
  name : String
  superclass : Option Class
  methods : Std.TreeMap String Function

namespace Class

/-- The method of that name of the nearest class, from the class itself upward, that has one. -/
def method? : Class → String → Option Function
  | ⟨_, _, superclass, methods⟩, name =>
    match methods[name]? with
    | some f => some f
    | none =>
      match superclass with
      | some c => c.method? name
      | none => none

/-- The method that runs when an instance is made. -/
def initializer? (c : Class) : Option Function :=
  c.method? initializerName

/-- How many arguments the making of an instance must be given at least. -/
def arity (c : Class) : Nat :=
  (c.initializer?.map Function.arity).getD 0

end Class

/-- An instance of a class. -/
structure Instance where
  identity : InstanceId
  ofClass : Class

/-- Functions that the machine itself provides. -/
inductive Native
  | clock
deriving DecidableEq, Repr

/-- The name by which a program calls it. -/
def Native.name : Native → String
  | clock => "clock"

/-- Values. -/
inductive Value
  | nil
  | bool (b : Bool)
  | number (x : Float)
  | string (s : String)
  | function (f : Function)
  | native (f : Native)
  | «class» (c : Class)
  | «instance» (o : Instance)

namespace Value

/-- Only `nil` and `false` are not true. -/
def isTruthy : Value → Bool
  | nil => false
  | bool b => b
  | _ => true

/-- Values of different kinds are never equal. Functions, classes and instances are equal only to
themselves, numbers as doubles are. -/
def equals : Value → Value → Bool
  | nil, nil => true
  | bool a, bool b => a == b
  | number a, number b => a == b
  | string a, string b => a == b
  | function f, function g => f.identity == g.identity
  | native f, native g => f = g
  | .class c, .class d => c.identity == d.identity
  | .instance o, .instance p => o.identity == p.identity
  | _, _ => false

/-- What is printed for a value. -/
def text : Value → String
  | nil => "nil"
  | bool true => "true"
  | bool false => "false"
  | number x => Number.text x
  | string s => s
  | function f => "<fn " ++ f.decl.name.text ++ ">"
  | native f => "<native fn " ++ f.name ++ ">"
  | .class c => c.name
  | .instance o => o.ofClass.name ++ " instance"

/-- The text of a value in which a string can be told from other values: it is in quotes. -/
def debugText : Value → String
  | string s => Text.Quoted.debug s
  | v => v.text

end Value

/-- The value of a constant. -/
def Literal.value : Literal → Value
  | number x => .number x
  | string s => .string s
  | true => .bool .true
  | false => .bool .false
  | nil => .nil

end Lox
