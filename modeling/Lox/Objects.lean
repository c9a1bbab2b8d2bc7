import Lox.Machine

/-!
# Functions, classes and instances

How functions and classes are declared, how a method is bound to an instance, and how properties
are found. A method is bound by a frame around its body in which `this` is the instance; a class
with a superclass has a frame around its methods in which `super` is that class.
-/

namespace Lox.Eval

/-- The method `f`, bound to the instance `o`. Each binding is a new function. -/
def bind (f : Function) (o : Instance) : Eval Function := do
  let closure ← newFrame f.closure
  modifyHeap (·.define closure "this" (.instance o))
  return { f with identity := ← freshIdentity, closure := closure }

/-- The property `name` of the instance `o`: a field, or else a method, which is bound to `o`. -/
def property (o : Instance) (name : Lexeme) : Eval Value := do
  match (← get).heap.field? o.identity name.text with
  | some v => return v
  | none =>
    match o.ofClass.method? name.text with
    | some f => return .function (← bind f o)
    | none => fail name (.undefinedProperty name.text)

/-- Sets a field of the instance `o`. -/
def setProperty (o : Instance) (name : Lexeme) (v : Value) : Eval Unit :=
  modifyHeap (·.setField o.identity name.text v)

/-- A value in a frame that is a number of links out from the current one. -/
def lookUpAt (distance : Nat) (name : String) : Eval Value := fun m =>
  .ok (m.heap.getAt m.current distance name) m

/-- The method `method` of the superclass, bound to the instance that runs the current method.
`this` is bound one frame inside `super`. -/
def superMethod (id : ExprId) (keyword method : Lexeme) : Eval Value := do
  match (← get).distances[id]? with
  | none | some 0 => fail keyword .superOutsideClass
  | some (distance + 1) => do
    let superclass ← lookUpAt (distance + 1) "super"
    let receiver ← lookUpAt distance "this"
    match superclass, receiver with
    | .class c, .instance o =>
      match c.method? method.text with
      | some f => return .function (← bind f o)
      | none => fail method (.undefinedProperty method.text)
    | _, _ => fail method (.undefinedProperty method.text)

/-- Runs a function declaration. The name is bound before the function is made, so that the
function can call itself. -/
def declareFunction (decl : FunctionDecl) : Eval Unit := do
  declare decl.name
  let frame ← currentFrame
  assignFrom frame decl.name (.function ⟨← freshIdentity, decl, frame, false⟩)

/-- The methods that a class declares, by name; of two with one name the later counts. -/
def declareMethods :
    List FunctionDecl → Std.TreeMap String Function → Eval (Std.TreeMap String Function)
  | [], methods => return methods
  | decl :: decls, methods => do
    let f : Function := ⟨← freshIdentity, decl, ← currentFrame, decl.name.text = initializerName⟩
    declareMethods decls (methods.insert decl.name.text f)

/-- The class that a class declaration names as its superclass. -/
def superclassOf (name : Lexeme) : Option Superclass → Eval (Option Class)
  | none => return none
  | some superclass => do
    match ← lookUp superclass.id superclass.name with
    | .class c => return some c
    | _ => fail name .superclassNotClass

/-- Runs `body` with the frame around the methods of a class as the current frame. -/
def inMethodFrame {α : Type} : Option Class → Eval α → Eval α
  | none, body => body
  | some superclass, body => do
    let frame ← newFrame (← currentFrame)
    modifyHeap (·.define frame "super" (.class superclass))
    within frame body

/-- Runs a class declaration. -/
def declareClass (name : Lexeme) (superclass : Option Superclass) (methods : List FunctionDecl) :
    Eval Unit := do
  declare name
  let superclass ← superclassOf name superclass
  let methods ← inMethodFrame superclass (declareMethods methods ∅)
  let frame ← currentFrame
  assignFrom frame name (.class ⟨← freshIdentity, name.text, superclass, methods⟩)

/-- Fails at the closing parenthesis of a call that gives too few arguments. -/
def checkArity (paren : Lexeme) (expected given : Nat) : Eval Unit :=
  if given < expected then fail paren (.notEnoughArguments expected given) else return ()

/-- Binds parameters to arguments, one by one. -/
def bindParams (frame : FrameId) : List Lexeme → List Value → Eval Unit
  | param :: params, v :: vs => do
    modifyHeap (·.define frame param.text v)
    bindParams frame params vs
  | _, _ => return ()

end Lox.Eval
