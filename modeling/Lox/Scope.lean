import Std.Data.TreeMap
import Lox.Syntax

/-!
# Scopes

A scope is the names that a block, a function or a class declares, each marked while its own
declaration is still being read. A survey walks a program with a stack of scopes, innermost first,
and notes for every reference how many scopes out its name is declared, and every breach of the
scope rules. A name that no scope declares is global and has no distance.
-/

namespace Lox

/-- Is a name's own declaration still being read? -/
inductive Status
  | declared | defined
deriving DecidableEq, Repr

/-- The names that one scope declares. -/
abbrev Scope := Std.TreeMap String Status

/-- How many scopes out the name of each node is declared. -/
abbrev Distances := Std.TreeMap ExprId Nat

/-- The innermost function body around a statement. -/
inductive BodyKind
  | none | function | method | initializer
deriving DecidableEq, Repr

/-- The innermost class around an expression. -/
inductive ClassKind
  | none | root | derived
deriving DecidableEq, Repr

/-- What breaks the scope rules. -/
inductive ScopeCause
  | returnOutsideFunction
  | returnFromInitializer
  | inheritsItself
  | superOutsideClass
  | superWithoutSuperclass
  | thisOutsideClass
  | readInInitializer
  | redeclared
deriving DecidableEq, Repr

/-- What is said about it. -/
def ScopeCause.message : ScopeCause → String
  | returnOutsideFunction => "Cannot return from top-level code."
  | returnFromInitializer => "Cannot return a value from an initializer."
  | inheritsItself => "A class cannot inherit from itself."
  | superOutsideClass => "Cannot use 'super' outside of a class."
  | superWithoutSuperclass => "Cannot use 'super' in a class with no superclass."
  | thisOutsideClass => "Cannot use 'this' outside of a class."
  | readInInitializer => "Cannot read local variable in its own initializer."
  | redeclared => "Variable with this name already declared in this scope."

/-- A breach of the scope rules, and the name or keyword that is blamed. -/
structure ScopeError where
  cause : ScopeCause
  blamed : Lexeme
deriving DecidableEq, Repr

/-- What is known while a program is walked. -/
structure Survey where
  /-- The local scopes, innermost first. -/
  scopes : List Scope
  globals : Scope
  body : BodyKind
  enclosingClass : ClassKind
  distances : Distances
  errors : Array ScopeError

namespace Survey

/-- Nothing is known before the first statement. -/
def start : Survey :=
  ⟨[], ∅, .none, .none, ∅, #[]⟩

/-- Notes a breach of the scope rules. -/
def report (s : Survey) (cause : ScopeCause) (blamed : Lexeme) : Survey :=
  { s with errors := s.errors.push ⟨cause, blamed⟩ }

/-- Opens a scope. -/
def enter (s : Survey) : Survey :=
  { s with scopes := ∅ :: s.scopes }

/-- Closes the innermost scope. -/
def leave (s : Survey) : Survey :=
  { s with scopes := s.scopes.tail }

/-- Begins the declaration of a name. A name may be declared once in a local scope; a global name
may be declared again, and stays readable meanwhile. -/
def declare (s : Survey) (name : Lexeme) : Survey :=
  match s.scopes with
  | [] => { s with globals := s.globals.insertIfNew name.text .declared }
  | scope :: outer =>
    let s' := { s with scopes := scope.insert name.text .declared :: outer }
    if scope.contains name.text then s'.report .redeclared name else s'

/-- Ends the declaration of a name of the innermost scope: from here on it may be read. -/
def define (s : Survey) (name : String) : Survey :=
  match s.scopes with
  | [] => { s with globals := s.globals.insert name .defined }
  | scope :: outer => { s with scopes := scope.insert name .defined :: outer }

/-- Binds `this` or `super` in a new scope. -/
def enterWith (s : Survey) (keyword : String) : Survey :=
  s.enter.define keyword

/-- Notes how many scopes out `name` is declared. -/
def locate (s : Survey) (id : ExprId) (name : Lexeme) : Survey :=
  match s.scopes.findIdx? (·.contains name.text) with
  | some distance => { s with distances := s.distances.insert id distance }
  | none => s

/-- What the innermost scope knows of a name. -/
def status? (s : Survey) (name : String) : Option Status :=
  (s.scopes.headD s.globals)[name]?

/-- Notes a reference to a variable. -/
def refer (s : Survey) (id : ExprId) (name : Lexeme) : Survey :=
  let s' := if s.status? name.text = some .declared then s.report .readInInitializer name else s
  s'.locate id name

end Survey

end Lox
