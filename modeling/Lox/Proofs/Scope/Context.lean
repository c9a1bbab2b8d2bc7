import Lox.Scope.Resolve
import Lox.Proofs.Syntax.Trees

/-!
# Static contexts

What surrounds a statement or expression: the local scopes, and the innermost body and class
(`Context`). A tree is located in a context (`Stmt.Located`) if its references lie as far out as
the distances say and it keeps the scope rules. In a settled context every name may be read; only
inside the initializer of a variable is a name declared but not defined (`Context.Proper`).
-/

namespace Lox

/-- What surrounds a statement or expression. -/
structure Context where
  /-- The local scopes, innermost first. -/
  scopes : List Scope
  body : BodyKind
  enclosingClass : ClassKind

theorem Scope.getElem?_insert (scope : Scope) (name other : String) (status : Status) :
    (scope.insert name status)[other]? = if name = other then some status else scope[other]? := by
  simp only [Std.TreeMap.getElem?_insert, Std.LawfulEqCmp.compare_eq_iff_eq]

/-- A name that is no keyword. -/
def Lexeme.IsName (l : Lexeme) : Prop :=
  ∀ k : Keyword, l.text ≠ k.text

namespace Context

/-- Outside all scopes, functions and classes. -/
def top : Context :=
  ⟨[], .none, .none⟩

/-- Inside a new scope. -/
def enter (Γ : Context) : Context :=
  { Γ with scopes := ∅ :: Γ.scopes }

/-- Gives a name of the innermost scope a status. -/
def mark (Γ : Context) (name : String) (status : Status) : Context :=
  match Γ.scopes with
  | [] => Γ
  | scope :: outer => { Γ with scopes := scope.insert name status :: outer }

/-- While the declaration of a name is read. -/
def declare (Γ : Context) (name : String) : Context :=
  Γ.mark name .declared

/-- After a name of the innermost scope was defined. -/
def define (Γ : Context) (name : String) : Context :=
  Γ.mark name .defined

/-- After the declaration of a name. -/
def bind (Γ : Context) (name : String) : Context :=
  (Γ.declare name).define name

/-- Inside a scope in which `this` or `super` is bound. -/
def enterWith (Γ : Context) (keyword : String) : Context :=
  Γ.enter.define keyword

/-- Around the scope of `this` in a class: inside that of `super`, if there is a superclass. -/
def aroundThis (Γ : Context) : Option Superclass → Context
  | none => { Γ with enclosingClass := .root }
  | some _ => { Γ with enclosingClass := .derived }.enterWith "super"

/-- Inside a class. -/
def enterClass (Γ : Context) (superclass : Option Superclass) : Context :=
  (Γ.aroundThis superclass).enterWith "this"

/-- Inside the body of a function. -/
def enterBody (Γ : Context) (kind : BodyKind) (params : List Lexeme) : Context :=
  params.foldl (fun Γ param => Γ.bind param.text) { Γ with body := kind }.enter

/-- How many scopes out a name is declared. -/
def distance? (Γ : Context) (name : String) : Option Nat :=
  Γ.scopes.findIdx? (·.contains name)

/-- Is the name of the innermost scope not yet defined? -/
def Pending (Γ : Context) (name : String) : Prop :=
  ∃ scope ∈ Γ.scopes.head?, scope[name]? = some .declared

/-- A reference to a variable that may be read, at its distance. -/
def Refers (Γ : Context) (distances : Distances) (id : ExprId) (name : Lexeme) : Prop :=
  ¬ Γ.Pending name.text ∧ distances[id]? = Γ.distance? name.text

end Context

/-! ## Located trees -/

section
variable (distances : Distances)

mutual

/-- The references of an expression lie as far out as the distances say. -/
def Expr.Located (Γ : Context) : Expr → Prop
  | .assign id name value =>
    value.Located Γ ∧ name.IsName ∧ distances[id]? = Γ.distance? name.text
  | .binary _ _ left right => left.Located Γ ∧ right.Located Γ
  | .call callee _ arguments => callee.Located Γ ∧ Expr.LocatedList Γ arguments
  | .get object _ => object.Located Γ
  | .grouping inner => inner.Located Γ
  | .literal _ => True
  | .logical _ _ left right => left.Located Γ ∧ right.Located Γ
  | .set object _ value => value.Located Γ ∧ object.Located Γ
  | .super id _ _ => Γ.enclosingClass = .derived ∧ distances[id]? = Γ.distance? "super"
  | .this id keyword =>
    Γ.enclosingClass ≠ .none ∧ keyword.text = "this" ∧ distances[id]? = Γ.distance? "this"
  | .unary _ _ right => right.Located Γ
  | .variable id name => Γ.Refers distances id name

/-- The references of each of the expressions lie as far out as the distances say. -/
def Expr.LocatedList (Γ : Context) : List Expr → Prop
  | [] => True
  | e :: es => e.Located Γ ∧ Expr.LocatedList Γ es

end

end

/-- The context after a statement. -/
def Stmt.after : Stmt → Context → Context
  | .classDecl name _ _, Γ => Γ.bind name.text
  | .function decl, Γ => Γ.bind decl.name.text
  | .varDecl name _, Γ => Γ.bind name.text
  | _, Γ => Γ

theorem Context.body_bind (Γ : Context) (name : String) : (Γ.bind name).body = Γ.body := by
  obtain ⟨scopes, body, enclosingClass⟩ := Γ
  cases scopes <;> rfl

theorem Context.body_enterBody (Γ : Context) (kind : BodyKind) (params : List Lexeme) :
    (Γ.enterBody kind params).body = kind := by
  unfold enterBody
  generalize e : ({ Γ with body := kind } : Context).enter = Δ
  have start : Δ.body = kind := by rw [← e]; rfl
  clear e
  induction params generalizing Δ with
  | nil => exact start
  | cons param params ih => exact ih _ ((Δ.body_bind param.text).trans start)

theorem Stmt.body_after (s : Stmt) (Γ : Context) : (s.after Γ).body = Γ.body := by
  cases s <;> first | rfl | exact Γ.body_bind _

/-- The context after statements. -/
def Stmt.afterList (ss : List Stmt) (Γ : Context) : Context :=
  ss.foldl (fun Γ s => s.after Γ) Γ

section
variable (distances : Distances)

mutual

/-- The references of a statement lie as far out as the distances say, and the statement keeps the
scope rules: no local scope declares a name twice. -/
def Stmt.Located : Stmt → Context → Prop
  | .block body, Γ => Stmt.LocatedList body Γ.enter ∧ (body.filterMap Stmt.declared?).Nodup
  | .classDecl name superclass methods, Γ =>
    name.IsName ∧ (∀ c ∈ superclass, (Γ.bind name.text).Refers distances c.id c.name) ∧
      FunctionDecl.LocatedMethods methods ((Γ.bind name.text).enterClass superclass)
  | .expression e, Γ => e.Located distances Γ
  | .function decl, Γ =>
    decl.name.IsName ∧ decl.Located .function (Γ.bind decl.name.text)
  | .ifThen condition thenBranch, Γ => condition.Located distances Γ ∧ thenBranch.Located Γ
  | .ifElse condition thenBranch elseBranch, Γ =>
    condition.Located distances Γ ∧ thenBranch.Located Γ ∧ elseBranch.Located Γ
  | .print e, Γ => e.Located distances Γ
  | .returning _ none, Γ => Γ.body ≠ .none
  | .returning _ (some value), Γ =>
    Γ.body ≠ .none ∧ Γ.body ≠ .initializer ∧ value.Located distances Γ
  | .varDecl name none, _ => name.IsName
  | .varDecl name (some initializer), Γ =>
    name.IsName ∧ initializer.Located distances (Γ.declare name.text)
  | .while condition body, Γ => condition.Located distances Γ ∧ body.Located Γ

/-- Each of the statements is located after those before it. -/
def Stmt.LocatedList : List Stmt → Context → Prop
  | [], _ => True
  | s :: ss, Γ => s.Located Γ ∧ Stmt.LocatedList ss (s.after Γ)

/-- The body of a function is located inside its scope. -/
def FunctionDecl.Located : FunctionDecl → BodyKind → Context → Prop
  | ⟨_, params, body⟩, kind, Γ =>
    (∀ param ∈ params, param.IsName) ∧ Stmt.LocatedList body (Γ.enterBody kind params) ∧
      (params.map Lexeme.text ++ body.filterMap Stmt.declared?).Nodup

/-- Each of the methods is located. -/
def FunctionDecl.LocatedMethods : List FunctionDecl → Context → Prop
  | [], _ => True
  | method :: methods, Γ =>
    method.Located method.methodBody Γ ∧ FunctionDecl.LocatedMethods methods Γ

end

theorem FunctionDecl.located_iff {decl : FunctionDecl} {kind : BodyKind} {Γ : Context} :
    decl.Located distances kind Γ ↔ (∀ param ∈ decl.params, param.IsName) ∧
      Stmt.LocatedList distances decl.body (Γ.enterBody kind decl.params) ∧
      (decl.params.map Lexeme.text ++ decl.body.filterMap Stmt.declared?).Nodup := by
  obtain ⟨name, params, body⟩ := decl
  exact Iff.rfl

end

end Lox
