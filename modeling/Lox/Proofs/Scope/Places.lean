import Mathlib.Data.List.Pairwise
import Lox.Scope.Resolve
import Lox.Proofs.Syntax.Trees

/-!
# The scope rules

The scope rules are about places in a program. A place is given by the path to it: into blocks,
bodies, classes and initializers, and past declarations (`Path`). The path tells the innermost body
and class around the place, and the names that each scope around it has declared before it. The
places where a program declares a name, refers to one or returns are its sites (`Stmt.sites`). At a
site at most one rule is broken (`Site.breach?`), and a reference has at most one distance
(`Site.note?`). The sites that are references are the nodes of the program, one for each
(`Stmt.nodes_sites`).
-/

namespace Lox

/-- A step on the path to a place. -/
inductive Way
  /-- Past the declaration of a name, in the same scope. -/
  | past (name : String)
  /-- Into the initializer of a variable, which is declared by then. -/
  | initializer (name : String)
  | block
  | body (kind : BodyKind)
  /-- Among the methods of a class, which has a superclass or not. -/
  | methods (derived : Bool)

/-- The path to a place in a program, the last step first. -/
abbrev Path := List Way

namespace Path

/-- The innermost body around the place. -/
def body : Path → BodyKind
  | [] => .none
  | .body kind :: _ => kind
  | _ :: p => body p

/-- The innermost class around the place. -/
def enclosingClass : Path → ClassKind
  | [] => .none
  | .methods derived :: _ => if derived then .derived else .root
  | _ :: p => enclosingClass p

/-- One more name in the innermost scope, if there is a scope. -/
def addName (name : String) : List (List String) → List (List String)
  | [] => []
  | names :: outer => (name :: names) :: outer

/-- The local scopes around the place, innermost first, each with the names that it has declared
before the place. Around methods there is a scope with `this`, and outside it one with `super` if
the class has a superclass. -/
def scopes : Path → List (List String)
  | [] => []
  | .past name :: p | .initializer name :: p => addName name (scopes p)
  | .block :: p | .body _ :: p => [] :: scopes p
  | .methods false :: p => ["this"] :: scopes p
  | .methods true :: p => ["this"] :: ["super"] :: scopes p

/-- The names that the program has declared outside all local scopes before the place. -/
def globals : Path → List String
  | [] => []
  | .past name :: p => if scopes p = [] then name :: globals p else globals p
  | _ :: p => globals p

/-- Is the place in the initializer of a variable of that name that cannot be read yet? A global
variable that was declared before can be. -/
def Pending (p : Path) (name : String) : Prop :=
  p.head? = some (.initializer name) ∧ (p.scopes = [] → name ∉ p.globals)

instance (p : Path) (name : String) : Decidable (p.Pending name) :=
  match p with
  | [] => .isFalse nofun
  | .initializer other :: p =>
    decidable_of_iff (other = name ∧
        (Path.scopes (.initializer other :: p) = [] → name ∉ globals (.initializer other :: p)))
      (by simp [Pending])
  | .past _ :: _ | .block :: _ | .body _ :: _ | .methods _ :: _ => .isFalse nofun

/-- How many scopes out a name is declared. -/
def distance? (p : Path) (name : String) : Option Nat :=
  p.scopes.findIdx? (name ∈ ·)

end Path

/-! ## Sites -/

/-- What the scope rules are about. -/
inductive Mention
  | declares (name : Lexeme)
  | inherits (name superclass : Lexeme)
  | reads (id : ExprId) (name : Lexeme)
  | assigns (id : ExprId) (name : Lexeme)
  | this (id : ExprId) (keyword : Lexeme)
  | super (id : ExprId) (keyword : Lexeme)
  | returns (keyword : Lexeme) (withValue : Bool)

/-- A mention, and its place in the program. -/
structure Site where
  place : Path
  mention : Mention

namespace Site

/-- The rule that is broken at the site, and the name or keyword that is blamed. -/
def breach? : Site → Option ScopeError
  | ⟨p, .declares name⟩ =>
    if name.text ∈ p.scopes.headD [] then some ⟨.redeclared, name⟩ else none
  | ⟨_, .inherits name superclass⟩ =>
    if superclass.text = name.text then some ⟨.inheritsItself, superclass⟩ else none
  | ⟨p, .reads _ name⟩ => if p.Pending name.text then some ⟨.readInInitializer, name⟩ else none
  | ⟨_, .assigns _ _⟩ => none
  | ⟨p, .this _ keyword⟩ =>
    match p.enclosingClass with
    | .none => some ⟨.thisOutsideClass, keyword⟩
    | .root | .derived => none
  | ⟨p, .super _ keyword⟩ =>
    match p.enclosingClass with
    | .none => some ⟨.superOutsideClass, keyword⟩
    | .root => some ⟨.superWithoutSuperclass, keyword⟩
    | .derived => none
  | ⟨p, .returns keyword withValue⟩ =>
    match p.body with
    | .none => some ⟨.returnOutsideFunction, keyword⟩
    | .initializer => if withValue then some ⟨.returnFromInitializer, keyword⟩ else none
    | .function | .method => none

/-- The node that the site is a reference of, if it is one that may refer to a local scope, and how
many scopes out the name is declared, if it is declared in one. -/
def note? : Site → Option (ExprId × Nat)
  | ⟨p, .reads id name⟩ | ⟨p, .assigns id name⟩ => (p.distance? name.text).map (id, ·)
  | ⟨p, .this id keyword⟩ =>
    if p.enclosingClass = .none then none else (p.distance? keyword.text).map (id, ·)
  | ⟨p, .super id keyword⟩ =>
    if p.enclosingClass = .derived then (p.distance? keyword.text).map (id, ·) else none
  | ⟨_, .declares _⟩ | ⟨_, .inherits _ _⟩ | ⟨_, .returns _ _⟩ => none

end Site

mutual

/-- The sites of an expression at a place. -/
def Expr.sites : Expr → Path → List Site
  | .assign id name value, p => value.sites p ++ [⟨p, .assigns id name⟩]
  | .binary _ _ left right, p => left.sites p ++ right.sites p
  | .call callee _ arguments, p => callee.sites p ++ Expr.sitesList arguments p
  | .get object _, p => object.sites p
  | .grouping inner, p => inner.sites p
  | .literal _, _ => []
  | .logical _ _ left right, p => left.sites p ++ right.sites p
  | .set object _ value, p => object.sites p ++ value.sites p
  | .super id keyword _, p => [⟨p, .super id keyword⟩]
  | .this id keyword, p => [⟨p, .this id keyword⟩]
  | .unary _ _ right, p => right.sites p
  | .variable id name, p => [⟨p, .reads id name⟩]

/-- The sites of expressions at a place. -/
def Expr.sitesList : List Expr → Path → List Site
  | [], _ => []
  | e :: es, p => e.sites p ++ Expr.sitesList es p

end

/-- The place after a statement. -/
def Stmt.pass (s : Stmt) (p : Path) : Path :=
  match s.declared? with
  | some name => .past name :: p
  | none => p

/-- The sites of the parameters of a function, inside its body. -/
def Lexeme.sites : List Lexeme → Path → List Site
  | [], _ => []
  | param :: params, p => ⟨p, .declares param⟩ :: Lexeme.sites params (.past param.text :: p)

/-- The place after the parameters of a function. -/
def Lexeme.pass (params : List Lexeme) (p : Path) : Path :=
  params.foldl (fun p param => .past param.text :: p) p

/-- The sites of the superclass that the class `name` names. -/
def Superclass.sites (name : Lexeme) (superclass : Option Superclass) (p : Path) : List Site :=
  match superclass with
  | none => []
  | some c => [⟨p, .inherits name c.name⟩, ⟨p, .reads c.id c.name⟩]

mutual

/-- The sites of a statement at a place. -/
def Stmt.sites : Stmt → Path → List Site
  | .block body, p => Stmt.sitesList body (.block :: p)
  | .classDecl name superclass methods, p =>
    ⟨p, .declares name⟩ :: (Superclass.sites name superclass (.past name.text :: p) ++
      FunctionDecl.sitesMethods methods (.methods superclass.isSome :: .past name.text :: p))
  | .expression e, p => e.sites p
  | .function decl, p =>
    ⟨p, .declares decl.name⟩ :: decl.sites .function (.past decl.name.text :: p)
  | .ifThen condition thenBranch, p => condition.sites p ++ thenBranch.sites p
  | .ifElse condition thenBranch elseBranch, p =>
    condition.sites p ++ (thenBranch.sites p ++ elseBranch.sites p)
  | .print e, p => e.sites p
  | .returning keyword none, p => [⟨p, .returns keyword false⟩]
  | .returning keyword (some value), p => ⟨p, .returns keyword true⟩ :: value.sites p
  | .varDecl name none, p => [⟨p, .declares name⟩]
  | .varDecl name (some initializer), p =>
    ⟨p, .declares name⟩ :: initializer.sites (.initializer name.text :: p)
  | .while condition body, p => condition.sites p ++ body.sites p

/-- The sites of statements, each at the place after those before it. -/
def Stmt.sitesList : List Stmt → Path → List Site
  | [], _ => []
  | s :: ss, p => s.sites p ++ Stmt.sitesList ss (s.pass p)

/-- The sites of a function with a body of that kind. -/
def FunctionDecl.sites : FunctionDecl → BodyKind → Path → List Site
  | ⟨_, params, body⟩, kind, p =>
    Lexeme.sites params (.body kind :: p) ++
      Stmt.sitesList body (Lexeme.pass params (.body kind :: p))

/-- The sites of the methods of a class. -/
def FunctionDecl.sitesMethods : List FunctionDecl → Path → List Site
  | [], _ => []
  | method :: methods, p =>
    method.sites method.methodBody p ++ FunctionDecl.sitesMethods methods p

end

/-- The sites of a program. -/
def Site.all (statements : List Stmt) : List Site :=
  Stmt.sitesList statements []

/-- The breaches of the scope rules in a program, one for each site where a rule is broken. -/
def breachesOf (statements : List Stmt) : List ScopeError :=
  (Site.all statements).filterMap Site.breach?

/-! ## The nodes of the sites -/

/-- The node that the site is a reference of. -/
def Site.node? : Site → Option ExprId
  | ⟨_, .reads id _⟩ | ⟨_, .assigns id _⟩ | ⟨_, .this id _⟩ | ⟨_, .super id _⟩ => some id
  | ⟨_, .declares _⟩ | ⟨_, .inherits _ _⟩ | ⟨_, .returns _ _⟩ => none

theorem Site.node?_of_note? {site : Site} {id : ExprId} {n : Nat}
    (h : site.note? = some (id, n)) : site.node? = some id := by
  obtain ⟨p, mention⟩ := site
  cases mention <;> simp only [Site.note?, Option.map_eq_some_iff, Option.ite_none_left_eq_some,
    Option.ite_none_right_eq_some, Prod.mk.injEq, reduceCtorEq] at h
  all_goals simp only [Site.node?, Option.some.injEq]; grind

mutual

/-- The reference nodes of an expression are those of its sites, one each. -/
theorem Expr.nodes_sites : ∀ (e : Expr) (p : Path), (e.sites p).filterMap Site.node? = e.ids
  | .assign _ _ value, p => by
    simp [Expr.sites, Expr.ids, value.nodes_sites p, Site.node?]
  | .binary _ _ left right, p | .logical _ _ left right, p => by
    simp [Expr.sites, Expr.ids, left.nodes_sites p, right.nodes_sites p]
  | .call callee _ arguments, p => by
    simp [Expr.sites, Expr.ids, callee.nodes_sites p, Expr.nodes_sitesList arguments p]
  | .get object _, p => object.nodes_sites p
  | .grouping inner, p => inner.nodes_sites p
  | .literal _, _ => rfl
  | .set object _ value, p => by
    simp [Expr.sites, Expr.ids, object.nodes_sites p, value.nodes_sites p]
  | .super _ _ _, _ => rfl
  | .this _ _, _ => rfl
  | .unary _ _ right, p => right.nodes_sites p
  | .variable _ _, _ => rfl

theorem Expr.nodes_sitesList : ∀ (es : List Expr) (p : Path),
    (Expr.sitesList es p).filterMap Site.node? = Expr.idsList es
  | [], _ => rfl
  | e :: es, p => by
    simp [Expr.sitesList, Expr.idsList, e.nodes_sites p, Expr.nodes_sitesList es p]

end

theorem Lexeme.nodes_sites (params : List Lexeme) (p : Path) :
    (Lexeme.sites params p).filterMap Site.node? = [] := by
  induction params generalizing p with
  | nil => rfl
  | cons param params ih => exact ih _

mutual

/-- The reference nodes of a statement are those of its sites, one each. -/
theorem Stmt.nodes_sites : ∀ (stmt : Stmt) (p : Path),
    (stmt.sites p).filterMap Site.node? = stmt.ids
  | .block body, p => Stmt.nodes_sitesList body _
  | .classDecl _ superclass methods, p => by
    have inside := FunctionDecl.nodes_sitesMethods methods
    cases superclass <;>
      simp [Stmt.sites, Stmt.ids, Superclass.sites, List.filterMap_cons, Site.node?, inside]
  | .expression e, p | .print e, p => e.nodes_sites p
  | .function decl, p => decl.nodes_sites _ _
  | .ifThen condition thenBranch, p => by
    simp [Stmt.sites, Stmt.ids, condition.nodes_sites p, thenBranch.nodes_sites p]
  | .ifElse condition thenBranch elseBranch, p => by
    simp [Stmt.sites, Stmt.ids, condition.nodes_sites p, thenBranch.nodes_sites p,
      elseBranch.nodes_sites p]
  | .returning _ none, _ => rfl
  | .returning _ (some value), p => value.nodes_sites p
  | .varDecl _ none, _ => rfl
  | .varDecl _ (some initializer), p => initializer.nodes_sites _
  | .while condition body, p => by
    simp [Stmt.sites, Stmt.ids, condition.nodes_sites p, body.nodes_sites p]

theorem Stmt.nodes_sitesList : ∀ (stmts : List Stmt) (p : Path),
    (Stmt.sitesList stmts p).filterMap Site.node? = Stmt.idsList stmts
  | [], _ => rfl
  | stmt :: stmts, p => by
    simp [Stmt.sitesList, Stmt.idsList, stmt.nodes_sites p, Stmt.nodes_sitesList stmts _]

theorem FunctionDecl.nodes_sites : ∀ (decl : FunctionDecl) (kind : BodyKind) (p : Path),
    (decl.sites kind p).filterMap Site.node? = decl.ids
  | ⟨_, params, body⟩, kind, p => by
    simp [FunctionDecl.sites, FunctionDecl.ids, Lexeme.nodes_sites params,
      Stmt.nodes_sitesList body]

theorem FunctionDecl.nodes_sitesMethods : ∀ (methods : List FunctionDecl) (p : Path),
    (FunctionDecl.sitesMethods methods p).filterMap Site.node? = FunctionDecl.idsList methods
  | [], _ => rfl
  | method :: methods, p => by
    simp [FunctionDecl.sitesMethods, FunctionDecl.idsList, method.nodes_sites,
      FunctionDecl.nodes_sitesMethods methods p]

end

/-- A node has one entry at most. -/
theorem Site.note?_unique {sites : List Site} (nodup : (sites.filterMap Site.node?).Nodup)
    {site site' : Site} (inside : site ∈ sites) (inside' : site' ∈ sites) {id : ExprId} {n n' : Nat}
    (h : site.note? = some (id, n)) (h' : site'.note? = some (id, n')) : n = n' := by
  have apart := List.pairwise_filterMap.mp nodup
  have same : site = site' := by
    by_contra differ
    have : Std.Symm fun a b : Site =>
        ∀ i, a.node? = some i → ∀ j, b.node? = some j → i ≠ j :=
      ⟨fun _ _ h i hi j hj e => h j hj i hi e.symm⟩
    exact apart.forall inside inside' differ id (node?_of_note? h) id (node?_of_note? h') rfl
  rw [same, h'] at h
  exact (congrArg Prod.snd (Option.some.inj h)).symm

end Lox
