import Lox.Proofs.Syntax.Trees

/-!
# The names that code may bind

The names to which an expression or a statement may bind a value in some frame, whether it declares
them or assigns them. Code that is read from tokens binds only names of tokens
(`Expr.WellFormed.written`, `Stmt.WellFormed.written`).
-/

namespace Lox

mutual

/-- The names that an expression may bind. -/
def Expr.written : Expr → List String
  | .assign _ name value => name.text :: value.written
  | .binary _ _ left right => left.written ++ right.written
  | .call callee _ arguments => callee.written ++ Expr.writtenList arguments
  | .get object _ => object.written
  | .grouping inner => inner.written
  | .literal _ => []
  | .logical _ _ left right => left.written ++ right.written
  | .set object _ value => value.written ++ object.written
  | .super _ _ _ => []
  | .this _ _ => []
  | .unary _ _ right => right.written
  | .variable _ _ => []

/-- The names that expressions may bind. -/
def Expr.writtenList : List Expr → List String
  | [] => []
  | e :: es => e.written ++ Expr.writtenList es

end

mutual

/-- The names that a statement may bind, when it runs or when a function that it declares does. -/
def Stmt.written : Stmt → List String
  | .block body => Stmt.writtenList body
  | .classDecl name _ methods => name.text :: FunctionDecl.writtenList methods
  | .expression e => e.written
  | .function decl => decl.name.text :: decl.written
  | .ifThen condition thenBranch => condition.written ++ thenBranch.written
  | .ifElse condition thenBranch elseBranch =>
    condition.written ++ (thenBranch.written ++ elseBranch.written)
  | .print e => e.written
  | .returning _ none => []
  | .returning _ (some value) => value.written
  | .varDecl name none => [name.text]
  | .varDecl name (some initializer) => name.text :: initializer.written
  | .while condition body => condition.written ++ body.written

/-- The names that statements may bind. -/
def Stmt.writtenList : List Stmt → List String
  | [] => []
  | s :: ss => s.written ++ Stmt.writtenList ss

/-- The names that a call of a function may bind. -/
def FunctionDecl.written : FunctionDecl → List String
  | ⟨_, params, body⟩ => params.map Lexeme.text ++ Stmt.writtenList body

/-- The names that calls of methods may bind. -/
def FunctionDecl.writtenList : List FunctionDecl → List String
  | [] => []
  | method :: methods => method.written ++ FunctionDecl.writtenList methods

end

theorem FunctionDecl.written_eq (decl : FunctionDecl) :
    decl.written = decl.params.map Lexeme.text ++ Stmt.writtenList decl.body := by
  cases decl
  rfl

section
variable {T : Token → Prop} {N : String → Prop}

mutual

theorem Expr.WellFormed.written (names : ∀ l : Lexeme, l.From T .identifier → N l.text) :
    (e : Expr) → e.WellFormed T → ∀ n ∈ e.written, N n
  | .assign _ name value, h =>
    List.forall_mem_cons.mpr ⟨names name h.1, Expr.WellFormed.written names value h.2⟩
  | .binary _ _ left right, h | .logical _ _ left right, h =>
    List.forall_mem_append.mpr
      ⟨Expr.WellFormed.written names left h.1, Expr.WellFormed.written names right h.2⟩
  | .call callee _ arguments, h =>
    List.forall_mem_append.mpr
      ⟨Expr.WellFormed.written names callee h.1, Expr.WellFormedList.written names arguments h.2⟩
  | .get object _, h => Expr.WellFormed.written names object h.1
  | .grouping inner, h => Expr.WellFormed.written names inner h
  | .set object _ value, h =>
    List.forall_mem_append.mpr
      ⟨Expr.WellFormed.written names value h.2.2, Expr.WellFormed.written names object h.1⟩
  | .unary _ _ right, h => Expr.WellFormed.written names right h
  | .literal _, _ | .super .., _ | .this .., _ | .variable .., _ => nofun

theorem Expr.WellFormedList.written (names : ∀ l : Lexeme, l.From T .identifier → N l.text) :
    (es : List Expr) → Expr.WellFormedList T es → ∀ n ∈ Expr.writtenList es, N n
  | [], _ => nofun
  | e :: es, h =>
    List.forall_mem_append.mpr
      ⟨Expr.WellFormed.written names e h.1, Expr.WellFormedList.written names es h.2⟩

end

mutual

theorem Stmt.WellFormed.written (names : ∀ l : Lexeme, l.From T .identifier → N l.text) :
    (s : Stmt) → s.WellFormed T → ∀ n ∈ s.written, N n
  | .block body, h => Stmt.WellFormedList.written names body h
  | .classDecl name _ methods, h =>
    List.forall_mem_cons.mpr
      ⟨names name h.1, FunctionDecl.WellFormedList.written names methods h.2.2⟩
  | .expression e, h | .print e, h => Expr.WellFormed.written names e h
  | .function ⟨name, params, body⟩, h =>
    List.forall_mem_cons.mpr
      ⟨names name h.1, FunctionDecl.WellFormed.written names ⟨name, params, body⟩ h⟩
  | .ifThen condition thenBranch, h =>
    List.forall_mem_append.mpr
      ⟨Expr.WellFormed.written names condition h.1, Stmt.WellFormed.written names thenBranch h.2.1⟩
  | .ifElse condition thenBranch elseBranch, h =>
    List.forall_mem_append.mpr
      ⟨Expr.WellFormed.written names condition h.1, List.forall_mem_append.mpr
        ⟨Stmt.WellFormed.written names thenBranch h.2.1,
          Stmt.WellFormed.written names elseBranch h.2.2.2.1⟩⟩
  | .returning _ none, _ => nofun
  | .returning _ (some value), h => Expr.WellFormed.written names value h
  | .varDecl name none, h => List.forall_mem_singleton.mpr (names name h)
  | .varDecl name (some initializer), h =>
    List.forall_mem_cons.mpr ⟨names name h.1, Expr.WellFormed.written names initializer h.2⟩
  | .while condition body, h =>
    List.forall_mem_append.mpr
      ⟨Expr.WellFormed.written names condition h.1, Stmt.WellFormed.written names body h.2.1⟩

theorem Stmt.WellFormedList.written (names : ∀ l : Lexeme, l.From T .identifier → N l.text) :
    (ss : List Stmt) → Stmt.WellFormedList T ss → ∀ n ∈ Stmt.writtenList ss, N n
  | [], _ => nofun
  | s :: ss, h =>
    List.forall_mem_append.mpr
      ⟨Stmt.WellFormed.written names s h.1, Stmt.WellFormedList.written names ss h.2⟩

theorem FunctionDecl.WellFormed.written (names : ∀ l : Lexeme, l.From T .identifier → N l.text) :
    (decl : FunctionDecl) → decl.WellFormed T → ∀ n ∈ decl.written, N n
  | ⟨_, _, body⟩, h =>
    List.forall_mem_append.mpr
      ⟨List.forall_mem_map.mpr fun param inside => names param (h.2.1 param inside),
        Stmt.WellFormedList.written names body h.2.2⟩

theorem FunctionDecl.WellFormedList.written
    (names : ∀ l : Lexeme, l.From T .identifier → N l.text) : (methods : List FunctionDecl) →
      FunctionDecl.WellFormedList T methods → ∀ n ∈ FunctionDecl.writtenList methods, N n
  | [], _ => nofun
  | method :: methods, h =>
    List.forall_mem_append.mpr ⟨FunctionDecl.WellFormed.written names method h.1,
      FunctionDecl.WellFormedList.written names methods h.2⟩

end

end

end Lox
