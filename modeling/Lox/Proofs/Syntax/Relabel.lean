import Lox.Proofs.Syntax.Trees

/-!
# Trees with other labels

The nodes of a tree may be numbered in another way, and its lexemes may stand on other lines: it is
the same tree otherwise (`Stmt.relabel`).
-/

namespace Lox

/-- Other numbers of nodes, and other lines. -/
structure Relabelling where
  id : ExprId → ExprId
  line : Nat → Nat

namespace Relabelling

/-- Behind `lines` lines and a program with the numbers below `ids`. -/
def after (lines ids : Nat) : Relabelling :=
  ⟨(· + ids), (· + lines)⟩

/-- The same numbers, on the same lines. -/
def same : Relabelling :=
  ⟨fun id => id, fun line => line⟩

end Relabelling

section
variable (R : Relabelling)

/-- The lexeme on its other line. -/
def Lexeme.relabel (l : Lexeme) : Lexeme :=
  { l with line := R.line l.line }

@[simp] theorem Lexeme.text_relabel (l : Lexeme) : (l.relabel R).text = l.text := rfl

mutual

/-- The expression with other labels. -/
def Expr.relabel : Expr → Expr
  | .assign id name value => .assign (R.id id) (name.relabel R) value.relabel
  | .binary op mark left right => .binary op (mark.relabel R) left.relabel right.relabel
  | .call callee paren arguments =>
    .call callee.relabel (paren.relabel R) (Expr.relabelList arguments)
  | .get object name => .get object.relabel (name.relabel R)
  | .grouping inner => .grouping inner.relabel
  | .literal value => .literal value
  | .logical op mark left right => .logical op (mark.relabel R) left.relabel right.relabel
  | .set object name value => .set object.relabel (name.relabel R) value.relabel
  | .super id keyword method => .super (R.id id) (keyword.relabel R) (method.relabel R)
  | .this id keyword => .this (R.id id) (keyword.relabel R)
  | .unary op mark right => .unary op (mark.relabel R) right.relabel
  | .variable id name => .variable (R.id id) (name.relabel R)

/-- The expressions with other labels. -/
def Expr.relabelList : List Expr → List Expr
  | [] => []
  | e :: es => e.relabel :: Expr.relabelList es

end

/-- The superclass with other labels. -/
def Superclass.relabel (c : Superclass) : Superclass :=
  ⟨R.id c.id, c.name.relabel R⟩

mutual

/-- The statement with other labels. -/
def Stmt.relabel : Stmt → Stmt
  | .block body => .block (Stmt.relabelList body)
  | .classDecl name superclass methods =>
    .classDecl (name.relabel R) (superclass.map (Superclass.relabel R))
      (FunctionDecl.relabelList methods)
  | .expression e => .expression (e.relabel R)
  | .function decl => .function decl.relabel
  | .ifThen condition thenBranch => .ifThen (condition.relabel R) thenBranch.relabel
  | .ifElse condition thenBranch elseBranch =>
    .ifElse (condition.relabel R) thenBranch.relabel elseBranch.relabel
  | .print e => .print (e.relabel R)
  | .returning keyword value => .returning (keyword.relabel R) (value.map (Expr.relabel R))
  | .varDecl name initializer => .varDecl (name.relabel R) (initializer.map (Expr.relabel R))
  | .while condition body => .while (condition.relabel R) body.relabel

/-- The statements with other labels. -/
def Stmt.relabelList : List Stmt → List Stmt
  | [] => []
  | s :: ss => s.relabel :: Stmt.relabelList ss

/-- The declaration of a function with other labels. -/
def FunctionDecl.relabel : FunctionDecl → FunctionDecl
  | ⟨name, params, body⟩ =>
    ⟨name.relabel R, params.map (Lexeme.relabel R), Stmt.relabelList body⟩

/-- The methods with other labels. -/
def FunctionDecl.relabelList : List FunctionDecl → List FunctionDecl
  | [] => []
  | method :: methods => method.relabel :: FunctionDecl.relabelList methods

end

theorem Stmt.declared?_relabel (s : Stmt) : (s.relabel R).declared? = s.declared? := by
  cases s with
  | function decl => cases decl; rfl
  | _ => rfl

end

/-! ## The same labels -/

mutual

theorem Expr.relabel_same : ∀ (e : Expr), e.relabel .same = e
  | .assign _ _ value => by rw [Expr.relabel, value.relabel_same]; rfl
  | .binary _ _ left right | .logical _ _ left right => by
    rw [Expr.relabel, left.relabel_same, right.relabel_same]; rfl
  | .call callee _ arguments => by
    rw [Expr.relabel, callee.relabel_same, Expr.relabelList_same arguments]; rfl
  | .get object _ => by rw [Expr.relabel, object.relabel_same]; rfl
  | .grouping inner => by rw [Expr.relabel, inner.relabel_same]
  | .literal _ | .super _ _ _ | .this _ _ | .variable _ _ => rfl
  | .set object _ value => by
    rw [Expr.relabel, object.relabel_same, value.relabel_same]; rfl
  | .unary _ _ right => by rw [Expr.relabel, right.relabel_same]; rfl

theorem Expr.relabelList_same : ∀ (es : List Expr), Expr.relabelList .same es = es
  | [] => rfl
  | e :: es => by rw [Expr.relabelList, e.relabel_same, Expr.relabelList_same es]

end

mutual

theorem Stmt.relabel_same : ∀ (s : Stmt), s.relabel .same = s
  | .block body => by rw [Stmt.relabel, Stmt.relabelList_same body]
  | .classDecl _ superclass methods => by
    have above : superclass.map (Superclass.relabel .same) = superclass := by
      cases superclass <;> rfl
    rw [Stmt.relabel, above, FunctionDecl.relabelList_same methods]; rfl
  | .expression e | .print e => by rw [Stmt.relabel, e.relabel_same]
  | .function decl => by rw [Stmt.relabel, decl.relabel_same]
  | .ifThen condition thenBranch => by
    rw [Stmt.relabel, condition.relabel_same, thenBranch.relabel_same]
  | .ifElse condition thenBranch elseBranch => by
    rw [Stmt.relabel, condition.relabel_same, thenBranch.relabel_same, elseBranch.relabel_same]
  | .returning _ none | .varDecl _ none => rfl
  | .returning _ (some e) | .varDecl _ (some e) => by
    rw [Stmt.relabel, Option.map_some, e.relabel_same]; rfl
  | .while condition body => by rw [Stmt.relabel, condition.relabel_same, body.relabel_same]

theorem Stmt.relabelList_same : ∀ (ss : List Stmt), Stmt.relabelList .same ss = ss
  | [] => rfl
  | s :: ss => by rw [Stmt.relabelList, s.relabel_same, Stmt.relabelList_same ss]

theorem FunctionDecl.relabel_same : ∀ (decl : FunctionDecl), decl.relabel .same = decl
  | ⟨_, params, body⟩ => by
    have kept : params.map (Lexeme.relabel .same) = params := List.map_id'' (fun _ => rfl) params
    rw [FunctionDecl.relabel, kept, Stmt.relabelList_same body]; rfl

theorem FunctionDecl.relabelList_same : ∀ (methods : List FunctionDecl),
    FunctionDecl.relabelList .same methods = methods
  | [] => rfl
  | method :: methods => by
    rw [FunctionDecl.relabelList, method.relabel_same, FunctionDecl.relabelList_same methods]

end

end Lox
