import Lox.Syntax

/-!
# Trees as they are read

What every tree that is read from tokens has in common: its names and the keywords `this` and
`super` are the lexemes of tokens (`WellFormed`), no branch of a choice and no body of a loop is a
declaration, and its nodes are numbered without repetition (`Numbered`).
-/

namespace Lox

/-- The lexeme is that of a token of the kind that satisfies `T`. -/
def Lexeme.From (T : Token → Prop) (kind : TokenKind) (l : Lexeme) : Prop :=
  ∃ t, T t ∧ t.kind = kind ∧ l = ⟨t.lexeme, t.line⟩

/-! ## The numbers of nodes -/

mutual

/-- The numbers of the nodes of an expression. -/
def Expr.ids : Expr → List ExprId
  | .assign id _ value => value.ids ++ [id]
  | .binary _ _ left right => left.ids ++ right.ids
  | .call callee _ arguments => callee.ids ++ Expr.idsList arguments
  | .get object _ => object.ids
  | .grouping inner => inner.ids
  | .literal _ => []
  | .logical _ _ left right => left.ids ++ right.ids
  | .set object _ value => object.ids ++ value.ids
  | .super id _ _ => [id]
  | .this id _ => [id]
  | .unary _ _ right => right.ids
  | .variable id _ => [id]

/-- The numbers of the nodes of expressions. -/
def Expr.idsList : List Expr → List ExprId
  | [] => []
  | e :: es => e.ids ++ Expr.idsList es

end

mutual

/-- The numbers of the nodes of a statement. -/
def Stmt.ids : Stmt → List ExprId
  | .block body => Stmt.idsList body
  | .classDecl _ superclass methods =>
    (superclass.map Superclass.id).toList ++ FunctionDecl.idsList methods
  | .expression e => e.ids
  | .function decl => decl.ids
  | .ifThen condition thenBranch => condition.ids ++ thenBranch.ids
  | .ifElse condition thenBranch elseBranch => condition.ids ++ (thenBranch.ids ++ elseBranch.ids)
  | .print e => e.ids
  | .returning _ none => []
  | .returning _ (some value) => value.ids
  | .varDecl _ none => []
  | .varDecl _ (some initializer) => initializer.ids
  | .while condition body => condition.ids ++ body.ids

/-- The numbers of the nodes of statements. -/
def Stmt.idsList : List Stmt → List ExprId
  | [] => []
  | s :: ss => s.ids ++ Stmt.idsList ss

/-- The numbers of the nodes of a function's body. -/
def FunctionDecl.ids : FunctionDecl → List ExprId
  | ⟨_, _, body⟩ => Stmt.idsList body

/-- The numbers of the nodes of methods. -/
def FunctionDecl.idsList : List FunctionDecl → List ExprId
  | [] => []
  | method :: methods => method.ids ++ FunctionDecl.idsList methods

end

/-- The numbers differ, and lie between `lo` and `hi`. -/
structure Numbered (lo : Nat) (ids : List Nat) (hi : Nat) : Prop where
  nodup : ids.Nodup
  le : lo ≤ hi
  bounds : ∀ id ∈ ids, lo ≤ id ∧ id < hi

namespace Numbered

theorem nil (lo : Nat) : Numbered lo [] lo :=
  ⟨List.nodup_nil, Nat.le_refl lo, nofun⟩

theorem singleton (lo : Nat) : Numbered lo [lo] (lo + 1) := by
  refine ⟨List.pairwise_singleton _ lo, Nat.le_succ lo, fun id h => ?_⟩
  rw [List.mem_singleton] at h
  omega

theorem append {lo mid hi : Nat} {ids ids' : List Nat} (h : Numbered lo ids mid)
    (h' : Numbered mid ids' hi) : Numbered lo (ids ++ ids') hi := by
  have le := h.le
  have le' := h'.le
  refine ⟨List.nodup_append.mpr ⟨h.nodup, h'.nodup, fun a ha b hb e => ?_⟩, by omega,
    fun id hid => ?_⟩
  · have before := h.bounds a ha
    have after := h'.bounds b hb
    omega
  · rcases List.mem_append.mp hid with hid | hid
    · have := h.bounds id hid
      omega
    · have := h'.bounds id hid
      omega

/-- Numbers may be left out before those of `ids`. -/
theorem mono {lo lo' hi : Nat} {ids : List Nat} (h : Numbered lo' ids hi) (le : lo ≤ lo') :
    Numbered lo ids hi :=
  ⟨h.nodup, Nat.le_trans le h.le, fun id hid =>
    ⟨Nat.le_trans le (h.bounds id hid).1, (h.bounds id hid).2⟩⟩

theorem perm {lo hi : Nat} {ids ids' : List Nat} (h : Numbered lo ids hi) (p : ids.Perm ids') :
    Numbered lo ids' hi :=
  ⟨p.nodup_iff.mp h.nodup, h.le, fun id hid => h.bounds id (p.mem_iff.mpr hid)⟩

end Numbered

/-! ## Names and branches -/

mutual

/-- The names and keywords of an expression are lexemes of tokens that satisfy `T`. -/
def Expr.WellFormed (T : Token → Prop) : Expr → Prop
  | .assign _ name value => name.From T .identifier ∧ value.WellFormed T
  | .binary _ _ left right => left.WellFormed T ∧ right.WellFormed T
  | .call callee _ arguments => callee.WellFormed T ∧ Expr.WellFormedList T arguments
  | .get object name => object.WellFormed T ∧ name.From T .identifier
  | .grouping inner => inner.WellFormed T
  | .literal _ => True
  | .logical _ _ left right => left.WellFormed T ∧ right.WellFormed T
  | .set object name value => object.WellFormed T ∧ name.From T .identifier ∧ value.WellFormed T
  | .super _ keyword method => keyword.From T (.keyword .super) ∧ method.From T .identifier
  | .this _ keyword => keyword.From T (.keyword .this)
  | .unary _ _ right => right.WellFormed T
  | .variable _ name => name.From T .identifier

/-- Each of the expressions is well formed. -/
def Expr.WellFormedList (T : Token → Prop) : List Expr → Prop
  | [] => True
  | e :: es => e.WellFormed T ∧ Expr.WellFormedList T es

end

/-- The name that a statement declares in the scope around it. -/
def Stmt.declared? : Stmt → Option String
  | .classDecl name _ _ => some name.text
  | .function decl => some decl.name.text
  | .varDecl name _ => some name.text
  | _ => none

mutual

/-- The names and keywords of a statement are lexemes of tokens that satisfy `T`, and what is run
depending on a condition declares nothing. -/
def Stmt.WellFormed (T : Token → Prop) : Stmt → Prop
  | .block body => Stmt.WellFormedList T body
  | .classDecl name superclass methods =>
    name.From T .identifier ∧ (∀ c ∈ superclass, c.name.From T .identifier) ∧
      FunctionDecl.WellFormedList T methods
  | .expression e => e.WellFormed T
  | .function decl => decl.WellFormed T
  | .ifThen condition thenBranch =>
    condition.WellFormed T ∧ thenBranch.WellFormed T ∧ thenBranch.declared? = none
  | .ifElse condition thenBranch elseBranch =>
    condition.WellFormed T ∧ thenBranch.WellFormed T ∧ thenBranch.declared? = none ∧
      elseBranch.WellFormed T ∧ elseBranch.declared? = none
  | .print e => e.WellFormed T
  | .returning _ none => True
  | .returning _ (some value) => value.WellFormed T
  | .varDecl name none => name.From T .identifier
  | .varDecl name (some initializer) => name.From T .identifier ∧ initializer.WellFormed T
  | .while condition body => condition.WellFormed T ∧ body.WellFormed T ∧ body.declared? = none

/-- Each of the statements is well formed. -/
def Stmt.WellFormedList (T : Token → Prop) : List Stmt → Prop
  | [] => True
  | s :: ss => s.WellFormed T ∧ Stmt.WellFormedList T ss

/-- The name and the parameters are lexemes of tokens that satisfy `T`, and the body is well
formed. -/
def FunctionDecl.WellFormed (T : Token → Prop) : FunctionDecl → Prop
  | ⟨name, params, body⟩ =>
    name.From T .identifier ∧ (∀ param ∈ params, param.From T .identifier) ∧
      Stmt.WellFormedList T body

/-- Each of the methods is well formed. -/
def FunctionDecl.WellFormedList (T : Token → Prop) : List FunctionDecl → Prop
  | [] => True
  | method :: methods => method.WellFormed T ∧ FunctionDecl.WellFormedList T methods

end

end Lox
