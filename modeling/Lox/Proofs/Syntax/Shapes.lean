import Lox.Proofs.Syntax.Trees
import Lox.Syntax.Grammar

/-!
# The trees of the grammar

The trees that the grammar describes (`Expr.Grammatical`, `Stmt.Grammatical`), and the tokens that
each of them is written with. A tree says of every token what kind it is and keeps the lexeme of
some (`Slot`); the lexeme and the line of the others, such as punctuation, are left open. Tokens
spell a tree if each of them fits its slot (`Spells`).

How tightly a tree holds together is a number (`Expr.rank`): 0 for an assignment, 1 to 6 for the
levels of operators between two operands, 7 for an operator before its operand, 8 for a call or a
property, and 9 for what stands by itself.
-/

namespace Lox

/-! ## Tokens of a tree -/

/-- What a tree says of one of its tokens: its kind, and the lexeme if the tree keeps it. -/
structure Slot where
  kind : TokenKind
  kept : Option Lexeme

namespace Slot

/-- A symbol that the tree does not keep. -/
def symbol (s : Symbol) : Slot :=
  ⟨.symbol s, none⟩

/-- A keyword that the tree does not keep. -/
def keyword (k : Keyword) : Slot :=
  ⟨.keyword k, none⟩

/-- A name. -/
def name (l : Lexeme) : Slot :=
  ⟨.identifier, some l⟩

/-- The token is of the kind, and has the lexeme that is kept. -/
structure Takes (s : Slot) (t : Token) : Prop where
  kind : t.kind = s.kind
  kept : ∀ l ∈ s.kept, l = ⟨t.lexeme, t.line⟩

/-- A token that fits: with the lexeme that is kept, or an empty one on line 0. -/
def token (s : Slot) : Token :=
  match s.kept with
  | some l => ⟨s.kind, l.text, l.line⟩
  | none => ⟨s.kind, "", 0⟩

theorem takes_token (s : Slot) : s.Takes s.token := by
  obtain ⟨kind, kept⟩ := s
  cases kept with
  | none => exact ⟨rfl, nofun⟩
  | some l => exact ⟨rfl, fun l' h => by cases h; rfl⟩

end Slot

/-- The tokens begin with one token for each slot, and `rest` is what follows. -/
def Spells : List Slot → List Token → List Token → Prop
  | [], tokens, rest => tokens = rest
  | s :: slots, tokens, rest => ∃ t ts, tokens = t :: ts ∧ s.Takes t ∧ Spells slots ts rest

namespace Spells

theorem append {slots slots' : List Slot} {tokens rest : List Token} :
    Spells (slots ++ slots') tokens rest ↔
      ∃ mid, Spells slots tokens mid ∧ Spells slots' mid rest := by
  induction slots generalizing tokens with
  | nil => exact ⟨fun h => ⟨tokens, rfl, h⟩, fun ⟨_, e, h⟩ => e ▸ h⟩
  | cons s slots ih =>
    constructor
    · rintro ⟨t, ts, rfl, takes, h⟩
      obtain ⟨mid, h₁, h₂⟩ := ih.mp h
      exact ⟨mid, ⟨t, ts, rfl, takes, h₁⟩, h₂⟩
    · rintro ⟨mid, ⟨t, ts, rfl, takes, h₁⟩, h₂⟩
      exact ⟨t, ts, rfl, takes, ih.mpr ⟨mid, h₁, h₂⟩⟩

theorem length_eq {slots : List Slot} {tokens rest : List Token} (h : Spells slots tokens rest) :
    tokens.length = slots.length + rest.length := by
  induction slots generalizing tokens with
  | nil => rw [h, List.length_nil, Nat.zero_add]
  | cons s slots ih =>
    obtain ⟨t, ts, rfl, -, h⟩ := h
    rw [List.length_cons, List.length_cons, ih h]
    omega

/-- Every list of slots is spelt by some tokens, whatever follows. -/
theorem map_token (slots : List Slot) (rest : List Token) :
    Spells slots (slots.map Slot.token ++ rest) rest := by
  induction slots with
  | nil => rfl
  | cons s slots ih => exact ⟨s.token, _, rfl, s.takes_token, ih⟩

end Spells

/-- The kind of the token that a constant is written as. -/
def Literal.kind : Literal → TokenKind
  | number value => .number value
  | string contents => .string contents
  | true => .keyword .true
  | false => .keyword .false
  | nil => .keyword .nil

mutual

/-- The tokens of an expression. -/
def Expr.slots : Expr → List Slot
  | .assign _ name value => .name name :: .symbol .equal :: value.slots
  | .binary op mark left right => left.slots ++ ⟨.symbol op.symbol, some mark⟩ :: right.slots
  | .call callee paren arguments =>
    callee.slots ++ .symbol .leftParen ::
      (Expr.slotsList arguments ++ [⟨.symbol .rightParen, some paren⟩])
  | .get object name => object.slots ++ [.symbol .dot, .name name]
  | .grouping inner => .symbol .leftParen :: (inner.slots ++ [.symbol .rightParen])
  | .literal value => [⟨value.kind, none⟩]
  | .logical op mark left right => left.slots ++ ⟨.keyword op.keyword, some mark⟩ :: right.slots
  | .set object name value =>
    object.slots ++ .symbol .dot :: .name name :: .symbol .equal :: value.slots
  | .super _ keyword method => [⟨.keyword .super, some keyword⟩, .symbol .dot, .name method]
  | .this _ keyword => [⟨.keyword .this, some keyword⟩]
  | .unary op mark right => ⟨.symbol op.symbol, some mark⟩ :: right.slots
  | .variable _ name => [.name name]

/-- The tokens of expressions with commas between them. -/
def Expr.slotsList : List Expr → List Slot
  | [] => []
  | e :: es => e.slots ++ Expr.slotsRest es

/-- The tokens of expressions with a comma before each of them. -/
def Expr.slotsRest : List Expr → List Slot
  | [] => []
  | e :: es => .symbol .comma :: (e.slots ++ Expr.slotsRest es)

end

/-- The tokens of names with commas between them. -/
def Slot.names : List Lexeme → List Slot
  | [] => []
  | l :: ls => .name l :: ls.flatMap fun l => [.symbol .comma, .name l]

mutual

/-- The tokens of a statement. -/
def Stmt.slots : Stmt → List Slot
  | .block body => .symbol .leftBrace :: (Stmt.slotsList body ++ [.symbol .rightBrace])
  | .classDecl name superclass methods =>
    .keyword .class :: .name name ::
      (superclass.elim [] (fun c => [.symbol .less, .name c.name]) ++ .symbol .leftBrace ::
        (FunctionDecl.slotsList methods ++ [.symbol .rightBrace]))
  | .expression e => e.slots ++ [.symbol .semicolon]
  | .function decl => .keyword .fun :: decl.slots
  | .ifThen condition thenBranch =>
    .keyword .if :: .symbol .leftParen ::
      (condition.slots ++ .symbol .rightParen :: thenBranch.slots)
  | .ifElse condition thenBranch elseBranch =>
    .keyword .if :: .symbol .leftParen ::
      (condition.slots ++ .symbol .rightParen ::
        (thenBranch.slots ++ .keyword .else :: elseBranch.slots))
  | .print e => .keyword .print :: (e.slots ++ [.symbol .semicolon])
  | .returning keyword none => [⟨.keyword .return, some keyword⟩, .symbol .semicolon]
  | .returning keyword (some value) =>
    ⟨.keyword .return, some keyword⟩ :: (value.slots ++ [.symbol .semicolon])
  | .varDecl name none => [.keyword .var, .name name, .symbol .semicolon]
  | .varDecl name (some initializer) =>
    .keyword .var :: .name name :: .symbol .equal :: (initializer.slots ++ [.symbol .semicolon])
  | .while condition body =>
    .keyword .while :: .symbol .leftParen :: (condition.slots ++ .symbol .rightParen :: body.slots)

/-- The tokens of statements, one after the other. -/
def Stmt.slotsList : List Stmt → List Slot
  | [] => []
  | s :: ss => s.slots ++ Stmt.slotsList ss

/-- The tokens of a function, without its keyword. -/
def FunctionDecl.slots : FunctionDecl → List Slot
  | ⟨name, params, body⟩ =>
    .name name :: .symbol .leftParen ::
      (Slot.names params ++ .symbol .rightParen :: .symbol .leftBrace ::
        (Stmt.slotsList body ++ [.symbol .rightBrace]))

/-- The tokens of methods, one after the other. -/
def FunctionDecl.slotsList : List FunctionDecl → List Slot
  | [] => []
  | method :: methods => method.slots ++ FunctionDecl.slotsList methods

end

/-! ## Shapes -/

/-- How tightly the operators of a level bind. -/
def Level.rank : Level → Nat
  | or => 1
  | and => 2
  | equality => 3
  | comparison => 4
  | term => 5
  | factor => 6

/-- The level of an operator. -/
def BinaryOp.level : BinaryOp → Level
  | unequal | equal => .equality
  | greater | greaterEqual | less | lessEqual => .comparison
  | subtract | add => .term
  | divide | multiply => .factor

/-- The level of an operator. -/
def LogicalOp.level : LogicalOp → Level
  | or => .or
  | and => .and

/-- How tightly an expression holds together. -/
def Expr.rank : Expr → Nat
  | .assign .. | .set .. => 0
  | .binary op .. => op.level.rank
  | .logical op .. => op.level.rank
  | .unary .. => 7
  | .call .. | .get .. => 8
  | .grouping _ | .literal _ | .super .. | .this .. | .variable .. => 9

mutual

/-- The operands hold together at least as tightly as their places ask for: operators between two
operands group to the left, assignments and operators before an operand to the right. -/
def Expr.Grammatical : Expr → Prop
  | .assign _ _ value => value.Grammatical
  | .binary op _ left right =>
    (op.level.rank ≤ left.rank ∧ left.Grammatical) ∧ op.level.rank < right.rank ∧
      right.Grammatical
  | .call callee _ arguments =>
    (8 ≤ callee.rank ∧ callee.Grammatical) ∧ arguments.length ≤ Listing.limit ∧
      Expr.GrammaticalList arguments
  | .get object _ => 8 ≤ object.rank ∧ object.Grammatical
  | .grouping inner => inner.Grammatical
  | .literal _ => True
  | .logical op _ left right =>
    (op.level.rank ≤ left.rank ∧ left.Grammatical) ∧ op.level.rank < right.rank ∧
      right.Grammatical
  | .set object _ value => (8 ≤ object.rank ∧ object.Grammatical) ∧ value.Grammatical
  | .super _ _ _ => True
  | .this _ _ => True
  | .unary _ _ right => 7 ≤ right.rank ∧ right.Grammatical
  | .variable _ _ => True

/-- Each of the expressions is grammatical. -/
def Expr.GrammaticalList : List Expr → Prop
  | [] => True
  | e :: es => e.Grammatical ∧ Expr.GrammaticalList es

end

/-- Does the statement end in a choice without `else`, so that an `else` after it would belong to
that choice? -/
def Stmt.dangles : Stmt → Bool
  | .ifThen _ _ => true
  | .ifElse _ _ elseBranch => elseBranch.dangles
  | .while _ body => body.dangles
  | _ => false

mutual

/-- Every expression is grammatical, a branch of a choice and the body of a loop declare nothing,
and no branch before an `else` ends in a choice without one. -/
def Stmt.Grammatical : Stmt → Prop
  | .block body => Stmt.GrammaticalList body
  | .classDecl _ _ methods => FunctionDecl.GrammaticalList methods
  | .expression e => e.Grammatical
  | .function decl => decl.Grammatical
  | .ifThen condition thenBranch =>
    condition.Grammatical ∧ thenBranch.Grammatical ∧ thenBranch.declared? = none
  | .ifElse condition thenBranch elseBranch =>
    condition.Grammatical ∧
      (thenBranch.Grammatical ∧ thenBranch.declared? = none ∧ thenBranch.dangles = false) ∧
      elseBranch.Grammatical ∧ elseBranch.declared? = none
  | .print e => e.Grammatical
  | .returning _ none => True
  | .returning _ (some value) => value.Grammatical
  | .varDecl _ none => True
  | .varDecl _ (some initializer) => initializer.Grammatical
  | .while condition body => condition.Grammatical ∧ body.Grammatical ∧ body.declared? = none

/-- Each of the statements is grammatical. -/
def Stmt.GrammaticalList : List Stmt → Prop
  | [] => True
  | s :: ss => s.Grammatical ∧ Stmt.GrammaticalList ss

/-- There are not too many parameters, and the body is grammatical. -/
def FunctionDecl.Grammatical : FunctionDecl → Prop
  | ⟨_, params, body⟩ => params.length ≤ Listing.limit ∧ Stmt.GrammaticalList body

/-- Each of the methods is grammatical. -/
def FunctionDecl.GrammaticalList : List FunctionDecl → Prop
  | [] => True
  | method :: methods => method.Grammatical ∧ FunctionDecl.GrammaticalList methods

end

/-! ## Trees without numbers -/

mutual

/-- The expression with the number 0 at every node. -/
def Expr.unnumbered : Expr → Expr
  | .assign _ name value => .assign 0 name value.unnumbered
  | .binary op mark left right => .binary op mark left.unnumbered right.unnumbered
  | .call callee paren arguments => .call callee.unnumbered paren (Expr.unnumberedList arguments)
  | .get object name => .get object.unnumbered name
  | .grouping inner => .grouping inner.unnumbered
  | .literal value => .literal value
  | .logical op mark left right => .logical op mark left.unnumbered right.unnumbered
  | .set object name value => .set object.unnumbered name value.unnumbered
  | .super _ keyword method => .super 0 keyword method
  | .this _ keyword => .this 0 keyword
  | .unary op mark right => .unary op mark right.unnumbered
  | .variable _ name => .variable 0 name

/-- The expressions with the number 0 at every node. -/
def Expr.unnumberedList : List Expr → List Expr
  | [] => []
  | e :: es => e.unnumbered :: Expr.unnumberedList es

end

mutual

/-- The statement with the number 0 at every node. -/
def Stmt.unnumbered : Stmt → Stmt
  | .block body => .block (Stmt.unnumberedList body)
  | .classDecl name superclass methods =>
    .classDecl name (superclass.map fun c => ⟨0, c.name⟩) (FunctionDecl.unnumberedList methods)
  | .expression e => .expression e.unnumbered
  | .function decl => .function decl.unnumbered
  | .ifThen condition thenBranch => .ifThen condition.unnumbered thenBranch.unnumbered
  | .ifElse condition thenBranch elseBranch =>
    .ifElse condition.unnumbered thenBranch.unnumbered elseBranch.unnumbered
  | .print e => .print e.unnumbered
  | .returning keyword value => .returning keyword (value.map Expr.unnumbered)
  | .varDecl name initializer => .varDecl name (initializer.map Expr.unnumbered)
  | .while condition body => .while condition.unnumbered body.unnumbered

/-- The statements with the number 0 at every node. -/
def Stmt.unnumberedList : List Stmt → List Stmt
  | [] => []
  | s :: ss => s.unnumbered :: Stmt.unnumberedList ss

/-- The function with the number 0 at every node of its body. -/
def FunctionDecl.unnumbered : FunctionDecl → FunctionDecl
  | ⟨name, params, body⟩ => ⟨name, params, Stmt.unnumberedList body⟩

/-- The methods with the number 0 at every node. -/
def FunctionDecl.unnumberedList : List FunctionDecl → List FunctionDecl
  | [] => []
  | method :: methods => method.unnumbered :: FunctionDecl.unnumberedList methods

end

end Lox
