import Lox.Proofs.Syntax.Soundness.Steps
import Lox.Proofs.Syntax.Completeness.Expressions

/-!
# Every expression that is read is of the grammar

Each rule for expressions takes exactly the tokens of the tree that it gives, and the tree is of the
grammar and holds together as tightly as the place of the rule asks for (`Expr.Parsed`). The loops
that join operands, or that add calls and properties, keep this of the tree that they have so far.
-/

namespace Lox

/-- The expression is of the grammar, holds together as tightly as `rank`, and is written with the
tokens before `rest`. -/
structure Expr.Parsed (rank : Nat) (tokens : List Token) (e : Expr) (rest : List Token) :
    Prop where
  grammatical : e.Grammatical
  tight : rank ≤ e.rank
  spells : Spells e.slots tokens rest

/-- The expressions are of the grammar, and are written, with commas, with the tokens before
`rest`. -/
structure Expr.ParsedList (tokens : List Token) (es : List Expr) (rest : List Token) : Prop where
  grammatical : Expr.GrammaticalList es
  spells : Spells (Expr.slotsList es) tokens rest

theorem Expr.Parsed.mono {rank rank' : Nat} {tokens rest : List Token} {e : Expr}
    (h : e.Parsed rank tokens rest) (le : rank' ≤ rank) : e.Parsed rank' tokens rest :=
  ⟨h.grammatical, Nat.le_trans le h.tight, h.spells⟩

theorem Expr.slotsRest_eq (es : List Expr) (h : es ≠ []) :
    Expr.slotsRest es = .symbol .comma :: Expr.slotsList es := by
  cases es with
  | nil => exact absurd rfl h
  | cons e es => rfl

/-! ## Operators of tokens -/

/-- The operator of a level that a token stands for is written as such a token. -/
theorem Level.eq_of_connective? {level : Level} {kind : TokenKind} {op : Connective}
    (h : level.connective? kind = some op) : kind = op.kind ∧ op.level = level := by
  unfold connective? at h
  split at h <;> first | (cases h; exact ⟨rfl, rfl⟩) | cases h

theorem Connective.grammatical_node {op : Connective} {mark : Lexeme} {left right : Expr}
    (hl : op.level.rank ≤ left.rank ∧ left.Grammatical)
    (hr : op.level.rank < right.rank ∧ right.Grammatical) :
    (op.node mark left right).Grammatical := by
  cases op <;> exact ⟨hl, hr.1, hr.2⟩

theorem Connective.rank_node (op : Connective) (mark : Lexeme) (left right : Expr) :
    (op.node mark left right).rank = op.level.rank := by
  cases op <;> rfl

theorem UnaryOp.eq_of_ofKind? {kind : TokenKind} {op : UnaryOp} (h : ofKind? kind = some op) :
    kind = .symbol op.symbol := by
  unfold ofKind? at h
  split at h <;> cases h <;> rfl

/-- The kind of token that each primary expression begins with. -/
def Atom.kind : Atom → TokenKind
  | .literal value => value.kind
  | .this => .keyword .this
  | .variable => .identifier
  | .super => .keyword .super
  | .group => .symbol .leftParen

theorem Atom.eq_of_ofKind? {kind : TokenKind} {atom : Atom} (h : ofKind? kind = some atom) :
    kind = atom.kind := by
  unfold ofKind? at h
  split at h <;> cases h <;> rfl

namespace Rule

/-! ## Expressions -/

/-- What the rules for expressions yield, at the depth `n`. -/
structure YieldsExpressions (n : Nat) : Prop where
  expression : ∀ tokens, Yields (expression n) tokens (Expr.Parsed 0 tokens)
  operators : ∀ level tokens, Yields (operators n level) tokens (Expr.Parsed level.rank tokens)
  operatorsFrom : ∀ level left tokens mid, left.Parsed level.rank tokens mid →
    Yields (operatorsFrom n level left) mid (Expr.Parsed level.rank tokens)
  operand : ∀ level tokens, Yields (operand n level) tokens (Expr.Parsed (level.rank + 1) tokens)
  unary : ∀ tokens, Yields (unary n) tokens (Expr.Parsed 7 tokens)
  call : ∀ tokens, Yields (call n) tokens (Expr.Parsed 8 tokens)
  callFrom : ∀ e tokens mid, e.Parsed 8 tokens mid →
    Yields (callFrom n e) mid (Expr.Parsed 8 tokens)
  arguments : ∀ count tokens, Yields (arguments n count) tokens fun es rest =>
    Expr.ParsedList tokens es rest ∧ es ≠ [] ∧ count + es.length ≤ Listing.limit
  primary : ∀ tokens, Yields (primary n) tokens (Expr.Parsed 9 tokens)

/-- The target of an assignment has been read as an expression, whose last token is a name. -/
theorem yields_assignTo {target value : Expr} {before tokens mid rest : List Token} {t : Token}
    (h : target.Parsed 1 tokens (t :: mid)) (equal : t.kind = .symbol .equal)
    (h' : value.Parsed 0 mid rest) :
    Yields (assignTo target value before) rest (Expr.Parsed 0 tokens) := by
  have takes : (Slot.symbol .equal).Takes t := Slot.takes_of_kind equal
  unfold assignTo
  split
  · rename_i id name
    obtain ⟨t', _, rfl, named, rfl⟩ := h.spells
    refine yields_freshId fun _ => yields_pure ⟨h'.grammatical, Nat.zero_le _, ?_⟩
    exact ⟨t', _, rfl, named, t, mid, rfl, takes, h'.spells⟩
  · rename_i object name
    refine yields_pure ⟨⟨h.grammatical, h'.grammatical⟩, Nat.zero_le _, ?_⟩
    obtain ⟨_, spells, dot, _, rfl, isDot, named, _, rfl, isName, rfl⟩ :=
      Spells.append.mp h.spells
    exact Spells.append.mpr ⟨_, spells, dot, _, rfl, isDot, named, _, rfl, isName, t, mid, rfl,
      takes, h'.spells⟩
  · exact yields_failAt

section
variable {n : Nat} (ih : YieldsExpressions n)
include ih

theorem yields_expression (tokens : List Token) :
    Yields (expression (n + 1)) tokens (Expr.Parsed 0 tokens) := by
  refine yields_bind (ih.operators .or tokens) fun target mid h => ?_
  refine yields_position fun _ => yields_symbol? (fun t ts e equal => ?_) ?_
  · subst e
    exact yields_bind (ih.expression ts) fun value rest h' => yields_assignTo h equal h'
  · exact yields_pure (h.mono (Nat.zero_le _))

theorem yields_operatorsFrom (level : Level) {left : Expr} {tokens mid : List Token}
    (h : left.Parsed level.rank tokens mid) :
    Yields (operatorsFrom (n + 1) level left) mid (Expr.Parsed level.rank tokens) := by
  refine yields_accept? (fun t ts op e isOp => ?_) fun _ => yields_pure h
  subst e
  obtain ⟨kind, rfl⟩ := Level.eq_of_connective? isOp
  refine yields_bind (ih.operand _ ts) fun right rest h' => ?_
  refine ih.operatorsFrom _ _ tokens rest ⟨?_, Nat.le_of_eq (op.rank_node ..).symm, ?_⟩
  · exact Connective.grammatical_node ⟨h.tight, h.grammatical⟩ ⟨h'.tight, h'.grammatical⟩
  · rw [Connective.slots_node]
    exact Spells.append.mpr ⟨_, h.spells, t, ts, rfl, Slot.takes_kept kind, h'.spells⟩

theorem yields_operand (level : Level) (tokens : List Token) :
    Yields (operand (n + 1) level) tokens (Expr.Parsed (level.rank + 1) tokens) := by
  unfold operand
  split
  · rename_i tighter e
    rw [← Level.rank_tighter e]
    exact ih.operators tighter tokens
  · rename_i e
    rw [Level.rank_of_tighter?_eq_none e]
    exact ih.unary tokens

theorem yields_unary (tokens : List Token) :
    Yields (unary (n + 1)) tokens (Expr.Parsed 7 tokens) := by
  refine yields_accept? (fun t ts op e isOp => ?_) fun _ => ?_
  · subst e
    refine yields_bind (ih.unary ts) fun right rest h => yields_pure ?_
    exact ⟨⟨h.tight, h.grammatical⟩, Nat.le_refl 7, t, ts, rfl,
      Slot.takes_kept (UnaryOp.eq_of_ofKind? isOp), h.spells⟩
  · exact yields_mono (ih.call tokens) fun _ _ h => h.mono (Nat.le_succ 7)

theorem yields_callFrom {e : Expr} {tokens mid : List Token} (h : e.Parsed 8 tokens mid) :
    Yields (callFrom (n + 1) e) mid (Expr.Parsed 8 tokens) := by
  refine yields_symbol? (fun t ts eq opens => ?_) ?_
  · subst eq
    have opening : (Slot.symbol .leftParen).Takes t := Slot.takes_of_kind opens
    refine yields_symbol? (fun t₁ ts₁ eq closes => ?_) ?_
    · subst eq
      refine ih.callFrom _ tokens ts₁ ⟨⟨⟨h.tight, h.grammatical⟩, Nat.zero_le _, trivial⟩,
        Nat.le_refl 8, ?_⟩
      exact Spells.append.mpr ⟨_, h.spells, t, _, rfl, opening, t₁, ts₁, rfl,
        Slot.takes_kept closes, rfl⟩
    · refine yields_bind (ih.arguments 0 ts) fun arguments mid ⟨h', _, few⟩ => ?_
      refine yields_expect fun t₁ ts₁ eq closes => ?_
      subst eq
      rw [Nat.zero_add] at few
      refine ih.callFrom _ tokens ts₁ ⟨⟨⟨h.tight, h.grammatical⟩, few, h'.grammatical⟩,
        Nat.le_refl 8, ?_⟩
      exact Spells.append.mpr ⟨_, h.spells, t, ts, rfl, opening, Spells.append.mpr
        ⟨_, h'.spells, t₁, ts₁, rfl, Slot.takes_kept closes, rfl⟩⟩
  · refine yields_symbol? (fun t ts eq dot => ?_) (yields_pure h)
    subst eq
    refine yields_name fun property t₁ ts₁ eq named => ?_
    subst eq
    refine ih.callFrom _ tokens ts₁ ⟨⟨h.tight, h.grammatical⟩, Nat.le_refl 8, ?_⟩
    exact Spells.append.mpr ⟨_, h.spells, t, _, rfl, Slot.takes_of_kind dot, t₁, ts₁, rfl, named,
      rfl⟩

theorem yields_arguments (count : Nat) (tokens : List Token) :
    Yields (arguments (n + 1) count) tokens fun es rest =>
      Expr.ParsedList tokens es rest ∧ es ≠ [] ∧ count + es.length ≤ Listing.limit := by
  unfold arguments
  split
  · exact yields_fail
  · rename_i few
    refine yields_bind (ih.expression tokens) fun e mid h => ?_
    refine yields_symbol? (fun t ts eq comma => ?_) ?_
    · subst eq
      refine yields_bind (ih.arguments (count + 1) ts) fun es rest h' => ?_
      obtain ⟨h', more, few'⟩ := h'
      refine yields_pure ⟨⟨⟨h.grammatical, h'.grammatical⟩, ?_⟩, List.cons_ne_nil _ _, ?_⟩
      · rw [Expr.slotsList, Expr.slotsRest_eq es more]
        exact Spells.append.mpr ⟨_, h.spells, t, ts, rfl, Slot.takes_of_kind comma, h'.spells⟩
      · rw [List.length_cons]
        omega
    · refine yields_pure ⟨⟨⟨h.grammatical, trivial⟩, ?_⟩, List.cons_ne_nil _ _, ?_⟩
      · rw [Expr.slotsList, Expr.slotsRest, List.append_nil]
        exact h.spells
      · rw [List.length_singleton]
        omega

theorem yields_primary (tokens : List Token) :
    Yields (primary (n + 1)) tokens (Expr.Parsed 9 tokens) := by
  refine yields_accept? (fun t ts atom e isAtom => ?_) fun _ => yields_fail
  subst e
  have kind := Atom.eq_of_ofKind? isAtom
  cases atom with
  | literal value =>
    exact yields_pure ⟨trivial, Nat.le_refl 9, t, ts, rfl, Slot.takes_of_kind kind, rfl⟩
  | this | «variable» =>
    refine yields_freshId fun _ => yields_pure ⟨trivial, Nat.le_refl 9, ?_⟩
    exact ⟨t, ts, rfl, Slot.takes_kept kind, rfl⟩
  | super =>
    refine yields_expect fun t₁ ts₁ e dot => ?_
    subst e
    refine yields_name fun method t₂ ts₂ e named => ?_
    subst e
    refine yields_freshId fun _ => yields_pure ⟨trivial, Nat.le_refl 9, ?_⟩
    exact ⟨t, _, rfl, Slot.takes_kept kind, t₁, _, rfl, Slot.takes_of_kind dot, t₂, ts₂, rfl,
      named, rfl⟩
  | group =>
    refine yields_bind (ih.expression ts) fun inner mid h => ?_
    refine yields_expect fun t₁ ts₁ e closes => yields_pure ?_
    subst e
    exact ⟨h.grammatical, Nat.le_refl 9, t, ts, rfl, Slot.takes_of_kind kind,
      Spells.append.mpr ⟨_, h.spells, t₁, ts₁, rfl, Slot.takes_of_kind closes, rfl⟩⟩

end

theorem yieldsExpressions (n : Nat) : YieldsExpressions n := by
  induction n with
  | zero => constructor <;> intros <;> exact yields_fail
  | succ n ih =>
    exact {
      expression := yields_expression ih
      operators := fun level tokens => yields_bind (ih.operand level tokens) fun left mid h =>
        ih.operatorsFrom level left tokens mid (h.mono (Nat.le_succ _))
      operatorsFrom := fun level _ _ _ h => yields_operatorsFrom ih level h
      operand := yields_operand ih
      unary := yields_unary ih
      call := fun tokens => yields_bind (ih.primary tokens) fun e mid h =>
        ih.callFrom e tokens mid (h.mono (Nat.le_succ 8))
      callFrom := fun _ _ _ h => yields_callFrom ih h
      arguments := yields_arguments ih
      primary := yields_primary ih }

end Rule

end Lox
