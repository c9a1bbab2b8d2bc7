import Lox.Proofs.Syntax.Completeness.Steps

/-!
# Every expression of the grammar is read

Each rule reads an expression that is in its place back from tokens that spell it, up to the
numbers of the nodes (`ReadsExpressions`). A loop that joins operands, or that adds calls and
properties, is met by going down the left side of the tree: reading the tree comes to going on
after it (`operators_spine`, `call_spine`). The depth must suffice for the number of tokens, a
little more of it for a looser rule.
-/

namespace Lox

/-! ## Operators and their levels -/

namespace Level

theorem rank_injective {a b : Level} (h : a.rank = b.rank) : a = b := by
  cases a <;> cases b <;> first | rfl | cases h

theorem rank_pos (level : Level) : 1 ≤ level.rank := by
  cases level <;> decide

theorem rank_le (level : Level) : level.rank ≤ 6 := by
  cases level <;> decide

/-- A tighter level binds one more tightly. -/
theorem rank_tighter {level tighter : Level} (h : level.tighter? = some tighter) :
    tighter.rank = level.rank + 1 := by
  cases level <;> cases h <;> rfl

theorem rank_of_tighter?_eq_none {level : Level} (h : level.tighter? = none) :
    level.rank = 6 := by
  cases level <;> first | rfl | cases h

/-- A token that stands for an operator of the level binds as tightly as the level. -/
theorem binds?_of_connective? {level : Level} {kind : TokenKind} {op : Connective}
    (h : level.connective? kind = some op) : kind.binds? = some level.rank := by
  unfold connective? at h
  split at h <;> first | rfl | cases h

end Level

namespace Connective

/-- The kind of the token that the operator is written as. -/
def kind : Connective → TokenKind
  | binary op => .symbol op.symbol
  | logical op => .keyword op.keyword

/-- The level of the operator. -/
def level : Connective → Level
  | binary op => op.level
  | logical op => op.level

theorem connective?_kind (op : Connective) : op.level.connective? op.kind = some op := by
  cases op with
  | binary op => cases op <;> rfl
  | logical op => cases op <;> rfl

theorem kind_ne_eof (op : Connective) : op.kind ≠ .eof := by
  cases op <;> exact nofun

theorem slots_node (op : Connective) (mark : Lexeme) (left right : Expr) :
    (op.node mark left right).slots = left.slots ++ ⟨op.kind, some mark⟩ :: right.slots := by
  cases op <;> rfl

theorem unnumbered_node (op : Connective) (mark : Lexeme) (left right : Expr) :
    (op.node mark left right).unnumbered = op.node mark left.unnumbered right.unnumbered := by
  cases op <;> rfl

end Connective

theorem UnaryOp.ofKind?_symbol (op : UnaryOp) : UnaryOp.ofKind? (.symbol op.symbol) = some op := by
  cases op <;> rfl

/-! ## The first token of a tree -/

theorem Literal.ofKind?_kind (value : Literal) :
    Atom.ofKind? value.kind = some (.literal value) := by
  cases value <;> rfl

theorem Literal.kind_ne_eof (value : Literal) : value.kind ≠ .eof := by
  cases value <;> exact nofun

/-- May an expression begin with a token of the kind? -/
def TokenKind.Opens (kind : TokenKind) : Prop :=
  (Atom.ofKind? kind).isSome ∨ (UnaryOp.ofKind? kind).isSome

namespace Expr

/-- An expression begins with a primary expression, or with an operator if it does not hold
together as tightly as a call. -/
theorem first_slot : (e : Expr) → e.Grammatical → ∃ s slots, e.slots = s :: slots ∧
    ((Atom.ofKind? s.kind).isSome ∨ e.rank < 8 ∧ (UnaryOp.ofKind? s.kind).isSome)
  | .assign _ _ _, _ => ⟨_, _, rfl, .inl rfl⟩
  | .binary op mark left right, h => by
    obtain ⟨s, slots, e, hs⟩ := first_slot left h.1.2
    refine ⟨s, _, by rw [Expr.slots, e]; rfl, hs.imp_right fun hs => ⟨?_, hs.2⟩⟩
    exact Nat.lt_of_le_of_lt op.level.rank_le (by decide)
  | .call callee _ _, h => by
    obtain ⟨s, slots, e, hs⟩ := first_slot callee h.1.2
    refine ⟨s, _, by rw [Expr.slots, e]; rfl, .inl (hs.resolve_right fun hs => ?_)⟩
    exact absurd h.1.1 (Nat.not_le_of_lt hs.1)
  | .get object _, h => by
    obtain ⟨s, slots, e, hs⟩ := first_slot object h.2
    refine ⟨s, _, by rw [Expr.slots, e]; rfl, .inl (hs.resolve_right fun hs => ?_)⟩
    exact absurd h.1 (Nat.not_le_of_lt hs.1)
  | .grouping _, _ => ⟨_, _, rfl, .inl rfl⟩
  | .literal value, _ => ⟨_, _, rfl, .inl (by rw [value.ofKind?_kind]; rfl)⟩
  | .logical op mark left right, h => by
    obtain ⟨s, slots, e, hs⟩ := first_slot left h.1.2
    refine ⟨s, _, by rw [Expr.slots, e]; rfl, hs.imp_right fun hs => ⟨?_, hs.2⟩⟩
    exact Nat.lt_of_le_of_lt op.level.rank_le (by decide)
  | .set object _ _, h => by
    obtain ⟨s, slots, e, hs⟩ := first_slot object h.1.2
    refine ⟨s, _, by rw [Expr.slots, e]; rfl, .inl (hs.resolve_right fun hs => ?_)⟩
    exact absurd h.1.1 (Nat.not_le_of_lt hs.1)
  | .super _ _ _, _ => ⟨_, _, rfl, .inl rfl⟩
  | .this _ _, _ => ⟨_, _, rfl, .inl rfl⟩
  | .unary op _ _, _ => ⟨_, _, rfl, .inr ⟨Nat.lt_succ_self 7, by rw [op.ofKind?_symbol]; rfl⟩⟩
  | .variable _ _, _ => ⟨_, _, rfl, .inl rfl⟩

theorem Grammatical.opens {e : Expr} (h : e.Grammatical) {tokens rest : List Token}
    (spells : Spells e.slots tokens rest) :
    ∃ t ts, tokens = t :: ts ∧ t.kind.Opens ∧
      (8 ≤ e.rank → (Atom.ofKind? t.kind).isSome) := by
  obtain ⟨s, slots, eq, hs⟩ := e.first_slot h
  rw [eq] at spells
  obtain ⟨t, ts, rfl, takes, -⟩ := spells
  rw [← takes.kind] at hs
  refine ⟨t, ts, rfl, hs.imp_right And.right, fun le => hs.resolve_right fun hs => ?_⟩
  exact absurd le (Nat.not_le_of_lt hs.1)

theorem GrammaticalList.opens {e : Expr} {es : List Expr} (h : GrammaticalList (e :: es))
    {tokens rest : List Token} (spells : Spells (slotsList (e :: es)) tokens rest) :
    ∃ t ts, tokens = t :: ts ∧ t.kind.Opens := by
  obtain ⟨mid, spells, -⟩ := Spells.append.mp spells
  obtain ⟨t, ts, eq, opens, -⟩ := h.1.opens spells
  exact ⟨t, ts, eq, opens⟩

/-- A tree that holds together as tightly as a level is an operator of the level. -/
theorem Grammatical.eq_node {e : Expr} {level : Level} (h : e.Grammatical)
    (rank : level.rank = e.rank) : ∃ op mark left right, e = Connective.node op mark left right ∧
      op.level = level ∧ (op.level.rank ≤ left.rank ∧ left.Grammatical) ∧
      op.level.rank < right.rank ∧ right.Grammatical := by
  have positive := level.rank_pos
  have bounded := level.rank_le
  cases e with
  | binary op mark left right =>
    exact ⟨.binary op, mark, left, right, rfl, Level.rank_injective rank.symm, h⟩
  | logical op mark left right =>
    exact ⟨.logical op, mark, left, right, rfl, Level.rank_injective rank.symm, h⟩
  | assign | set => exact absurd (rank ▸ positive) (by simp [Expr.rank])
  | unary | call | get | grouping | literal | super | this | «variable» =>
    exact absurd (rank ▸ bounded) (by simp [Expr.rank])

theorem Grammatical.length_pos {e : Expr} (h : e.Grammatical) : 1 ≤ e.slots.length := by
  obtain ⟨s, slots, eq, -⟩ := e.first_slot h
  rw [eq, List.length_cons]
  omega

end Expr

/-- A token that opens an expression is none of the marks that only other constructs have. -/
theorem TokenKind.Opens.ne {kind other : TokenKind} (h : kind.Opens)
    (no : Atom.ofKind? other = none) (no' : UnaryOp.ofKind? other = none) : kind ≠ other := by
  rintro rfl
  rw [TokenKind.Opens, no, no'] at h
  rcases h with h | h <;> cases h

/-- What begins a primary expression is no operator. -/
theorem UnaryOp.ofKind?_eq_none {kind : TokenKind} (h : (Atom.ofKind? kind).isSome) :
    UnaryOp.ofKind? kind = none := by
  unfold UnaryOp.ofKind?
  split
  · cases h
  · cases h
  · rfl

namespace Rule

/-! ## Expressions -/

theorem unnumbered_eq_variable {e : Expr} {id : ExprId} {name : Lexeme}
    (h : e.unnumbered = .variable id name) : ∃ id', e = .variable id' name := by
  cases e <;> cases h
  exact ⟨_, rfl⟩

theorem unnumbered_eq_get {e object : Expr} {name : Lexeme} (h : e.unnumbered = .get object name) :
    ∃ object', e = .get object' name ∧ object'.unnumbered = object := by
  cases e <;> cases h
  exact ⟨_, rfl, rfl⟩

/-- What the rules for expressions read back at the depth `n`. Between two tokens, the looser rules
are left first, so that a tighter rule needs a little less depth for as many tokens. -/
structure ReadsExpressions (n : Nat) : Prop where
  expression : ∀ {e : Expr} {tokens rest : List Token}, e.Grammatical →
    Spells e.slots tokens rest → Ends 0 rest → 24 * e.slots.length ≤ n →
    Reads (expression n) tokens rest (·.unnumbered = e.unnumbered)
  operators : ∀ {level : Level} {e : Expr} {tokens rest : List Token}, e.Grammatical →
    level.rank ≤ e.rank → Spells e.slots tokens rest → Ends level.rank rest →
    24 * e.slots.length + 1 ≤ n + 2 * level.rank →
    Reads (operators n level) tokens rest (·.unnumbered = e.unnumbered)
  operand : ∀ {level : Level} {e : Expr} {tokens rest : List Token}, e.Grammatical →
    level.rank < e.rank → Spells e.slots tokens rest → Ends (level.rank + 1) rest →
    24 * e.slots.length ≤ n + 2 * level.rank →
    Reads (operand n level) tokens rest (·.unnumbered = e.unnumbered)
  unary : ∀ {e : Expr} {tokens rest : List Token}, e.Grammatical → 7 ≤ e.rank →
    Spells e.slots tokens rest → Ends 7 rest → 24 * e.slots.length ≤ n + 13 →
    Reads (unary n) tokens rest (·.unnumbered = e.unnumbered)
  call : ∀ {e : Expr} {tokens rest : List Token}, e.Grammatical → 8 ≤ e.rank →
    Spells e.slots tokens rest → Ends 8 rest → 24 * e.slots.length ≤ n + 14 →
    Reads (call n) tokens rest (·.unnumbered = e.unnumbered)
  arguments : ∀ {count : Nat} {e : Expr} {es : List Expr} {tokens ts : List Token} {t : Token},
    Expr.GrammaticalList (e :: es) → count + (e :: es).length ≤ Listing.limit →
    Spells (Expr.slotsList (e :: es)) tokens (t :: ts) → t.kind = .symbol .rightParen →
    24 * (Expr.slotsList (e :: es)).length + 1 ≤ n →
    Reads (arguments n count) tokens (t :: ts)
      (Expr.unnumberedList · = Expr.unnumberedList (e :: es))
  primary : ∀ {e : Expr} {tokens rest : List Token}, e.Grammatical → 9 ≤ e.rank →
    Spells e.slots tokens rest → 24 * e.slots.length ≤ n + 15 →
    Reads (primary n) tokens rest (·.unnumbered = e.unnumbered)

section
variable {n : Nat} (ih : ∀ m < n, ReadsExpressions m) {tokens rest : List Token}
include ih

theorem reads_primary {e : Expr} (h : e.Grammatical) (rank : 9 ≤ e.rank)
    (spells : Spells e.slots tokens rest) (fits : 24 * e.slots.length ≤ n + 15) :
    Reads (primary n) tokens rest (·.unnumbered = e.unnumbered) := by
  have := h.length_pos
  obtain ⟨n, rfl⟩ : ∃ m, n = m + 1 := ⟨n - 1, by omega⟩
  cases e with
  | literal value =>
    obtain ⟨t, ts, rfl, takes, rfl⟩ := spells
    exact take_accept? takes.kind value.kind_ne_eof value.ofKind?_kind (leads_self rfl)
  | this id keyword =>
    obtain ⟨t, ts, rfl, takes, rfl⟩ := spells
    refine take_accept? takes.kind nofun rfl ?_
    refine take_freshId fun _ => leads_self ?_
    rw [Expr.unnumbered, Expr.unnumbered, takes.kept keyword rfl]
  | «variable» id name =>
    obtain ⟨t, ts, rfl, takes, rfl⟩ := spells
    refine take_accept? takes.kind nofun rfl ?_
    refine take_freshId fun _ => leads_self ?_
    rw [Expr.unnumbered, Expr.unnumbered, takes.kept name rfl]
  | super id keyword method =>
    obtain ⟨t, _, rfl, takes, t₁, _, rfl, takes₁, t₂, ts, rfl, takes₂, rfl⟩ := spells
    refine take_accept? takes.kind nofun rfl ?_
    refine take_expect takes₁.kind ?_
    refine take_name takes₂ ?_
    refine take_freshId fun _ => leads_self ?_
    rw [Expr.unnumbered, Expr.unnumbered, takes.kept keyword rfl]
  | grouping inner =>
    obtain ⟨t, ts, rfl, takes, spells⟩ := spells
    obtain ⟨_, spellsInner, t₁, _, rfl, takes₁, rfl⟩ := Spells.append.mp spells
    simp only [Expr.slots, List.length_cons, List.length_append, List.length_nil] at fits
    refine take_accept? takes.kind nofun rfl ?_
    refine take ((ih n n.lt_succ_self).expression (e := inner) h spellsInner
      (ends_cons_of_none takes₁.kind rfl) (by omega)) fun inner' same => ?_
    refine take_expect takes₁.kind (leads_self ?_)
    rw [Expr.unnumbered, Expr.unnumbered, same]
  | binary op | logical op => exact absurd (Nat.le_trans rank op.level.rank_le) (by decide)
  | assign | set | unary | call | get => exact absurd rank (by simp [Expr.rank])

theorem reads_arguments {count : Nat} {e : Expr} {es : List Expr} {ts : List Token} {t : Token}
    (h : Expr.GrammaticalList (e :: es)) (few : count + (e :: es).length ≤ Listing.limit)
    (spells : Spells (Expr.slotsList (e :: es)) tokens (t :: ts))
    (closes : t.kind = .symbol .rightParen)
    (fits : 24 * (Expr.slotsList (e :: es)).length + 1 ≤ n) :
    Reads (arguments n count) tokens (t :: ts)
      (Expr.unnumberedList · = Expr.unnumberedList (e :: es)) := by
  obtain ⟨n, rfl⟩ : ∃ m, n = m + 1 := ⟨n - 1, by omega⟩
  obtain ⟨mid, spellsFirst, spellsRest⟩ := Spells.append.mp spells
  simp only [Expr.slotsList, List.length_append, List.length_cons] at fits few
  unfold arguments
  rw [if_neg (by omega)]
  have first {mid : List Token} (spells : Spells e.slots tokens mid) (ends : Ends 0 mid) :=
    (ih n n.lt_succ_self).expression h.1 spells ends (by omega)
  cases es with
  | nil =>
    obtain rfl : mid = t :: ts := spellsRest
    refine take (first spellsFirst (ends_cons_of_none closes rfl))
      fun e' same => ?_
    refine skip_symbol? (avoids_cons closes nofun) ?_
    exact leads_self (by simp only [Expr.unnumberedList, same])
  | cons e₁ es =>
    obtain ⟨t₁, ts₁, rfl, takes, spellsRest⟩ := spellsRest
    refine take (first spellsFirst (ends_cons_of_none takes.kind rfl))
      fun e' same => ?_
    refine take_symbol? takes.kind ?_
    simp only [Expr.slotsRest, List.length_append, List.length_cons] at fits few
    refine take ((ih n n.lt_succ_self).arguments h.2 ?_ spellsRest closes ?_)
      fun es' sames => ?_
    · simp only [List.length_cons]
      omega
    · simp only [Expr.slotsList, List.length_append]
      omega
    · exact leads_self (by simp only [Expr.unnumberedList, same, sames] at sames ⊢)

theorem call_spine_of_primary {e : Expr} (h : e.Grammatical) (rank : 9 ≤ e.rank)
    (spells : Spells e.slots tokens rest) (fits : 24 * e.slots.length ≤ n + 14) :
    ∃ m, m < n ∧ n ≤ m + e.slots.length ∧
      Leads (call n) tokens rest (callFrom m) (·.unnumbered = e.unnumbered) := by
  have := h.length_pos
  obtain ⟨n, rfl⟩ : ∃ m, n = m + 1 := ⟨n - 1, by omega⟩
  exact ⟨n, n.lt_succ_self, by omega,
    leads_bind ((ih n n.lt_succ_self).primary h rank spells (by omega))⟩

/-- Reading a tree that holds together like a call comes to going on after it with calls and
properties. -/
theorem call_spine : (e : Expr) → {tokens rest : List Token} → e.Grammatical → 8 ≤ e.rank →
    Spells e.slots tokens rest → 24 * e.slots.length ≤ n + 14 →
    ∃ m, m < n ∧ n ≤ m + e.slots.length ∧
      Leads (call n) tokens rest (callFrom m) (·.unnumbered = e.unnumbered)
  | .call callee paren arguments, tokens, rest, h, _, spells, fits => by
    obtain ⟨_, spellsCallee, t, ts, rfl, opens, spellsRest⟩ := Spells.append.mp spells
    simp only [Expr.slots, List.length_cons, List.length_append, List.length_nil] at fits ⊢
    obtain ⟨m, lt, le, leads⟩ := call_spine callee h.1.2 h.1.1 spellsCallee (by omega)
    obtain ⟨m, rfl⟩ : ∃ k, m = k + 1 := ⟨m - 1, by omega⟩
    refine ⟨m, by omega, by omega, leads.trans fun callee' same => ?_⟩
    refine take_symbol? opens.kind ?_
    cases arguments with
    | nil =>
      obtain ⟨t, ts, rfl, closes, rfl⟩ := spellsRest
      refine take_symbol? closes.kind ?_
      refine leads_self ?_
      simp only [Expr.unnumbered, Expr.unnumberedList, same, closes.kept paren rfl]
    | cons e es =>
      obtain ⟨_, spellsArguments, t, _, rfl, closes, rfl⟩ := Spells.append.mp spellsRest
      obtain ⟨t₁, _, rfl, opens₁⟩ := h.2.2.opens spellsArguments
      refine skip_symbol? (avoids_cons rfl (opens₁.ne rfl rfl)) ?_
      have counted : 0 + (e :: es).length ≤ Listing.limit := by
        rw [Nat.zero_add]
        exact h.2.1
      refine take ((ih m (by omega)).arguments h.2.2 counted spellsArguments closes.kind
        (by omega)) fun arguments' sames => ?_
      refine take_expect closes.kind ?_
      refine leads_self ?_
      simp only [Expr.unnumbered, same, sames, closes.kept paren rfl]
  | .get object name, tokens, rest, h, _, spells, fits => by
    obtain ⟨_, spellsObject, t, _, rfl, dot, t₁, ts, rfl, takes, rfl⟩ := Spells.append.mp spells
    simp only [Expr.slots, List.length_cons, List.length_append, List.length_nil] at fits ⊢
    obtain ⟨m, lt, le, leads⟩ := call_spine object h.2 h.1 spellsObject (by omega)
    obtain ⟨m, rfl⟩ : ∃ k, m = k + 1 := ⟨m - 1, by omega⟩
    refine ⟨m, by omega, by omega, leads.trans fun object' same => ?_⟩
    refine skip_symbol? (avoids_cons dot.kind nofun) ?_
    refine take_symbol? dot.kind ?_
    refine take_name takes ?_
    refine leads_self ?_
    simp only [Expr.unnumbered, same]
  | .grouping _, _, _, h, _, spells, fits | .literal _, _, _, h, _, spells, fits
  | .super .., _, _, h, _, spells, fits | .this .., _, _, h, _, spells, fits
  | .variable .., _, _, h, _, spells, fits =>
    call_spine_of_primary ih h (Nat.le_refl 9) spells fits
  | .binary op _ _ _, _, _, _, rank, _, _ | .logical op _ _ _, _, _, _, rank, _, _ =>
    absurd (Nat.le_trans rank op.level.rank_le) (by decide)
  | .assign .., _, _, _, rank, _, _ | .set .., _, _, _, rank, _, _
  | .unary .., _, _, _, rank, _, _ => absurd rank (by simp [Expr.rank])

theorem reads_call {e : Expr} (h : e.Grammatical) (rank : 8 ≤ e.rank)
    (spells : Spells e.slots tokens rest) (ends : Ends 8 rest)
    (fits : 24 * e.slots.length ≤ n + 14) :
    Reads (call n) tokens rest (·.unnumbered = e.unnumbered) := by
  obtain ⟨m, -, le, leads⟩ := call_spine ih e h rank spells fits
  obtain ⟨m, rfl⟩ : ∃ k, m = k + 1 := ⟨m - 1, by have := h.length_pos; omega⟩
  refine leads.trans fun e' same => ?_
  refine skip_symbol? (ends.avoids rfl (Nat.le_refl 8)) ?_
  refine skip_symbol? (ends.avoids rfl (Nat.le_refl 8)) ?_
  exact leads_self same

theorem reads_unary {e : Expr} (h : e.Grammatical) (rank : 7 ≤ e.rank)
    (spells : Spells e.slots tokens rest) (ends : Ends 7 rest)
    (fits : 24 * e.slots.length ≤ n + 13) :
    Reads (unary n) tokens rest (·.unnumbered = e.unnumbered) := by
  have := h.length_pos
  obtain ⟨n, rfl⟩ : ∃ m, n = m + 1 := ⟨n - 1, by omega⟩
  have ih := ih n n.lt_succ_self
  rcases Nat.lt_or_ge e.rank 8 with loose | tight
  · cases e with
    | unary op mark right =>
      obtain ⟨t, ts, rfl, takes, spells⟩ := spells
      simp only [Expr.slots, List.length_cons] at fits
      refine take_accept? takes.kind nofun op.ofKind?_symbol ?_
      refine take (ih.unary h.2 h.1 spells ends (by omega)) fun right' same => leads_self ?_
      simp only [Expr.unnumbered, same, takes.kept mark rfl]
    | binary op | logical op => exact absurd (Nat.le_trans rank op.level.rank_le) (by decide)
    | assign | set => exact absurd rank (by simp [Expr.rank])
    | call | get | grouping | literal | super | this | «variable» =>
      exact absurd loose (by simp [Expr.rank])
  · obtain ⟨t, ts, rfl, -, atom⟩ := h.opens spells
    have noOperator : ∀ t' ∈ (t :: ts).head?, UnaryOp.ofKind? t'.kind = none := by
      rintro _ ⟨⟩
      exact UnaryOp.ofKind?_eq_none (atom tight)
    refine skip_accept? noOperator ?_
    exact ih.call h tight spells (ends.mono (Nat.le_succ 7)) (by omega)

theorem reads_operand {level : Level} {e : Expr} (h : e.Grammatical) (rank : level.rank < e.rank)
    (spells : Spells e.slots tokens rest) (ends : Ends (level.rank + 1) rest)
    (fits : 24 * e.slots.length ≤ n + 2 * level.rank) :
    Reads (operand n level) tokens rest (·.unnumbered = e.unnumbered) := by
  have := h.length_pos
  have := level.rank_le
  obtain ⟨n, rfl⟩ : ∃ m, n = m + 1 := ⟨n - 1, by omega⟩
  have ih := ih n n.lt_succ_self
  unfold operand
  cases tighter : level.tighter? with
  | some tighter' =>
    have e := Level.rank_tighter tighter
    exact ih.operators h (by omega) spells (e ▸ ends) (by omega)
  | none =>
    have e := Level.rank_of_tighter?_eq_none tighter
    exact ih.unary h (by omega) spells (ends.mono (by omega)) (by omega)

/-- Reading a tree that holds together as tightly as a level comes to going on after it with
operators of the level. The induction is on the length of the tree, which goes down to the left. -/
theorem operators_spine {level : Level} {e : Expr} (h : e.Grammatical)
    (rank : level.rank ≤ e.rank) (spells : Spells e.slots tokens rest)
    (ends : Ends (level.rank + 1) rest) (fits : 24 * e.slots.length + 1 ≤ n + 2 * level.rank) :
    ∃ m, m < n ∧ n ≤ m + e.slots.length ∧
      Leads (operators n level) tokens rest (operatorsFrom m level)
        (·.unnumbered = e.unnumbered) := by
  induction len : e.slots.length using Nat.strongRecOn generalizing e rest with
  | ind len ihLeft =>
    subst len
    have := h.length_pos
    have := level.rank_le
    rcases Nat.lt_or_eq_of_le rank with tighter | same
    · obtain ⟨n, rfl⟩ : ∃ m, n = m + 1 := ⟨n - 1, by omega⟩
      exact ⟨n, n.lt_succ_self, by omega,
        leads_bind ((ih n n.lt_succ_self).operand h tighter spells ends (by omega))⟩
    · obtain ⟨op, mark, left, right, rfl, rfl, hleft, hright⟩ := h.eq_node same
      rw [Connective.slots_node] at spells fits ⊢
      rw [List.length_append, List.length_cons] at fits ⊢
      obtain ⟨_, spellsLeft, t, ts, rfl, takes, spellsRight⟩ := Spells.append.mp spells
      have endsLeft : Ends (op.level.rank + 1) (t :: ts) :=
        ends_cons takes.kind (Level.binds?_of_connective? op.connective?_kind)
          (Nat.lt_succ_self _)
      obtain ⟨m, lt, le, leads⟩ := ihLeft left.slots.length
        (by rw [Connective.slots_node, List.length_append, List.length_cons]; omega)
        hleft.2 hleft.1 spellsLeft endsLeft (by omega) rfl
      obtain ⟨m, rfl⟩ : ∃ k, m = k + 1 := ⟨m - 1, by omega⟩
      refine ⟨m, by omega, by omega, leads.trans fun left' sameLeft => ?_⟩
      refine take_accept? takes.kind op.kind_ne_eof op.connective?_kind ?_
      refine take ((ih m (by omega)).operand hright.2 hright.1 spellsRight ends (by omega))
        fun right' sameRight => ?_
      refine leads_self ?_
      simp only [Connective.unnumbered_node, sameLeft, sameRight, takes.kept mark rfl]

theorem reads_operators {level : Level} {e : Expr} (h : e.Grammatical)
    (rank : level.rank ≤ e.rank) (spells : Spells e.slots tokens rest)
    (ends : Ends level.rank rest) (fits : 24 * e.slots.length + 1 ≤ n + 2 * level.rank) :
    Reads (operators n level) tokens rest (·.unnumbered = e.unnumbered) := by
  have := h.length_pos
  have := level.rank_le
  obtain ⟨m, -, le, leads⟩ :=
    operators_spine ih h rank spells (ends.mono (Nat.le_succ _)) fits
  obtain ⟨m, rfl⟩ : ∃ k, m = k + 1 := ⟨m - 1, by omega⟩
  refine leads.trans fun e' same => ?_
  have noOperator : ∀ t ∈ rest.head?, level.connective? t.kind = none := by
    intro t ht
    cases found : level.connective? t.kind with
    | none => rfl
    | some op =>
      exact absurd (ends t ht _ (Level.binds?_of_connective? found)) (Nat.lt_irrefl _)
  refine skip_accept? noOperator ?_
  exact leads_self same

/-- A target, an equals sign and a value are read as the assignment that they build. -/
theorem reads_assignment (target value : Expr) {e : Expr} (h : target.Grammatical)
    (rank : 1 ≤ target.rank) (h' : value.Grammatical)
    (spells : Spells (target.slots ++ .symbol .equal :: value.slots) tokens rest)
    (ends : Ends 0 rest) (fits : 24 * (target.slots.length + (value.slots.length + 1)) ≤ n)
    (builds : ∀ target' value' at', target'.unnumbered = target.unnumbered →
      value'.unnumbered = value.unnumbered →
      Reads (assignTo target' value' at') rest rest (·.unnumbered = e.unnumbered)) :
    Reads (expression n) tokens rest (·.unnumbered = e.unnumbered) := by
  obtain ⟨n, rfl⟩ : ∃ m, n = m + 1 := ⟨n - 1, by omega⟩
  have ih := ih n n.lt_succ_self
  obtain ⟨_, spellsTarget, t, ts, rfl, equal, spellsValue⟩ := Spells.append.mp spells
  have ends' : Ends Level.or.rank (t :: ts) := ends_cons equal.kind rfl Nat.zero_lt_one
  refine take (ih.operators h rank spellsTarget ends' (by omega)) fun target' same => ?_
  refine take_position ?_
  refine take_symbol? equal.kind ?_
  refine take (ih.expression h' spellsValue ends (by omega)) fun value' same' => ?_
  exact builds target' value' _ same same'

theorem reads_expression {e : Expr} (h : e.Grammatical) (spells : Spells e.slots tokens rest)
    (ends : Ends 0 rest) (fits : 24 * e.slots.length ≤ n) :
    Reads (expression n) tokens rest (·.unnumbered = e.unnumbered) := by
  rcases Nat.eq_zero_or_pos e.rank with assigns | operates
  · cases e with
    | assign id name value =>
      have fits' : 24 * ((Expr.variable id name).slots.length + (value.slots.length + 1)) ≤ n := by
        simp only [Expr.slots, List.length_cons, List.length_nil] at fits ⊢
        omega
      refine reads_assignment ih (.variable id name) value trivial (by simp [Expr.rank]) h spells
        ends fits' fun target' value' _ same same' => ?_
      obtain ⟨id', rfl⟩ := unnumbered_eq_variable same
      refine take_freshId fun _ => leads_self ?_
      simp only [Expr.unnumbered, same']
    | set object name value =>
      have asTarget : (Expr.set object name value).slots =
          (Expr.get object name).slots ++ .symbol .equal :: value.slots := by
        simp only [Expr.slots, List.append_assoc, List.cons_append, List.nil_append]
      rw [asTarget] at spells fits
      rw [List.length_append, List.length_cons] at fits
      refine reads_assignment ih (.get object name) value h.1 (by simp [Expr.rank]) h.2 spells
        ends fits fun target' value' _ same same' => ?_
      obtain ⟨object', rfl, sameObject⟩ := unnumbered_eq_get same
      refine leads_self ?_
      simp only [Expr.unnumbered, sameObject, same']
    | binary op | logical op =>
      have positive := op.level.rank_pos
      exact absurd assigns (Nat.ne_of_gt positive)
    | unary | call | get | grouping | literal | super | this | «variable» => cases assigns
  · have := h.length_pos
    obtain ⟨n, rfl⟩ : ∃ m, n = m + 1 := ⟨n - 1, by omega⟩
    refine take ((ih n n.lt_succ_self).operators h operates spells
      (ends.mono (Nat.zero_le _)) (by simp only [Level.rank]; omega)) fun e' same => ?_
    refine take_position ?_
    refine skip_symbol? (ends.avoids rfl (Nat.le_refl 0)) ?_
    exact leads_self same

end

theorem readsExpressions (n : Nat) : ReadsExpressions n := by
  induction n using Nat.strongRecOn with
  | ind n ih =>
    exact {
      expression := reads_expression ih
      operators := reads_operators ih
      operand := reads_operand ih
      unary := reads_unary ih
      call := reads_call ih
      arguments := reads_arguments ih
      primary := reads_primary ih }

end Rule

end Lox
