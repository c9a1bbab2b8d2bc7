import Lox.Syntax.Program
import Lox.Proofs.Sequencing
import Lox.Proofs.Syntax.Shapes

/-!
# Reading known tokens

What the steps of a rule do when the next token is known, each stated for a rule that goes on after
the step (`take_symbol?`, `skip_symbol?`, …). A rule reads something (`Reads`) if it ends with it;
more generally it comes to a point from which it goes on like another rule (`Leads`). What stands
after a tree must not go on with the tree (`Ends`).
-/

namespace Lox

/-! ## What follows a tree -/

/-- How tightly a token after an expression goes on with it, if it does. -/
def TokenKind.binds? : TokenKind → Option Nat
  | .symbol .equal => some 0
  | .keyword .or => some 1
  | .keyword .and => some 2
  | .symbol .bangEqual | .symbol .equalEqual => some 3
  | .symbol .greater | .symbol .greaterEqual | .symbol .less | .symbol .lessEqual => some 4
  | .symbol .minus | .symbol .plus => some 5
  | .symbol .slash | .symbol .star => some 6
  | .symbol .leftParen | .symbol .dot => some 8
  | _ => none

/-- The first token is not of the kind. -/
def Avoids (kind : TokenKind) (tokens : List Token) : Prop :=
  ∀ t ∈ tokens.head?, t.kind ≠ kind

/-- No construct that binds as tightly as `rank`, or more so, goes on with the tokens. -/
def Ends (rank : Nat) (tokens : List Token) : Prop :=
  ∀ t ∈ tokens.head?, ∀ k ∈ t.kind.binds?, k < rank

variable {t : Token} {ts : List Token}

theorem avoids_cons {kind kind' : TokenKind} (e : t.kind = kind') (h : kind' ≠ kind) :
    Avoids kind (t :: ts) := by
  rintro _ ⟨⟩
  exact e ▸ h

theorem ends_cons {rank k : Nat} {kind : TokenKind} (e : t.kind = kind) (h : kind.binds? = some k)
    (lt : k < rank) : Ends rank (t :: ts) := by
  rintro _ ⟨⟩ k' hk'
  rw [e, h] at hk'
  cases hk'
  exact lt

/-- A token that never goes on with an expression ends it. -/
theorem ends_cons_of_none {rank : Nat} {kind : TokenKind} (e : t.kind = kind)
    (h : kind.binds? = none) : Ends rank (t :: ts) := by
  rintro _ ⟨⟩ k' hk'
  rw [e, h] at hk'
  cases hk'

theorem Ends.mono {rank rank' : Nat} {tokens : List Token} (h : Ends rank tokens)
    (le : rank ≤ rank') : Ends rank' tokens :=
  fun t ht k hk => Nat.lt_of_lt_of_le (h t ht k hk) le

theorem Ends.avoids {rank k : Nat} {kind : TokenKind} {tokens : List Token} (h : Ends rank tokens)
    (hk : kind.binds? = some k) (le : rank ≤ k) : Avoids kind tokens := by
  intro t ht e
  have := h t ht k (e ▸ hk)
  omega

theorem Cursor.atEnd_eq_false {kind : TokenKind} {id : ExprId} (e : t.kind = kind)
    (h : kind ≠ .eof) : Cursor.atEnd ⟨t :: ts, id⟩ = false := by
  subst e
  simp only [Cursor.atEnd, Cursor.token, List.headD_cons]

theorem Cursor.atEnd_eq_true {id : ExprId} (e : t.kind = .eof) :
    Cursor.atEnd ⟨t :: ts, id⟩ = true := by
  simp only [Cursor.atEnd, Cursor.token, List.headD_cons, e]

namespace Rule

variable {α β γ : Type}

/-! ## Reading step by step -/

/-- From the tokens `tokens` the rule comes to going on with `k a` at `rest`, for some `a` of which
`P` holds. -/
def Leads (r : Rule α) (tokens rest : List Token) (k : β → Rule α) (P : β → Prop) : Prop :=
  ∀ id, ∃ a id', P a ∧ r ⟨tokens, id⟩ = k a ⟨rest, id'⟩

/-- From the tokens `tokens` the rule reads something of which `P` holds, and leaves `rest`. -/
abbrev Reads (r : Rule α) (tokens rest : List Token) (P : α → Prop) : Prop :=
  Leads r tokens rest pure P

variable {tokens mid rest : List Token} {k : γ → Rule β} {P : α → Prop} {Q : γ → Prop}

theorem leads_self {k : β → Rule α} {b : β} {P : β → Prop} (h : P b) : Leads (k b) rest rest k P :=
  fun id => ⟨b, id, h, rfl⟩

theorem Leads.trans {r : Rule β} {k' : α → Rule β} (h : Leads r tokens mid k' P)
    (h' : ∀ a, P a → Leads (k' a) mid rest k Q) : Leads r tokens rest k Q := by
  intro id
  obtain ⟨a, id', ha, e⟩ := h id
  obtain ⟨b, id'', hb, e'⟩ := h' a ha id'
  exact ⟨b, id'', hb, e.trans e'⟩

theorem leads_bind {r : Rule α} {f : α → Rule β} (h : Reads r tokens rest P) :
    Leads (r >>= f) tokens rest f P := by
  intro id
  obtain ⟨a, id', ha, e⟩ := h id
  exact ⟨a, id', ha, bind_of_ok e⟩

/-- What a rule reads is passed on to the rule after it. -/
theorem take {r : Rule α} {f : α → Rule β} (h : Reads r tokens mid P)
    (h' : ∀ a, P a → Leads (f a) mid rest k Q) : Leads (r >>= f) tokens rest k Q :=
  (leads_bind h).trans h'

theorem take_freshId {f : ExprId → Rule β} (h : ∀ id, Leads (f id) tokens rest k Q) :
    Leads (freshId >>= f) tokens rest k Q :=
  fun id => h id (id + 1)

theorem take_position {f : List Token → Rule β} (h : Leads (f tokens) tokens rest k Q) :
    Leads (position >>= f) tokens rest k Q :=
  fun id => h id

theorem skip_atEnd {f : Bool → Rule β} {kind : TokenKind} (e : t.kind = kind) (h : kind ≠ .eof)
    (h' : Leads (f false) (t :: ts) rest k Q) : Leads (atEnd >>= f) (t :: ts) rest k Q := by
  intro id
  change ∃ b id', Q b ∧ f (Cursor.atEnd ⟨t :: ts, id⟩) _ = _
  rw [Cursor.atEnd_eq_false e h]
  exact h' id

theorem take_atEnd {f : Bool → Rule β} (e : t.kind = .eof)
    (h : Leads (f true) (t :: ts) rest k Q) : Leads (atEnd >>= f) (t :: ts) rest k Q := by
  intro id
  change ∃ b id', Q b ∧ f (Cursor.atEnd ⟨t :: ts, id⟩) _ = _
  rw [Cursor.atEnd_eq_true e]
  exact h id

theorem take_accept? {read : TokenKind → Option α} {f : Option (α × Lexeme) → Rule β} {a : α}
    {kind : TokenKind} (e : t.kind = kind) (h : kind ≠ .eof) (takes : read kind = some a)
    (h' : Leads (f (some (a, ⟨t.lexeme, t.line⟩))) ts rest k Q) :
    Leads (accept? read >>= f) (t :: ts) rest k Q := by
  refine take (P := (· = some (a, ⟨t.lexeme, t.line⟩))) (fun id => ⟨_, id, rfl, ?_⟩)
    (by rintro _ rfl; exact h')
  subst e
  simp only [accept?, takes]
  rfl

theorem skip_accept? {read : TokenKind → Option α} {f : Option (α × Lexeme) → Rule β}
    (misses : ∀ t ∈ tokens.head?, read t.kind = none) (h : Leads (f none) tokens rest k Q) :
    Leads (accept? read >>= f) tokens rest k Q := by
  refine take (P := (· = none)) (fun id => ⟨_, id, rfl, ?_⟩) (by rintro _ rfl; exact h)
  cases tokens with
  | nil => rfl
  | cons t ts =>
    simp only [accept?]
    split
    · rfl
    · rw [misses t rfl]
      rfl

/-! ## Symbols, keywords and names -/

theorem take_symbol? {s : Symbol} {f : Option Lexeme → Rule β} (h : t.kind = .symbol s)
    (h' : Leads (f (some ⟨t.lexeme, t.line⟩)) ts rest k Q) :
    Leads (symbol? s >>= f) (t :: ts) rest k Q := by
  refine take (P := (· = some ⟨t.lexeme, t.line⟩)) ?_ (by rintro _ rfl; exact h')
  exact take_accept? h nofun (if_pos rfl) (leads_self rfl)

theorem skip_symbol? {s : Symbol} {f : Option Lexeme → Rule β} (h : Avoids (.symbol s) tokens)
    (h' : Leads (f none) tokens rest k Q) : Leads (symbol? s >>= f) tokens rest k Q := by
  refine take (P := (· = none)) ?_ (by rintro _ rfl; exact h')
  refine skip_accept? (fun t ht => ?_) (leads_self rfl)
  have := h t ht
  split
  · rename_i s' e
    exact if_neg fun same => this (by rw [e, same])
  · rfl

theorem take_keyword? {w : Keyword} {f : Option Lexeme → Rule β} (h : t.kind = .keyword w)
    (h' : Leads (f (some ⟨t.lexeme, t.line⟩)) ts rest k Q) :
    Leads (keyword? w >>= f) (t :: ts) rest k Q := by
  refine take (P := (· = some ⟨t.lexeme, t.line⟩)) ?_ (by rintro _ rfl; exact h')
  exact take_accept? h nofun (if_pos rfl) (leads_self rfl)

theorem skip_keyword? {w : Keyword} {f : Option Lexeme → Rule β} (h : Avoids (.keyword w) tokens)
    (h' : Leads (f none) tokens rest k Q) : Leads (keyword? w >>= f) tokens rest k Q := by
  refine take (P := (· = none)) ?_ (by rintro _ rfl; exact h')
  refine skip_accept? (fun t ht => ?_) (leads_self rfl)
  have := h t ht
  split
  · rename_i w' e
    exact if_neg fun same => this (by rw [e, same])
  · rfl

theorem take_expect {place : Place} {f : Lexeme → Rule β} (h : t.kind = .symbol place.symbol)
    (h' : Leads (f ⟨t.lexeme, t.line⟩) ts rest k Q) :
    Leads (expect place >>= f) (t :: ts) rest k Q :=
  take (P := (· = ⟨t.lexeme, t.line⟩)) (take_symbol? h (leads_self rfl)) (by rintro _ rfl; exact h')

theorem take_name {what : Named} {l : Lexeme} {f : Lexeme → Rule β} (h : (Slot.name l).Takes t)
    (h' : Leads (f l) ts rest k Q) : Leads (name what >>= f) (t :: ts) rest k Q := by
  refine take (P := (· = l)) ?_ (by rintro _ rfl; exact h')
  refine take_accept? h.kind nofun rfl ?_
  exact leads_self (h.kept l rfl).symm

end Rule

end Lox
