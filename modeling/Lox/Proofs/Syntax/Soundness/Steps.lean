import Lox.Syntax.Program
import Lox.Proofs.Syntax.Shapes
import Lox.Proofs.Syntax.Completeness.Steps

/-!
# What a reading step takes

Nothing after the first end of the input is looked at, so a reading is about the tokens before it
(`beforeEnd`). A rule yields what it reads together with the tokens that it leaves (`Yields`); each
step is stated for a rule that goes on after the step, in the case where the step takes a token and
in the case where it takes none.
-/

namespace Lox

/-- Is it the end of the input? -/
def Token.isEnd (t : Token) : Bool :=
  match t.kind with
  | .eof => true
  | _ => false

/-- The tokens before the first end of the input. -/
def beforeEnd (tokens : List Token) : List Token :=
  tokens.takeWhile fun t => !t.isEnd

theorem Token.isEnd_eq_true {t : Token} : t.isEnd = true ↔ t.kind = .eof := by
  unfold isEnd
  split <;> simp_all

theorem beforeEnd_cons_of_eof {t : Token} {ts : List Token} (e : t.kind = .eof) :
    beforeEnd (t :: ts) = [] := by
  rw [beforeEnd, List.takeWhile_cons_of_neg (by rw [Token.isEnd_eq_true.mpr e]; exact nofun)]

theorem beforeEnd_cons {t : Token} {ts : List Token} (h : t.kind ≠ .eof) :
    beforeEnd (t :: ts) = t :: beforeEnd ts := by
  have more : t.isEnd = false := Bool.eq_false_iff.mpr fun e => h (Token.isEnd_eq_true.mp e)
  rw [beforeEnd, List.takeWhile_cons_of_pos (by rw [more]; rfl)]
  rfl

theorem Cursor.beforeEnd_eq_nil {c : Cursor} (h : c.atEnd = true) : beforeEnd c.rest = [] := by
  obtain ⟨rest, id⟩ := c
  cases rest with
  | nil => rfl
  | cons t ts =>
    refine beforeEnd_cons_of_eof ?_
    simp only [atEnd, token, List.headD_cons] at h
    split at h
    · rename_i e
      exact e
    · cases h

/-- What follows the tokens of a tree is among the tokens. -/
theorem Spells.mem {slots : List Slot} {tokens rest : List Token} (h : Spells slots tokens rest)
    {t : Token} (ht : t ∈ rest) : t ∈ tokens := by
  induction slots generalizing tokens with
  | nil => exact (show tokens = rest from h) ▸ ht
  | cons s slots ih =>
    obtain ⟨t', ts, rfl, -, h⟩ := h
    exact List.mem_cons_of_mem t' (ih h)

/-- The token is of the kind, whatever its lexeme is. -/
theorem Slot.takes_of_kind {t : Token} {kind : TokenKind} (e : t.kind = kind) :
    (⟨kind, none⟩ : Slot).Takes t :=
  ⟨e, nofun⟩

/-- The token is of the kind, and its lexeme is kept. -/
theorem Slot.takes_kept {t : Token} {kind : TokenKind} (e : t.kind = kind) :
    (⟨kind, some ⟨t.lexeme, t.line⟩⟩ : Slot).Takes t := by
  refine ⟨e, fun l h => ?_⟩
  cases h
  rfl

namespace Rule

variable {α β : Type}

/-- Whenever the rule reads something where the tokens before the end of the input are `tokens`,
`P` holds of what it read and of the tokens before the end that it left. -/
def Yields (r : Rule α) (tokens : List Token) (P : α → List Token → Prop) : Prop :=
  ∀ c, beforeEnd c.rest = tokens → ∀ a c', r c = .ok a c' → P a (beforeEnd c'.rest)

variable {tokens : List Token} {P : α → List Token → Prop} {Q : β → List Token → Prop}

theorem yields_bind {r : Rule α} {f : α → Rule β} (hr : Yields r tokens P)
    (hf : ∀ a mid, P a mid → Yields (f a) mid Q) : Yields (r >>= f) tokens Q := by
  intro c e b c' h
  obtain ⟨a, c₁, first, second⟩ := bind_eq_ok.mp h
  exact hf a _ (hr c e a c₁ first) c₁ rfl b c' second

theorem yields_mono {r : Rule α} {P' : α → List Token → Prop} (h : Yields r tokens P)
    (imp : ∀ a rest, P a rest → P' a rest) : Yields r tokens P' :=
  fun c e a c' run => imp a _ (h c e a c' run)

theorem yields_and {r : Rule α} {P' : α → List Token → Prop} (h : Yields r tokens P)
    (h' : Yields r tokens P') : Yields r tokens fun a rest => P a rest ∧ P' a rest :=
  fun c e a c' run => ⟨h c e a c' run, h' c e a c' run⟩

/-- What is read has been read by the rule. -/
theorem yields_run {r : Rule α} (tokens : List Token) :
    Yields r tokens fun a _ => ∃ c c', beforeEnd c.rest = tokens ∧ r c = .ok a c' :=
  fun c e _ c' run => ⟨c, c', e, run⟩

theorem yields_pure {a : α} (h : P a tokens) : Yields (pure a) tokens P := by
  rintro c rfl _ _ ⟨⟩
  exact h

theorem yields_fail {cause : SyntaxCause} : Yields (fail cause) tokens P :=
  fun _ _ _ _ h => nomatch h

theorem yields_failAt {rest : List Token} {cause : SyntaxCause} :
    Yields (failAt rest cause) tokens P :=
  fun _ _ _ _ h => nomatch h

theorem yields_position {f : List Token → Rule β} (h : ∀ rest, Yields (f rest) tokens Q) :
    Yields (position >>= f) tokens Q :=
  fun c => h c.rest c

theorem yields_freshId {f : ExprId → Rule β} (h : ∀ id, Yields (f id) tokens Q) :
    Yields (freshId >>= f) tokens Q :=
  fun c => h c.nextId { c with nextId := c.nextId + 1 }

theorem yields_atEnd {f : Bool → Rule β} (ended : tokens = [] → Yields (f true) tokens Q)
    (goesOn : Yields (f false) tokens Q) : Yields (atEnd >>= f) tokens Q := by
  intro c e b c' h
  replace h : f c.atEnd c = .ok b c' := h
  cases here : c.atEnd with
  | true =>
    rw [here] at h
    exact ended (e ▸ c.beforeEnd_eq_nil here) c e b c' h
  | false =>
    rw [here] at h
    exact goesOn c e b c' h

theorem yields_accept? {read : TokenKind → Option α} {f : Option (α × Lexeme) → Rule β}
    (takes : ∀ t ts a, tokens = t :: ts → read t.kind = some a →
      Yields (f (some (a, ⟨t.lexeme, t.line⟩))) ts Q)
    (misses : (∀ t ∈ tokens.head?, read t.kind = none) → Yields (f none) tokens Q) :
    Yields (accept? read >>= f) tokens Q := by
  rintro ⟨rest, id⟩ rfl b c' h
  replace h : EStateM.bind (accept? read) f ⟨rest, id⟩ = .ok b c' := h
  simp only [EStateM.bind, accept?] at h
  cases rest with
  | nil => exact misses (by rintro _ ⟨⟩) ⟨[], id⟩ rfl b c' h
  | cons t ts =>
    dsimp only at h
    split at h
    · rename_i found _ run
      split at run
      · rename_i ended
        cases run
        refine misses ?_ ⟨t :: ts, id⟩ rfl b c' h
        rw [beforeEnd_cons_of_eof ended]
        rintro _ ⟨⟩
      · rename_i kind more
        rw [beforeEnd_cons more] at takes misses
        split at run <;> cases run
        · rename_i a isRead
          exact takes t _ a rfl isRead ⟨ts, id⟩ rfl b c' h
        · rename_i isNot
          refine misses ?_ ⟨t :: ts, id⟩ (beforeEnd_cons more) b c' h
          rintro _ ⟨⟩
          exact isNot
    · rename_i run
      split at run
      · cases run
      · split at run <;> cases run

/-! ## Symbols, keywords and names -/

/-- A step that takes the tokens of one kind only. -/
theorem yields_mark {read : TokenKind → Option Unit} {kind : TokenKind}
    {f : Option Lexeme → Rule β} (only : ∀ other, read other = some () ↔ other = kind)
    (takes : ∀ t ts, tokens = t :: ts → t.kind = kind → Yields (f (some ⟨t.lexeme, t.line⟩)) ts Q)
    (misses : Avoids kind tokens → Yields (f none) tokens Q) :
    Yields ((do return (← accept? read).map Prod.snd) >>= f) tokens Q := by
  refine yields_bind (P := fun found rest =>
    (∃ t, tokens = t :: rest ∧ t.kind = kind ∧ found = some ⟨t.lexeme, t.line⟩) ∨
      found = none ∧ rest = tokens ∧ Avoids kind tokens) ?_ ?_
  · refine yields_accept? (fun t ts a e isRead => ?_) fun isNot => ?_
    · exact yields_pure (.inl ⟨t, e, (only t.kind).mp isRead, rfl⟩)
    · refine yields_pure (.inr ⟨rfl, rfl, fun t ht e => ?_⟩)
      have := isNot t ht
      rw [(only t.kind).mpr e] at this
      cases this
  · rintro found mid (⟨t, e, same, rfl⟩ | ⟨rfl, rfl, avoids⟩)
    · exact takes t mid e same
    · exact misses avoids

theorem yields_symbol? {s : Symbol} {f : Option Lexeme → Rule β}
    (takes : ∀ t ts, tokens = t :: ts → t.kind = .symbol s →
      Yields (f (some ⟨t.lexeme, t.line⟩)) ts Q)
    (misses : Yields (f none) tokens Q) : Yields (symbol? s >>= f) tokens Q := by
  refine yields_mark (fun other => ?_) takes fun _ => misses
  split
  · simp only [TokenKind.symbol.injEq, ite_eq_left_iff, reduceCtorEq, imp_false, Decidable.not_not]
  · rename_i no
    exact iff_of_false nofun (no s)

theorem yields_keyword? {k : Keyword} {f : Option Lexeme → Rule β}
    (takes : ∀ t ts, tokens = t :: ts → t.kind = .keyword k →
      Yields (f (some ⟨t.lexeme, t.line⟩)) ts Q)
    (misses : Avoids (.keyword k) tokens → Yields (f none) tokens Q) :
    Yields (keyword? k >>= f) tokens Q := by
  refine yields_mark (fun other => ?_) takes misses
  split
  · simp only [TokenKind.keyword.injEq, ite_eq_left_iff, reduceCtorEq, imp_false, Decidable.not_not]
  · rename_i no
    exact iff_of_false nofun (no k)

theorem yields_expect {place : Place} {f : Lexeme → Rule β}
    (takes : ∀ t ts, tokens = t :: ts → t.kind = .symbol place.symbol →
      Yields (f ⟨t.lexeme, t.line⟩) ts Q) : Yields (expect place >>= f) tokens Q := by
  refine yields_bind (P := fun l rest => ∃ t, tokens = t :: rest ∧
    t.kind = .symbol place.symbol ∧ l = ⟨t.lexeme, t.line⟩) ?_ ?_
  · exact yields_symbol? (fun t ts e kind => yields_pure ⟨t, e, kind, rfl⟩) yields_fail
  · rintro _ mid ⟨t, e, kind, rfl⟩
    exact takes t mid e kind

theorem yields_name {what : Named} {f : Lexeme → Rule β}
    (takes : ∀ l t ts, tokens = t :: ts → (Slot.name l).Takes t → Yields (f l) ts Q) :
    Yields (name what >>= f) tokens Q := by
  refine yields_bind (P := fun l rest => ∃ t, tokens = t :: rest ∧ (Slot.name l).Takes t) ?_ ?_
  · refine yields_accept? (fun t ts a e isRead => ?_) fun _ => yields_fail
    refine yields_pure ⟨t, e, Slot.takes_kept ?_⟩
    split at isRead
    · rename_i kind
      exact kind
    · cases isRead
  · rintro l mid ⟨t, e, named⟩
    exact takes l t mid e named

end Rule

end Lox
