import Lox.Syntax.Cursor
import Lox.Proofs.Sequencing
import Lox.Proofs.Token.Lines
import Lox.Proofs.Syntax.Relabel

/-!
# Reading the same tokens before other tokens

A rule decides by the next token alone. So what it reads from tokens before the end of the input, it
reads from them before any other tokens too, if it does not ask what comes after them
(`Rule.Carries`). A rule that takes a token after it has asked does not ask what comes after its
last one.
-/

namespace Lox

/-- Tokens are read twice: before `ending`, where the input ends, and some lines later before
`more`, after a program with the numbers below `ids`. -/
structure Joint where
  lines : Nat
  ids : Nat
  ending : Token
  ends : ending.kind = .eof
  more : List Token

/-- How the trees that are read later are labelled. -/
def Joint.labels (J : Joint) : Relabelling :=
  .after J.lines J.ids

namespace Cursor

theorem atEnd_of_end {t : Token} (h : t.kind = .eof) (ts : List Token) (id : ExprId) :
    (⟨t :: ts, id⟩ : Cursor).atEnd = true := by
  unfold atEnd token
  simp only [List.headD_cons, h]

theorem atEnd_cons {t : Token} (h : t.kind ≠ .eof) (ts : List Token) (id : ExprId) :
    (⟨t :: ts, id⟩ : Cursor).atEnd = false := by
  unfold atEnd token
  rw [List.headD_cons]
  split
  · contradiction
  · rfl

end Cursor

namespace Rule

variable (J : Joint) {α β γ δ : Type}

/-- What `r` reads from tokens before the end of the input, `r'` reads from them later before
others: always, if the rule is `safe`, and otherwise if it leaves a token. It takes no token of the
ending, and one at least if the rule `takes` any. -/
def Carries (safe takes : Prop) (f : α → β) (r : Rule α) (r' : Rule β) : Prop :=
  ∀ tokens id a c, r ⟨tokens ++ [J.ending], id⟩ = .ok a c →
    ∃ rest, c.rest = rest ++ [J.ending] ∧ rest <:+ tokens ∧
      (takes → rest.length < tokens.length) ∧
      (safe ∨ rest ≠ [] →
        r' ⟨tokens.map (Token.later J.lines) ++ J.more, id + J.ids⟩ =
          .ok (f a) ⟨rest.map (Token.later J.lines) ++ J.more, c.nextId + J.ids⟩)

variable {J} {safe takes : Prop}

theorem deeper_of_succ_le {n n' : Nat} (h : n + 1 ≤ n') : ∃ m, n' = m + 1 ∧ n ≤ m :=
  ⟨n' - 1, by omega, by omega⟩

/-! ## Sequencing -/

theorem carries_pure {f : α → β} {a : α} {b : β} (same : b = f a) :
    Carries J safe False f (pure a) (pure b) := by
  subst same
  rintro tokens id _ _ ⟨⟩
  exact ⟨tokens, rfl, List.suffix_refl _, nofun, fun _ => rfl⟩

theorem carries_fail {f : α → β} {cause : SyntaxCause} {r' : Rule β} :
    Carries J safe takes f (fail cause) r' :=
  fun _ _ _ _ h => nomatch h

theorem carries_failAt {f : α → β} {cause : SyntaxCause} {rest : List Token} {r' : Rule β} :
    Carries J safe takes f (failAt rest cause) r' :=
  fun _ _ _ _ h => nomatch h

/-- If the first rule is not safe, the second must take a token for both to be safe. -/
theorem carries_bind {safe₁ takes₁ takes₂ : Prop} {f : α → γ} {g : β → δ} {r : Rule α}
    {r' : Rule γ} {k : α → Rule β} {k' : γ → Rule δ} (hr : Carries J safe₁ takes₁ f r r')
    (hk : ∀ a, Carries J safe takes₂ g (k a) (k' (f a))) (covered : safe → safe₁ ∨ takes₂)
    (taken : takes → takes₁ ∨ takes₂) : Carries J safe takes g (r >>= k) (r' >>= k') := by
  intro tokens id b c h
  obtain ⟨a, ⟨_, id₁⟩, first, second⟩ := bind_eq_ok.mp h
  obtain ⟨rest₁, rfl, suffix₁, less₁, moved₁⟩ := hr tokens id a _ first
  obtain ⟨rest, e, suffix, less, moved⟩ := hk a rest₁ id₁ b c second
  refine ⟨rest, e, suffix.trans suffix₁, fun isTaken => ?_, fun covers => ?_⟩
  · obtain isTaken | isTaken := taken isTaken
    · exact Nat.lt_of_le_of_lt suffix.length_le (less₁ isTaken)
    · exact Nat.lt_of_lt_of_le (less isTaken) suffix₁.length_le
  · have covers₁ : safe₁ ∨ rest₁ ≠ [] := by
      obtain isSafe | some := covers
      · exact (covered isSafe).imp_right fun isTaken =>
          List.ne_nil_of_length_pos (Nat.zero_lt_of_lt (less isTaken))
      · exact .inr fun none => some (List.suffix_nil.mp (none ▸ suffix))
    rw [bind_of_ok (moved₁ covers₁)]
    exact moved covers

theorem Carries.untaken {f : α → β} {r : Rule α} {r' : Rule β} (h : Carries J safe takes f r r') :
    Carries J safe False f r r' := by
  intro tokens id a c run
  obtain ⟨rest, e, suffix, -, moved⟩ := h tokens id a c run
  exact ⟨rest, e, suffix, nofun, moved⟩

/-- After a safe rule that takes a token, nothing more is asked. -/
theorem Carries.bind {f : α → γ} {g : β → δ} {r : Rule α} {r' : Rule γ} {k : α → Rule β}
    {k' : γ → Rule δ} (hr : Carries J True True f r r')
    (hk : ∀ a, Carries J safe False g (k a) (k' (f a))) :
    Carries J safe takes g (r >>= k) (r' >>= k') :=
  carries_bind hr hk (fun _ => .inl trivial) fun _ => .inl trivial

/-- A rule that takes a token, and others after it that need not be safe. -/
theorem Carries.unsafeBind {safe₁ : Prop} {f : α → γ} {g : β → δ} {r : Rule α} {r' : Rule γ}
    {k : α → Rule β} {k' : γ → Rule δ} (hr : Carries J safe₁ True f r r')
    (hk : ∀ a, Carries J False False g (k a) (k' (f a))) :
    Carries J False takes g (r >>= k) (r' >>= k') :=
  carries_bind hr hk False.elim fun _ => .inl trivial

/-- A rule that need not be safe, because one that takes a token comes after it. -/
theorem Carries.bindEnded {safe₁ takes₁ : Prop} {f : α → γ} {g : β → δ} {r : Rule α}
    {r' : Rule γ} {k : α → Rule β} {k' : γ → Rule δ} (hr : Carries J safe₁ takes₁ f r r')
    (hk : ∀ a, Carries J safe True g (k a) (k' (f a))) :
    Carries J safe takes g (r >>= k) (r' >>= k') :=
  carries_bind hr hk (fun _ => .inr trivial) fun _ => .inr trivial

theorem carries_position {g : β → γ} {k : List Token → Rule β} {k' : List Token → Rule γ}
    (h : ∀ rest rest', Carries J safe takes g (k rest) (k' rest')) :
    Carries J safe takes g (position >>= k) (position >>= k') :=
  fun tokens id b c run => h _ _ tokens id b c run

theorem carries_freshId {g : β → γ} {k : ExprId → Rule β} {k' : ExprId → Rule γ}
    (h : ∀ id, Carries J safe takes g (k id) (k' (id + J.ids))) :
    Carries J safe takes g (freshId >>= k) (freshId >>= k') := by
  intro tokens id b c run
  obtain ⟨rest, e, suffix, less, moved⟩ := h id tokens (id + 1) b c run
  refine ⟨rest, e, suffix, less, fun covers => ?_⟩
  have next := moved covers
  rw [Nat.add_right_comm] at next
  exact next

/-- A rule that goes on only if the input does not end. -/
theorem carries_atEnd {g : β → γ} {k : Bool → Rule β} {k' : Bool → Rule γ}
    (goesOn : ∀ b, Carries J safe takes g (k b) (k' b)) (stops : ∀ c b c', k true c ≠ .ok b c') :
    Carries J safe takes g (atEnd >>= k) (atEnd >>= k') := by
  intro tokens id b c run
  cases tokens with
  | nil =>
    replace run : k (⟨[J.ending], id⟩ : Cursor).atEnd ⟨[J.ending], id⟩ = .ok b c := run
    rw [Cursor.atEnd_of_end J.ends] at run
    exact absurd run (stops _ b c)
  | cons t ts => exact goesOn _ (t :: ts) id b c run

/-! ## Tokens -/

theorem accept?_of_none {read : TokenKind → Option α} {t : Token} {ts : List Token} {id : ExprId}
    (h : t.kind = .eof ∨ read t.kind = none) :
    accept? read ⟨t :: ts, id⟩ = .ok none ⟨t :: ts, id⟩ := by
  unfold accept?
  dsimp only
  split
  · rfl
  · rename_i more
    rw [h.resolve_left more]

theorem accept?_of_some {read : TokenKind → Option α} {t : Token} {ts : List Token} {id : ExprId}
    {a : α} (more : t.kind ≠ .eof) (h : read t.kind = some a) :
    accept? read ⟨t :: ts, id⟩ = .ok (some (a, ⟨t.lexeme, t.line⟩)) ⟨ts, id⟩ := by
  unfold accept?
  dsimp only
  split
  · rename_i e
    exact absurd e more
  · rw [h]

/-- No token is taken where none of the kinds is next. -/
theorem accept?_of_unread {read : TokenKind → Option α} {tokens : List Token}
    (h : ∀ t ∈ tokens.head?, t.kind = .eof ∨ read t.kind = none) (id : ExprId) :
    accept? read ⟨tokens, id⟩ = .ok none ⟨tokens, id⟩ := by
  cases tokens with
  | nil => rfl
  | cons t ts => exact accept?_of_none (h t rfl)

/-- If no token is taken, a safe rule must take one after that, or the tokens after the joint must
not be of those kinds. -/
theorem carries_accept?_of {takes₂ : Prop} {g : β → γ} {read : TokenKind → Option α}
    {k : Option (α × Lexeme) → Rule β} {k' : Option (α × Lexeme) → Rule γ}
    (reads : ∀ a l, Carries J safe False g (k (some (a, l))) (k' (some (a, l.relabel J.labels))))
    (misses : Carries J safe takes₂ g (k none) (k' none)) (taken : takes → takes₂)
    (covered : safe → takes₂ ∨ ∀ t ∈ J.more.head?, t.kind = .eof ∨ read t.kind = none) :
    Carries J safe takes g (accept? read >>= k) (accept? read >>= k') := by
  intro tokens id b c run
  cases tokens with
  | nil =>
    rw [List.nil_append, bind_of_ok (accept?_of_none (.inl J.ends))] at run
    obtain ⟨rest, e, suffix, less, moved⟩ := misses [] id b c run
    refine ⟨rest, e, suffix, fun isTaken => less (taken isTaken), fun covers => ?_⟩
    have isSafe : safe := by
      refine covers.resolve_right fun some => some ?_
      exact List.suffix_nil.mp suffix
    have unread' := (covered isSafe).resolve_left fun isTaken => Nat.not_lt_zero _ (less isTaken)
    rw [List.map_nil, List.nil_append, bind_of_ok (accept?_of_unread unread' _)]
    exact moved covers
  | cons t ts =>
    by_cases unread : t.kind = .eof ∨ read t.kind = none
    · rw [List.cons_append, bind_of_ok (accept?_of_none unread)] at run
      obtain ⟨rest, e, suffix, less, moved⟩ := misses (t :: ts) id b c run
      refine ⟨rest, e, suffix, fun isTaken => less (taken isTaken), fun covers => ?_⟩
      have unread' : (t.later J.lines).kind = .eof ∨
          read (t.later J.lines).kind = none := unread
      rw [List.map_cons, List.cons_append, bind_of_ok (accept?_of_none unread')]
      exact moved covers
    · rw [not_or] at unread
      obtain ⟨a, isRead⟩ := Option.ne_none_iff_exists'.mp unread.2
      rw [List.cons_append, bind_of_ok (accept?_of_some unread.1 isRead)] at run
      obtain ⟨rest, e, suffix, -, moved⟩ := reads a ⟨t.lexeme, t.line⟩ ts id b c run
      refine ⟨rest, e, suffix.trans (List.suffix_cons t ts),
        fun _ => Nat.lt_succ_of_le suffix.length_le,
        fun covers => ?_⟩
      have more' : (t.later J.lines).kind ≠ .eof := unread.1
      have isRead' : read (t.later J.lines).kind = some a := isRead
      rw [List.map_cons, List.cons_append, bind_of_ok (accept?_of_some more' isRead')]
      exact moved covers

section
variable {g : β → γ} {k : Option Lexeme → Rule β} {k' : Option Lexeme → Rule γ}

/-- A token is taken in any case. -/
theorem carries_accept? {read : TokenKind → Option α} {k : Option (α × Lexeme) → Rule β}
    {k' : Option (α × Lexeme) → Rule γ}
    (reads : ∀ a l, Carries J safe False g (k (some (a, l))) (k' (some (a, l.relabel J.labels))))
    (misses : Carries J safe True g (k none) (k' none)) :
    Carries J safe takes g (accept? read >>= k) (accept? read >>= k') :=
  carries_accept?_of reads misses (fun _ => trivial) fun _ => .inl trivial

/-- A token may be taken. -/
theorem carries_maybe? {read : TokenKind → Option α} {k : Option (α × Lexeme) → Rule β}
    {k' : Option (α × Lexeme) → Rule γ}
    (reads : ∀ a l, Carries J False False g (k (some (a, l))) (k' (some (a, l.relabel J.labels))))
    (misses : Carries J False takes g (k none) (k' none)) :
    Carries J False takes g (accept? read >>= k) (accept? read >>= k') :=
  carries_accept?_of reads misses id False.elim

/-- A step that takes the tokens of one kind only. -/
theorem carries_mark_of {takes₂ : Prop} {read : TokenKind → Option Unit}
    (reads : ∀ l, Carries J safe False g (k (some l)) (k' (some (l.relabel J.labels))))
    (misses : Carries J safe takes₂ g (k none) (k' none)) (taken : takes → takes₂)
    (covered : safe → takes₂ ∨ ∀ t ∈ J.more.head?, t.kind = .eof ∨ read t.kind = none) :
    Carries J safe takes g ((do return (← accept? read).map Prod.snd) >>= k)
      ((do return (← accept? read).map Prod.snd) >>= k') := by
  simp only [bind_assoc, pure_bind]
  exact carries_accept?_of (fun _ l => reads l) misses taken covered

theorem carries_symbol? {s : Symbol}
    (reads : ∀ l, Carries J safe False g (k (some l)) (k' (some (l.relabel J.labels))))
    (misses : Carries J safe True g (k none) (k' none)) :
    Carries J safe takes g (symbol? s >>= k) (symbol? s >>= k') :=
  carries_mark_of reads misses (fun _ => trivial) fun _ => .inl trivial

theorem carries_maybeSymbol? {s : Symbol}
    (reads : ∀ l, Carries J False False g (k (some l)) (k' (some (l.relabel J.labels))))
    (misses : Carries J False takes g (k none) (k' none)) :
    Carries J False takes g (symbol? s >>= k) (symbol? s >>= k') :=
  carries_mark_of reads misses id False.elim

theorem carries_keyword? {w : Keyword}
    (reads : ∀ l, Carries J safe False g (k (some l)) (k' (some (l.relabel J.labels))))
    (misses : Carries J safe True g (k none) (k' none)) :
    Carries J safe takes g (keyword? w >>= k) (keyword? w >>= k') :=
  carries_mark_of reads misses (fun _ => trivial) fun _ => .inl trivial

end

theorem carries_expect (place : Place) :
    Carries J True True (Lexeme.relabel J.labels) (expect place) (expect place) :=
  carries_symbol? (fun _ => carries_pure rfl) carries_fail

theorem carries_name (what : Named) :
    Carries J True True (Lexeme.relabel J.labels) (name what) (name what) :=
  carries_accept? (fun _ _ => carries_pure rfl) carries_fail

end Rule

end Lox
