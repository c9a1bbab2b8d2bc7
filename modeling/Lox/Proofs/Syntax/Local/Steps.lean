import Lox.Syntax.Program
import Lox.Proofs.Sequencing
import Lox.Proofs.Syntax.Appended.Steps

/-!
# One token of lookahead

A rule takes some tokens and looks at the next one, and no further. So it does the same wherever
these tokens are followed by that one, whether it reads something or fails, and the depth of rules
is no limit as long as it is enough for the number of tokens (`Rule.Local`). Some rules do the same
also before other tokens than the one that was next. A rule that fails may have gone on after the
token that it blames; but even before others than those it then took, it does not read anything
once it has come to that token.
-/

namespace Lox

/-- The kinds of tokens that all rules for expressions, and for the heads of statements, take. -/
def TokenKind.Inner (kind : TokenKind) : Prop :=
  kind ≠ .eof ∧ kind ≠ .keyword .for

theorem TokenKind.Inner.symbol (s : Symbol) : (TokenKind.symbol s).Inner :=
  ⟨TokenKind.noConfusion, TokenKind.noConfusion⟩

/-- The next token is of the same kind, or of one of the kinds `ends`. -/
def Meets (ends : TokenKind → Prop) (ts ts' : List Token) : Prop :=
  (ts'.headD .afterLast).kind = (ts.headD .afterLast).kind ∨ ends (ts'.headD .afterLast).kind

/-- There may be `rank` rules inside each other before a token is taken, with fewer than `len`
tokens left, and any rules after that. -/
abbrev Deep (rank len n : Nat) : Prop :=
  24 * len + rank ≤ n + 24

theorem deep_depth (ts : List Token) : Deep 18 (ts.length + 1) (depth ts) := by
  unfold depth
  omega

/-- The token on its other line. -/
def Token.relabel (R : Relabelling) (t : Token) : Token :=
  { t with line := R.line t.line }

/-- Where tokens stand when they are read again: on other lines, and after nodes with the numbers
below `ids`. -/
structure Setting where
  ids : Nat
  line : Nat → Nat

namespace Setting

/-- The same lines, after nodes with the numbers below `ids`. -/
def behind (ids : Nat) : Setting :=
  ⟨ids, fun line => line⟩

variable (S : Setting)

/-- How the trees that are read again are labelled. -/
def labels : Relabelling :=
  ⟨(· + S.ids), S.line⟩

/-- The tokens on their other lines. -/
def moved (ts : List Token) : List Token :=
  ts.map (Token.relabel S.labels)

theorem moved_nil : S.moved [] = [] := rfl

theorem moved_cons (t : Token) (ts : List Token) :
    S.moved (t :: ts) = t.relabel S.labels :: S.moved ts := rfl

theorem moved_append (ts ts' : List Token) : S.moved (ts ++ ts') = S.moved ts ++ S.moved ts' :=
  List.map_append

theorem moved_ne_nil {ts : List Token} (some : ts ≠ []) : S.moved ts ≠ [] :=
  fun none => some (List.map_eq_nil_iff.mp none)

theorem behind_moved (ids : Nat) (ts : List Token) : (behind ids).moved ts = ts :=
  List.map_id ts

end Setting

section
variable {ends ends' : TokenKind → Prop} {ts ts' : List Token}

theorem Meets.mono (h : Meets ends ts ts') (weaker : ∀ kind, ends kind → ends' kind) :
    Meets ends' ts ts' :=
  h.imp_right (weaker _)

theorem Meets.append {S : Setting} {taken : List Token} (h : taken = [] → Meets ends ts ts') :
    Meets ends (taken ++ ts) (S.moved taken ++ ts') := by
  cases taken with
  | nil => exact h rfl
  | cons t taken => exact .inl rfl

theorem Cursor.atEnd_of_kind (h : (ts'.headD .afterLast).kind = (ts.headD .afterLast).kind)
    (id id' : ExprId) : (⟨ts', id'⟩ : Cursor).atEnd = (⟨ts, id⟩ : Cursor).atEnd := by
  rw [Cursor.atEnd, Cursor.token, h]
  rfl

theorem kind_headD_append (S : Setting) (taken : List Token)
    (h : (ts'.headD .afterLast).kind = (ts.headD .afterLast).kind) :
    ((S.moved taken ++ ts').headD .afterLast).kind = ((taken ++ ts).headD .afterLast).kind := by
  cases taken with
  | nil => exact h
  | cons t taken => rfl

end

namespace Rule

variable {α β γ δ : Type}

/-- The rule reads nothing from the cursor. -/
def Fails (r : Rule α) (c : Cursor) : Prop :=
  ∃ e c', r c = .error e c'

/-- From fewer than `len` tokens the rule `r` reads some, or fails after some, all of the given
kinds, and then `r'` does the same in the setting `S` with these tokens before others, fewer than
`len'` in all. What comes next must be of the same kind, or, if something is read, of one of the
kinds `ends`. A rule that `takes` tokens takes one at least to read something. If `r` fails, `r'`
fails with the tokens before the blamed one before any others, the first of the same kind. -/
structure Local (S : Setting) (kinds ends : TokenKind → Prop) (len len' : Nat) (takes : Prop)
    (f : α → β) (r : Rule α) (r' : Rule β) : Prop where
  reads {ts : List Token} {id : ExprId} {a : α} {c : Cursor} (short : ts.length < len)
    (run : r ⟨ts, id⟩ = .ok a c) :
    ∃ taken, ts = taken ++ c.rest ∧ (∀ t ∈ taken, kinds t.kind) ∧ (takes → taken ≠ []) ∧
      ∀ ts', (S.moved taken ++ ts').length < len' → Meets ends c.rest ts' →
        r' ⟨S.moved taken ++ ts', id + S.ids⟩ = .ok (f a) ⟨ts', c.nextId + S.ids⟩
  fails {ts : List Token} {id : ExprId} {e : SyntaxError} {c : Cursor} (short : ts.length < len)
    (run : r ⟨ts, id⟩ = .error e c) :
    ∃ before after, ts = before ++ e.rest ∧ e.rest = after ++ c.rest ∧
      (∀ t ∈ before ++ after, kinds t.kind) ∧
      ∀ ts', (S.moved before ++ (S.moved after ++ ts')).length < len' →
        (ts'.headD .afterLast).kind = (c.rest.headD .afterLast).kind →
        r' ⟨S.moved before ++ (S.moved after ++ ts'), id + S.ids⟩ =
          .error ⟨e.cause, S.moved after ++ ts'⟩ ⟨ts', c.nextId + S.ids⟩
  certain {ts : List Token} {id : ExprId} {e : SyntaxError} {c : Cursor} (short : ts.length < len)
    (run : r ⟨ts, id⟩ = .error e c) :
    ∃ before, ts = before ++ e.rest ∧
      ∀ ts', (S.moved before ++ ts').length < len' →
        (ts'.headD .afterLast).kind = (e.rest.headD .afterLast).kind →
        Fails r' ⟨S.moved before ++ ts', id + S.ids⟩

variable {S : Setting} {kinds ends : TokenKind → Prop} {len len' m m' : Nat} {takes : Prop}

/-! ## Sequencing -/

theorem local_pure {f : α → β} {a : α} {b : β} (same : b = f a) :
    Local S kinds ends len len' False f (pure a) (pure b) where
  reads := by
    rintro ts id _ _ - ⟨⟩
    exact ⟨[], rfl, List.forall_mem_nil _, nofun, fun _ _ _ => same ▸ rfl⟩
  fails _ run := nomatch run
  certain _ run := nomatch run

theorem local_fail {f : α → β} {cause : SyntaxCause} :
    Local S kinds ends len len' takes f (fail cause) (fail cause) where
  reads _ run := nomatch run
  fails := by
    rintro ts id _ _ - ⟨⟩
    exact ⟨[], [], rfl, rfl, List.forall_mem_nil _, fun _ _ _ => rfl⟩
  certain := by
    rintro ts id _ _ - ⟨⟩
    exact ⟨[], rfl, fun _ _ _ => ⟨_, _, rfl⟩⟩

/-- There are no tokens to begin with. -/
theorem local_nothing {f : α → β} {r : Rule α} {r' : Rule β} :
    Local S kinds ends 0 len' takes f r r' where
  reads short := absurd short (Nat.not_lt_zero _)
  fails short := absurd short (Nat.not_lt_zero _)
  certain short := absurd short (Nat.not_lt_zero _)

/-- There are no other tokens to compare with. -/
theorem Local.alone {f : α → β} {r : Rule α} {r' r'' : Rule β}
    (h : Local S kinds ends len len' takes f r r') :
    Local S kinds ends len 0 takes f r r'' where
  reads short run :=
    let ⟨taken, e, ofKind, some', _⟩ := h.reads short run
    ⟨taken, e, ofKind, some', fun _ short' => absurd short' (Nat.not_lt_zero _)⟩
  fails short run :=
    let ⟨before, after, e₁, e₂, ofKind, _⟩ := h.fails short run
    ⟨before, after, e₁, e₂, ofKind, fun _ short' => absurd short' (Nat.not_lt_zero _)⟩
  certain short run :=
    let ⟨before, e, _⟩ := h.certain short run
    ⟨before, e, fun _ short' => absurd short' (Nat.not_lt_zero _)⟩

theorem Local.untaken {f : α → β} {r : Rule α} {r' : Rule β}
    (h : Local S kinds ends len len' True f r r') :
    Local S kinds ends len len' False f r r' where
  reads short run :=
    let ⟨taken, e, ofKind, _, same⟩ := h.reads short run
    ⟨taken, e, ofKind, nofun, same⟩
  fails := h.fails
  certain := h.certain

/-- Of fewer than `len` tokens, fewer than `m` are left when some have been taken, one at least if
the rule `takes` any. -/
def Leaves (takes : Prop) (len m : Nat) : Prop :=
  ∀ taken rest : List Token, (takes → taken ≠ []) → (taken ++ rest).length < len → rest.length < m

theorem leaves_same (takes : Prop) (len : Nat) : Leaves takes len len := by
  intro taken rest _ short
  rw [List.length_append] at short
  omega

theorem leaves_less (len : Nat) : Leaves True len (len - 1) := by
  intro taken rest some short
  have := List.length_pos_iff.mpr (some trivial)
  rw [List.length_append] at short
  omega

/-- If the first rule looks at the next token, the second must take one, or what may come after both
may come after the first. -/
theorem local_bind {takes₁ takes₂ : Prop} {ends₁ : TokenKind → Prop} {f : α → γ} {g : β → δ}
    {r : Rule α} {r' : Rule γ} {k : α → Rule β} {k' : γ → Rule δ}
    (hr : Local S kinds ends₁ len len' takes₁ f r r') (leaves : Leaves takes₁ len m)
    (leaves' : Leaves takes₁ len' m')
    (hk : ∀ a, Local S kinds ends m m' takes₂ g (k a) (k' (f a)))
    (covered : takes₂ ∨ ∀ kind, ends kind → ends₁ kind) (got : takes → takes₁ ∨ takes₂) :
    Local S kinds ends len len' takes g (r >>= k) (r' >>= k') where
  reads {ts id b c} short run := by
    obtain ⟨a, ⟨_, id₁⟩, first, second⟩ := bind_eq_ok.mp run
    obtain ⟨taken₁, rfl, ofKind₁, some₁, same₁⟩ := hr.reads short first
    obtain ⟨taken₂, rfl, ofKind₂, some₂, same₂⟩ := (hk a).reads (leaves _ _ some₁ short) second
    refine ⟨taken₁ ++ taken₂, (List.append_assoc ..).symm,
      List.forall_mem_append.mpr ⟨ofKind₁, ofKind₂⟩, fun taking => ?_, fun ts' short' meets => ?_⟩
    · intro none
      obtain ⟨none₁, none₂⟩ := List.append_eq_nil_iff.mp none
      exact (got taking).elim (some₁ · none₁) (some₂ · none₂)
    · rw [S.moved_append, List.append_assoc] at short' ⊢
      have meets₁ : Meets ends₁ (taken₂ ++ c.rest) (S.moved taken₂ ++ ts') :=
        .append fun none => covered.elim (fun taking => absurd none (some₂ taking)) meets.mono
      rw [bind_of_ok (same₁ _ short' meets₁)]
      exact same₂ ts' (leaves' _ _ (fun taking => S.moved_ne_nil (some₁ taking)) short') meets
  fails {ts id e c} short run := by
    obtain failed | ⟨a, ⟨_, id₁⟩, first, second⟩ := bind_eq_error.mp run
    · obtain ⟨before, after, e₁, e₂, ofKind, same⟩ := hr.fails short failed
      exact ⟨before, after, e₁, e₂, ofKind, fun ts' short' next =>
        bind_of_error (same ts' short' next)⟩
    · obtain ⟨taken₁, rfl, ofKind₁, some₁, same₁⟩ := hr.reads short first
      obtain ⟨before, after, e₁, e₂, ofKind₂, same₂⟩ := (hk a).fails (leaves _ _ some₁ short) second
      refine ⟨taken₁ ++ before, after, by rw [List.append_assoc, ← e₁], e₂, ?_,
        fun ts' short' next => ?_⟩
      · rw [List.append_assoc]
        exact List.forall_mem_append.mpr ⟨ofKind₁, ofKind₂⟩
      · rw [S.moved_append, List.append_assoc] at short' ⊢
        have meets₁ : Meets ends₁ (before ++ e.rest) (S.moved before ++ (S.moved after ++ ts')) :=
          .inl (kind_headD_append S _ (e₂ ▸ kind_headD_append S _ next))
        rw [bind_of_ok (same₁ _ short' (e₁ ▸ meets₁))]
        exact same₂ ts' (leaves' _ _ (fun taking => S.moved_ne_nil (some₁ taking)) short') next
  certain {ts id e c} short run := by
    obtain failed | ⟨a, ⟨_, id₁⟩, first, second⟩ := bind_eq_error.mp run
    · obtain ⟨before, e₁, same⟩ := hr.certain short failed
      refine ⟨before, e₁, fun ts' short' next => ?_⟩
      obtain ⟨e', c', failed'⟩ := same ts' short' next
      exact ⟨e', c', bind_of_error failed'⟩
    · obtain ⟨taken₁, rfl, -, some₁, same₁⟩ := hr.reads short first
      obtain ⟨before, e₁, same₂⟩ := (hk a).certain (leaves _ _ some₁ short) second
      refine ⟨taken₁ ++ before, by rw [List.append_assoc, ← e₁], fun ts' short' next => ?_⟩
      rw [S.moved_append, List.append_assoc] at short' ⊢
      have meets₁ : Meets ends₁ (before ++ e.rest) (S.moved before ++ ts') :=
        .inl (kind_headD_append S _ next)
      rw [Fails, bind_of_ok (same₁ _ short' (e₁ ▸ meets₁))]
      exact same₂ ts' (leaves' _ _ (fun taking => S.moved_ne_nil (some₁ taking)) short') next

section
variable {f : α → γ} {g : β → δ} {r : Rule α} {r' : Rule γ} {k : α → Rule β} {k' : γ → Rule δ}

/-- After a rule that takes a token, there are fewer. -/
theorem Local.bind (hr : Local S kinds ends len len' True f r r')
    (hk : ∀ a, Local S kinds ends (len - 1) (len' - 1) False g (k a) (k' (f a))) :
    Local S kinds ends len len' takes g (r >>= k) (r' >>= k') :=
  local_bind hr (leaves_less len) (leaves_less len') hk (.inr fun _ h => h) fun _ => .inl trivial

/-- It does not matter what may come after a rule if one that takes a token comes after it. -/
theorem Local.bindEnded {ends₁ : TokenKind → Prop} (hr : Local S kinds ends₁ len len' True f r r')
    (hk : ∀ a, Local S kinds ends (len - 1) (len' - 1) True g (k a) (k' (f a))) :
    Local S kinds ends len len' takes g (r >>= k) (r' >>= k') :=
  local_bind hr (leaves_less len) (leaves_less len') hk (.inl trivial) fun _ => .inl trivial

/-- A rule that may take no token, and one after it that takes one. -/
theorem Local.bindOptional {ends₁ : TokenKind → Prop}
    (hr : Local S kinds ends₁ len len' False f r r')
    (hk : ∀ a, Local S kinds ends len len' True g (k a) (k' (f a))) :
    Local S kinds ends len len' takes g (r >>= k) (r' >>= k') :=
  local_bind hr (leaves_same False len) (leaves_same False len') hk (.inl trivial) fun _ =>
    .inr trivial

end

theorem local_freshId {g : β → γ} {k : ExprId → Rule β} {k' : ExprId → Rule γ}
    (h : ∀ id, Local S kinds ends len len' takes g (k id) (k' (id + S.ids))) :
    Local S kinds ends len len' takes g (freshId >>= k) (freshId >>= k') where
  reads {ts id b c} short run := by
    replace run : k id ⟨ts, id + 1⟩ = .ok b c := run
    obtain ⟨taken, e, ofKind, some, same⟩ := (h id).reads short run
    refine ⟨taken, e, ofKind, some, fun ts' short' meets => ?_⟩
    have later := same ts' short' meets
    rw [Nat.add_right_comm] at later
    exact later
  fails {ts id e c} short run := by
    replace run : k id ⟨ts, id + 1⟩ = .error e c := run
    obtain ⟨before, after, e₁, e₂, ofKind, same⟩ := (h id).fails short run
    refine ⟨before, after, e₁, e₂, ofKind, fun ts' short' next => ?_⟩
    have later := same ts' short' next
    rw [Nat.add_right_comm] at later
    exact later
  certain {ts id e c} short run := by
    replace run : k id ⟨ts, id + 1⟩ = .error e c := run
    obtain ⟨before, e₁, same⟩ := (h id).certain short run
    refine ⟨before, e₁, fun ts' short' next => ?_⟩
    have later := same ts' short' next
    rw [Nat.add_right_comm] at later
    exact later

/-- What the rule gives; if that is nothing, the token is blamed at which it began. -/
def orBlame (cause : SyntaxCause) (r : Rule (Option α)) : Rule α := do
  let rest ← position
  match ← r with
  | some a => return a
  | none => failAt rest cause

/-- If `r` gives nothing, neither does `r'` where the next token is of the same kind. -/
theorem local_orBlame {cause : SyntaxCause} {f : α → β} {r : Rule (Option α)}
    {r' : Rule (Option β)} (h : Local S kinds ends len len' takes (Option.map f) r r')
    (refuses : ∀ {ts ts' id id' c b c'}, r ⟨ts, id⟩ = .ok none c →
      (ts'.headD .afterLast).kind = (ts.headD .afterLast).kind → r' ⟨ts', id'⟩ ≠ .ok (some b) c') :
    Local S kinds ends len len' takes f (orBlame cause r) (orBlame cause r') where
  reads {ts id a c} short run := by
    obtain ⟨found, c₁, first, run⟩ := bind_eq_ok.mp (show (r >>= _) ⟨ts, id⟩ = .ok a c from run)
    cases found with
    | none => cases run
    | some b =>
      cases run
      obtain ⟨taken, e, ofKind, some, same⟩ := h.reads short first
      exact ⟨taken, e, ofKind, some, fun ts' short' meets => bind_of_ok (same ts' short' meets)⟩
  fails {ts id e c} short run := by
    obtain failed | ⟨found, c₁, first, run⟩ :=
      bind_eq_error.mp (show (r >>= _) ⟨ts, id⟩ = .error e c from run)
    · obtain ⟨before, after, e₁, e₂, ofKind, same⟩ := h.fails short failed
      refine ⟨before, after, e₁, e₂, ofKind, fun ts' short' next => ?_⟩
      show (r' >>= _) _ = _
      exact bind_of_error (same ts' short' next)
    · cases found with
      | some b => cases run
      | none =>
        cases run
        obtain ⟨taken, rfl, ofKind, -, same⟩ := h.reads short first
        refine ⟨[], taken, rfl, rfl, ofKind, fun ts' short' next => ?_⟩
        exact bind_of_ok (same ts' short' (.inl next))
  certain {ts id e c} short run := by
    obtain failed | ⟨found, c₁, first, run⟩ :=
      bind_eq_error.mp (show (r >>= _) ⟨ts, id⟩ = .error e c from run)
    · obtain ⟨before, e₁, same⟩ := h.certain short failed
      refine ⟨before, e₁, fun ts' short' next => ?_⟩
      obtain ⟨e', c', failed'⟩ := same ts' short' next
      show ∃ e' c', (r' >>= _) _ = _
      exact ⟨e', c', bind_of_error failed'⟩
    · cases found with
      | some b => cases run
      | none =>
        cases run
        refine ⟨[], rfl, fun ts' _ next => ?_⟩
        show ∃ e' c', (r' >>= _) _ = _
        cases second : r' ⟨S.moved [] ++ ts', id + S.ids⟩ with
        | error e' c' => exact ⟨e', c', bind_of_error second⟩
        | ok found' c' =>
          cases found' with
          | some b => exact absurd second (refuses first next)
          | none => exact ⟨_, _, bind_of_ok second⟩

/-- On the same tokens both rules do the same, if nodes are numbered in the same way. -/
theorem Local.eq {f : α → α} {r r' : Rule α}
    (h : Local (.behind 0) kinds ends len len' takes f r r') (same : ∀ a, f a = a) {c : Cursor}
    (short : c.rest.length < len) (short' : c.rest.length < len') : r' c = r c := by
  obtain ⟨ts, id⟩ := c
  cases run : r ⟨ts, id⟩ with
  | ok a c =>
    obtain ⟨taken, rfl, -, -, reads⟩ := h.reads short run
    have run' := reads c.rest (by rwa [Setting.behind_moved]) (.inl rfl)
    rwa [Setting.behind_moved, same] at run'
  | error e c =>
    obtain ⟨cause, _⟩ := e
    obtain ⟨before, after, rfl, rfl, -, fails⟩ := h.fails short run
    have run' := fails c.rest (by rwa [Setting.behind_moved, Setting.behind_moved]) rfl
    rwa [Setting.behind_moved, Setting.behind_moved] at run'

/-! ## Tokens -/

/-- No token is taken where none of the kinds is next. -/
def Unread (read : TokenKind → Option α) (kind : TokenKind) : Prop :=
  kind = .eof ∨ read kind = none

theorem accept?_of_next {read : TokenKind → Option α} {ts : List Token}
    (h : Unread read (ts.headD .afterLast).kind) (id : ExprId) :
    accept? read ⟨ts, id⟩ = .ok none ⟨ts, id⟩ :=
  accept?_of_unread (fun t first => by
    obtain ⟨_, rfl⟩ := List.head?_eq_some_iff.mp first
    exact h) id

theorem cons_of_not_unread {read : TokenKind → Option α} {ts : List Token}
    (h : ¬ Unread read (ts.headD .afterLast).kind) :
    ∃ t rest a, ts = t :: rest ∧ t.kind ≠ .eof ∧ read t.kind = some a := by
  rw [Unread, not_or] at h
  cases ts with
  | nil => exact absurd rfl h.1
  | cons t ts =>
    obtain ⟨a, isRead⟩ := Option.ne_none_iff_exists'.mp h.2
    exact ⟨t, ts, a, rfl, h.1, isRead⟩

/-- It depends on the kind of the next token alone whether it is taken. -/
theorem isSome_of_accept? {read : TokenKind → Option α} {ts ts' : List Token} {id id' : ExprId}
    {found found' : Option (α × Lexeme)} {c c' : Cursor}
    (run : accept? read ⟨ts, id⟩ = .ok found c) (run' : accept? read ⟨ts', id'⟩ = .ok found' c')
    (next : (ts'.headD .afterLast).kind = (ts.headD .afterLast).kind) :
    found'.isSome = found.isSome := by
  by_cases unread : Unread read (ts.headD .afterLast).kind
  · cases (accept?_of_next unread id).symm.trans run
    cases (accept?_of_next (next ▸ unread) id').symm.trans run'
    rfl
  · obtain ⟨t, rest, a, rfl, more, isRead⟩ := cons_of_not_unread unread
    obtain ⟨t', rest', a', rfl, more', isRead'⟩ := cons_of_not_unread (next ▸ unread)
    cases (accept?_of_some more isRead).symm.trans run
    cases (accept?_of_some more' isRead').symm.trans run'
    rfl

theorem isSome_of_symbol? {s : Symbol} {ts ts' : List Token} {id id' : ExprId}
    {found found' : Option Lexeme} {c c' : Cursor} (run : symbol? s ⟨ts, id⟩ = .ok found c)
    (run' : symbol? s ⟨ts', id'⟩ = .ok found' c')
    (next : (ts'.headD .afterLast).kind = (ts.headD .afterLast).kind) :
    found'.isSome = found.isSome := by
  obtain ⟨taken, _, accepted, rest⟩ := bind_eq_ok.mp run
  obtain ⟨taken', _, accepted', rest'⟩ := bind_eq_ok.mp run'
  cases rest
  cases rest'
  rw [Option.isSome_map, Option.isSome_map]
  exact isSome_of_accept? accepted accepted' next

/-- If no token of the kinds is next, the rule must take another one, or none of these kinds may
come next instead. -/
theorem local_accept? {read : TokenKind → Option α} {g : β → γ}
    {k : Option (α × Lexeme) → Rule β} {k' : Option (α × Lexeme) → Rule γ}
    (ofKind : ∀ kind a, kind ≠ .eof → read kind = some a → kinds kind)
    (reads : ∀ a l, Local S kinds ends (len - 1) (len' - 1) False g (k (some (a, l)))
      (k' (some (a, l.relabel S.labels))))
    (misses : Local S kinds ends len len' takes g (k none) (k' none))
    (covered : takes ∨ ∀ kind, ends kind → read kind = none) :
    Local S kinds ends len len' takes g (accept? read >>= k) (accept? read >>= k') where
  reads {ts id b c} short run := by
    by_cases unread : Unread read (ts.headD .afterLast).kind
    · rw [bind_of_ok (accept?_of_next unread id)] at run
      obtain ⟨taken, rfl, ofKind', some, same⟩ := misses.reads short run
      refine ⟨taken, rfl, ofKind', some, fun ts' short' meets => ?_⟩
      have unread' : Unread read ((S.moved taken ++ ts').headD .afterLast).kind := by
        have meets' : Meets (Unread read) (taken ++ c.rest) (S.moved taken ++ ts') :=
          .append fun none => covered.elim (fun taking => absurd none (some taking))
            fun refused => meets.mono fun kind atEnd => .inr (refused kind atEnd)
        exact meets'.elim (fun next => next ▸ unread) fun unread' => unread'
      rw [bind_of_ok (accept?_of_next unread' _)]
      exact same ts' short' meets
    · obtain ⟨t, rest, a, rfl, more, isRead⟩ := cons_of_not_unread unread
      rw [bind_of_ok (accept?_of_some more isRead)] at run
      obtain ⟨taken, rfl, ofKind', -, same⟩ := (reads a _).reads (Nat.lt_sub_of_add_lt short) run
      refine ⟨t :: taken, rfl, List.forall_mem_cons.mpr ⟨ofKind _ a more isRead, ofKind'⟩,
        fun _ => nofun, fun ts' short' meets => ?_⟩
      have more' : (t.relabel S.labels).kind ≠ .eof := more
      rw [S.moved_cons, List.cons_append, bind_of_ok (accept?_of_some more' isRead)]
      exact same ts' (Nat.lt_sub_of_add_lt short') meets
  fails {ts id e c} short run := by
    by_cases unread : Unread read (ts.headD .afterLast).kind
    · rw [bind_of_ok (accept?_of_next unread id)] at run
      obtain ⟨before, after, rfl, e₂, ofKind', same⟩ := misses.fails short run
      refine ⟨before, after, rfl, e₂, ofKind', fun ts' short' next => ?_⟩
      have next' := kind_headD_append S before (e₂ ▸ kind_headD_append S after next)
      rw [bind_of_ok (accept?_of_next (next' ▸ unread) _)]
      exact same ts' short' next
    · obtain ⟨t, rest, a, rfl, more, isRead⟩ := cons_of_not_unread unread
      rw [bind_of_ok (accept?_of_some more isRead)] at run
      obtain ⟨before, after, rfl, e₂, ofKind', same⟩ :=
        (reads a _).fails (Nat.lt_sub_of_add_lt short) run
      refine ⟨t :: before, after, rfl, e₂,
        List.forall_mem_cons.mpr ⟨ofKind _ a more isRead, ofKind'⟩, fun ts' short' next => ?_⟩
      have more' : (t.relabel S.labels).kind ≠ .eof := more
      rw [S.moved_cons, List.cons_append, bind_of_ok (accept?_of_some more' isRead)]
      exact same ts' (Nat.lt_sub_of_add_lt short') next
  certain {ts id e c} short run := by
    by_cases unread : Unread read (ts.headD .afterLast).kind
    · rw [bind_of_ok (accept?_of_next unread id)] at run
      obtain ⟨before, rfl, same⟩ := misses.certain short run
      refine ⟨before, rfl, fun ts' short' next => ?_⟩
      have next' := kind_headD_append S before next
      rw [Fails, bind_of_ok (accept?_of_next (next' ▸ unread) _)]
      exact same ts' short' next
    · obtain ⟨t, rest, a, rfl, more, isRead⟩ := cons_of_not_unread unread
      rw [bind_of_ok (accept?_of_some more isRead)] at run
      obtain ⟨before, rfl, same⟩ := (reads a _).certain (Nat.lt_sub_of_add_lt short) run
      refine ⟨t :: before, rfl, fun ts' short' next => ?_⟩
      have more' : (t.relabel S.labels).kind ≠ .eof := more
      rw [S.moved_cons, List.cons_append, Fails, bind_of_ok (accept?_of_some more' isRead)]
      exact same ts' (Nat.lt_sub_of_add_lt short') next

/-- A rule that goes on only if the input does not end. -/
theorem local_atEnd {cause : SyntaxCause} {g : β → γ} {k : Rule β} {k' : Rule γ}
    (h : Local S kinds ends len len' True g k k') :
    Local S kinds ends len len' takes g (do if ← atEnd then fail cause else k)
      (do if ← atEnd then fail cause else k') where
  reads {ts id b c} short run := by
    replace run : (if (⟨ts, id⟩ : Cursor).atEnd then fail cause else k) ⟨ts, id⟩ = .ok b c := run
    show ∃ taken, _ ∧ _ ∧ _ ∧ ∀ ts', _ → _ →
      (if (⟨S.moved taken ++ ts', id + S.ids⟩ : Cursor).atEnd then fail cause else k') _ = _
    split at run
    · cases run
    · rename_i more
      obtain ⟨taken, rfl, ofKind, some, same⟩ := h.reads short run
      refine ⟨taken, rfl, ofKind, fun _ => some trivial, fun ts' short' meets => ?_⟩
      have next : ((S.moved taken ++ ts').headD .afterLast).kind =
          ((taken ++ c.rest).headD .afterLast).kind := by
        cases taken with
        | nil => exact absurd rfl (some trivial)
        | cons t taken => rfl
      rw [if_neg (by rwa [Cursor.atEnd_of_kind next id])]
      exact same ts' short' meets
  fails {ts id e c} short run := by
    replace run : (if (⟨ts, id⟩ : Cursor).atEnd then fail cause else k) ⟨ts, id⟩ = .error e c := run
    show ∃ before after, _ ∧ _ ∧ _ ∧ ∀ ts', _ → _ →
      (if (⟨S.moved before ++ (S.moved after ++ ts'), id + S.ids⟩ : Cursor).atEnd then fail cause
        else k') _ = _
    split at run
    · rename_i ended
      cases run
      refine ⟨[], [], rfl, rfl, List.forall_mem_nil _, fun ts' _ next => ?_⟩
      rw [S.moved_nil, List.nil_append,
        if_pos (by rwa [List.nil_append, Cursor.atEnd_of_kind next id])]
      rfl
    · rename_i more
      obtain ⟨before, after, rfl, e₂, ofKind, same⟩ := h.fails short run
      refine ⟨before, after, rfl, e₂, ofKind, fun ts' short' next => ?_⟩
      have next' := kind_headD_append S before (e₂ ▸ kind_headD_append S after next)
      rw [if_neg (by rwa [Cursor.atEnd_of_kind next' id])]
      exact same ts' short' next
  certain {ts id e c} short run := by
    replace run : (if (⟨ts, id⟩ : Cursor).atEnd then fail cause else k) ⟨ts, id⟩ = .error e c := run
    show ∃ before, _ ∧ ∀ ts', _ → _ → ∃ e' c',
      (if (⟨S.moved before ++ ts', id + S.ids⟩ : Cursor).atEnd then fail cause else k') _ = _
    split at run
    · rename_i ended
      cases run
      refine ⟨[], rfl, fun ts' _ next => ?_⟩
      rw [S.moved_nil, List.nil_append, if_pos (by rwa [Cursor.atEnd_of_kind next id])]
      exact ⟨_, _, rfl⟩
    · rename_i more
      obtain ⟨before, rfl, same⟩ := h.certain short run
      refine ⟨before, rfl, fun ts' short' next => ?_⟩
      rw [if_neg (by rwa [Cursor.atEnd_of_kind (kind_headD_append S before next) id])]
      exact same ts' short' next

section
variable {g : β → γ} {k : Option Lexeme → Rule β} {k' : Option Lexeme → Rule γ}

/-- A step that takes the tokens of one kind only. -/
theorem local_mark {read : TokenKind → Option Unit} {kind : TokenKind}
    (only : ∀ other, read other ≠ none ↔ other = kind) (ofKind : kinds kind)
    (reads : ∀ l, Local S kinds ends (len - 1) (len' - 1) False g (k (some l))
      (k' (some (l.relabel S.labels))))
    (misses : Local S kinds ends len len' takes g (k none) (k' none))
    (covered : takes ∨ ¬ ends kind) :
    Local S kinds ends len len' takes g ((do return (← accept? read).map Prod.snd) >>= k)
      ((do return (← accept? read).map Prod.snd) >>= k') := by
  simp only [bind_assoc, pure_bind]
  refine local_accept? (fun other a _ isRead => ?_) (fun _ l => reads l) misses
    (covered.imp_right fun refused other atEnd => ?_)
  · exact (only other).mp (isRead ▸ nofun) ▸ ofKind
  · by_contra isRead
    exact refused ((only other).mp isRead ▸ atEnd)

theorem local_symbol? {s : Symbol} (ofKind : kinds (.symbol s))
    (reads : ∀ l, Local S kinds ends (len - 1) (len' - 1) False g (k (some l))
      (k' (some (l.relabel S.labels))))
    (misses : Local S kinds ends len len' takes g (k none) (k' none))
    (covered : takes ∨ ¬ ends (.symbol s)) :
    Local S kinds ends len len' takes g (symbol? s >>= k) (symbol? s >>= k') :=
  local_mark (fun other => by cases other <;> simp) ofKind reads misses covered

theorem local_keyword? {w : Keyword} (ofKind : kinds (.keyword w))
    (reads : ∀ l, Local S kinds ends (len - 1) (len' - 1) False g (k (some l))
      (k' (some (l.relabel S.labels))))
    (misses : Local S kinds ends len len' takes g (k none) (k' none))
    (covered : takes ∨ ¬ ends (.keyword w)) :
    Local S kinds ends len len' takes g (keyword? w >>= k) (keyword? w >>= k') :=
  local_mark (fun other => by cases other <;> simp) ofKind reads misses covered

end

section
variable (inner : ∀ kind, kind.Inner → kinds kind)
include inner

theorem local_expect (place : Place) :
    Local S kinds ends len len' True (Lexeme.relabel S.labels) (expect place) (expect place) :=
  local_symbol? (inner _ (.symbol _)) (fun _ => local_pure rfl) local_fail (.inl trivial)

theorem local_name (what : Named) :
    Local S kinds ends len len' True (Lexeme.relabel S.labels) (name what) (name what) := by
  refine local_accept? (fun kind a _ isRead => ?_) (fun _ _ => local_pure rfl) local_fail
    (.inl trivial)
  cases kind with
  | identifier => exact inner _ ⟨nofun, nofun⟩
  | _ => cases isRead

end

/-! ## Depth -/

/-- A rule is deep enough unless there are no tokens to compare with. -/
theorem local_of_succ {rank : Nat} (positive : 0 < rank) {f : α → β} {r : Rule α}
    (r' : Nat → Rule β)
    (h : ∀ {n' len'}, Deep rank len' (n' + 1) → Local S kinds ends len len' takes f r (r' (n' + 1)))
    {n' : Nat} (deep' : Deep rank len' n') : Local S kinds ends len len' takes f r (r' n') := by
  cases n' with
  | zero =>
    obtain rfl : len' = 0 := by omega
    have none : Deep rank 0 (rank + 1) := by omega
    exact (h none).alone
  | succ n' => exact h deep'

end Rule

end Lox
