import Lox.Proofs.Syntax.Loops.Written

/-!
# Programs beside each other

Two programs are read side by side that have the same tokens, but for those of a `for` loop, in
whose place other tokens may stand (`Pairing.Faces`). Before the loop and behind it, the rules do
the same in both, and they come to the loop only where a statement is asked for
(`Rule.rewritesStatements`). So all that has to be known is that both loops are read as the same
statement, but for the numbers of its nodes (`Pairing.reads`), and then so are both programs
(`Program.readFrom_beside`).
-/

namespace Lox

/-- A `for` loop, and a loop that is written in another way, begin with a token of the kind. -/
def TokenKind.BeginsLoop (kind : TokenKind) : Prop :=
  kind = .keyword .for ∨ kind = .keyword .while ∨ kind = .symbol .leftBrace

theorem TokenKind.BeginsLoop.endsExpression {kind : TokenKind} (h : kind.BeginsLoop) :
    kind.EndsExpression := by
  rcases h with rfl | rfl | rfl <;> exact ⟨rfl, nofun⟩

/-- Tokens from a `for` loop on, and tokens that are read beside them. What is read as a statement
from the ones is also read from the others, with the same tokens behind it, and if this happens, the
loop is `passed`. -/
structure Pairing where
  tokens : List Token
  tokens' : List Token
  passed : Prop
  begins : ∃ t ts, tokens = t :: ts ∧ t.kind = .keyword .for
  begins' : ∃ t ts, tokens' = t :: ts ∧ t.kind.BeginsLoop
  reads {n n' : Nat} {id : ExprId} {s : Stmt} {c : Cursor} (id' : ExprId)
    (deep : 24 * tokens.length + 17 ≤ n) (deep' : 24 * tokens'.length + 17 ≤ n')
    (run : Rule.statement n ⟨tokens, id⟩ = .ok s c) : passed ∧ c.rest.length < tokens.length ∧
      c.rest.length < tokens'.length ∧ ∃ s' id'', s'.relabel .numberless = s.relabel .numberless ∧
        Rule.statement n' ⟨tokens', id'⟩ = .ok s' ⟨c.rest, id''⟩

namespace Pairing

variable (W : Pairing)

/-- Two lists of tokens that are read side by side: the loop is still to come, or it has been read.
If something is `ahead`, the loop does not come next. -/
inductive Faces (ahead : Prop) : List Token → List Token → Prop
  | before {front : List Token} (some : ahead → front ≠ []) :
    Faces ahead (front ++ W.tokens) (front ++ W.tokens')
  | behind (passed : W.passed) (ts : List Token) : Faces ahead ts ts

variable {W} {ahead : Prop} {ts ts' : List Token}

/-- The next tokens are the same, unless the loop comes next or nothing. -/
theorem Faces.heads (h : W.Faces ahead ts ts') :
    (∃ t rest rest', ts = t :: rest ∧ ts' = t :: rest' ∧ W.Faces False rest rest') ∨
      (ts = [] ∧ ts' = []) ∨
      ¬ ahead ∧ (∃ t rest, ts = t :: rest ∧ t.kind = .keyword .for) ∧
        ∃ t rest, ts' = t :: rest ∧ t.kind.BeginsLoop := by
  cases h with
  | @before front some =>
    cases front with
    | nil => exact .inr (.inr ⟨fun isAhead => some isAhead rfl, W.begins, W.begins'⟩)
    | cons t front => exact .inl ⟨t, _, _, rfl, rfl, .before False.elim⟩
  | behind passed =>
    cases ts with
    | nil => exact .inr (.inl ⟨rfl, rfl⟩)
    | cons t ts => exact .inl ⟨t, ts, ts, rfl, rfl, .behind passed ts⟩

theorem Faces.atEnd_eq (h : W.Faces ahead ts ts') (id id' : ExprId) :
    (⟨ts', id'⟩ : Cursor).atEnd = (⟨ts, id⟩ : Cursor).atEnd := by
  obtain ⟨t, rest, rest', rfl, rfl, -⟩ | ⟨rfl, rfl⟩ |
    ⟨-, ⟨t, rest, rfl, isFor⟩, t', rest', rfl, begins⟩ := h.heads
  · rfl
  · rfl
  · have more : t'.kind ≠ .eof := by rcases begins with e | e | e <;> rw [e] <;> nofun
    rw [Cursor.atEnd_cons more, Cursor.atEnd_cons (isFor ▸ nofun)]

theorem Faces.passed_or (h : W.Faces ahead ts ts') :
    W.passed ∨ ∃ front, ts = front ++ W.tokens := by
  cases h with
  | @before front => exact .inr ⟨front, rfl⟩
  | behind passed => exact .inl passed

end Pairing

theorem exists_of_append_eq_append {α : Type} {k : α} {front ts taken rest : List α}
    (e : front ++ k :: ts = taken ++ rest) (h : k ∉ taken) :
    ∃ front', front = taken ++ front' ∧ rest = front' ++ k :: ts := by
  obtain ⟨more, rfl, e'⟩ | ⟨front', rfl, rfl⟩ := List.append_eq_append_iff.mp e
  · cases more with
    | nil => exact ⟨[], by simp, e'.symm⟩
    | cons k' more =>
      cases e'
      exact absurd (by simp) h
  · exact ⟨front', rfl, rfl⟩

/-- No more tokens are left than there were, and fewer if any were taken. -/
def Shrinks (takes : Prop) (ts rest : List Token) : Prop :=
  rest.length ≤ ts.length ∧ (takes → rest.length < ts.length)

theorem shrinks_append {takes : Prop} {taken : List Token} (some : takes → taken ≠ [])
    (rest : List Token) : Shrinks takes (taken ++ rest) rest := by
  rw [Shrinks, List.length_append]
  refine ⟨Nat.le_add_left _ _, fun isTaken => ?_⟩
  have := List.length_pos_iff.mpr (some isTaken)
  omega

namespace Rule

variable {α β : Type} (W : Pairing)

/-- What `r` reads from tokens with the one loop, fewer than `len`, `r'` reads from tokens with the
other, fewer than `len'`, and then both go on side by side. A rule that `takes` tokens takes one at
least, and `u` does not see the numbers of nodes. -/
def Rewrites (ahead : Prop) (len len' : Nat) (takes : Prop) (u : α → α) (r r' : Rule α) : Prop :=
  ∀ ts ts' id id' a c, W.Faces ahead ts ts' → ts.length < len → ts'.length < len' →
    r ⟨ts, id⟩ = .ok a c → ∃ a' c', r' ⟨ts', id'⟩ = .ok a' c' ∧ u a' = u a ∧
      W.Faces False c.rest c'.rest ∧ Shrinks takes ts c.rest ∧ Shrinks takes ts' c'.rest

variable {W} {ahead takes : Prop} {len len' m m' : Nat} {u : α → α} {v : β → β}

/-! ## Steps -/

theorem rewrites_pure {a a' : α} (same : u a' = u a) :
    Rewrites W ahead len len' False u (pure a) (pure a') := by
  rintro ts ts' id id' _ _ faces - - ⟨⟩
  refine ⟨a', ⟨ts', id'⟩, rfl, same, ?_, ⟨Nat.le_refl _, nofun⟩, ⟨Nat.le_refl _, nofun⟩⟩
  cases faces with
  | before => exact .before False.elim
  | behind passed => exact .behind passed ts

theorem rewrites_fail {cause : SyntaxCause} {r' : Rule α} :
    Rewrites W ahead len len' takes u (fail cause) r' :=
  fun _ _ _ _ _ _ _ _ _ run => nomatch run

theorem Rewrites.untaken {r r' : Rule α} (h : Rewrites W ahead len len' True u r r') :
    Rewrites W ahead len len' False u r r' := by
  intro ts ts' id id' a c faces short short' run
  obtain ⟨a', c', run', same, faces', less, less'⟩ := h ts ts' id id' a c faces short short' run
  exact ⟨a', c', run', same, faces', ⟨less.1, nofun⟩, ⟨less'.1, nofun⟩⟩

section
variable {r r' : Rule α} {k k' : α → Rule β}

theorem rewrites_bind {takes₁ takes₂ : Prop} (hr : Rewrites W ahead len len' takes₁ u r r')
    (fewer : ∀ {ts rest}, Shrinks takes₁ ts rest → ts.length < len → rest.length < m)
    (fewer' : ∀ {ts rest}, Shrinks takes₁ ts rest → ts.length < len' → rest.length < m')
    (hk : ∀ a a', u a' = u a → Rewrites W False m m' takes₂ v (k a) (k' a'))
    (got : takes → takes₁ ∨ takes₂) :
    Rewrites W ahead len len' takes v (r >>= k) (r' >>= k') := by
  intro ts ts' id id' b c faces short short' run
  have trans {ts mid rest : List Token} (less₁ : Shrinks takes₁ ts mid)
      (less₂ : Shrinks takes₂ mid rest) : Shrinks takes ts rest :=
    ⟨Nat.le_trans less₂.1 less₁.1, fun isTaken => (got isTaken).elim
      (fun first => Nat.lt_of_le_of_lt less₂.1 (less₁.2 first))
      fun second => Nat.lt_of_lt_of_le (less₂.2 second) less₁.1⟩
  obtain ⟨a, c₁, first, second⟩ := bind_eq_ok.mp run
  obtain ⟨a', c₁', first', same, faces₁, less₁, less₁'⟩ :=
    hr ts ts' id id' a c₁ faces short short' first
  obtain ⟨b', c', second', same', faces₂, less₂, less₂'⟩ :=
    hk a a' same c₁.rest c₁'.rest c₁.nextId c₁'.nextId b c faces₁ (fewer less₁ short)
      (fewer' less₁' short') second
  exact ⟨b', c', (bind_of_ok first').trans second', same', faces₂, trans less₁ less₂,
    trans less₁' less₂'⟩

/-- After a rule that takes a token, there are fewer. -/
theorem Rewrites.bind (hr : Rewrites W ahead len len' True u r r')
    (hk : ∀ a a', u a' = u a → Rewrites W False (len - 1) (len' - 1) False v (k a) (k' a')) :
    Rewrites W ahead len len' takes v (r >>= k) (r' >>= k') :=
  rewrites_bind hr (fun less short => by have := less.2 trivial; omega)
    (fun less short => by have := less.2 trivial; omega) hk fun _ => .inl trivial

/-- A rule that may take no token, and one after it that takes one. -/
theorem Rewrites.bindOptional (hr : Rewrites W ahead len len' False u r r')
    (hk : ∀ a a', u a' = u a → Rewrites W False len len' True v (k a) (k' a')) :
    Rewrites W ahead len len' takes v (r >>= k) (r' >>= k') :=
  rewrites_bind hr (fun less short => Nat.lt_of_le_of_lt less.1 short)
    (fun less short => Nat.lt_of_le_of_lt less.1 short) hk fun _ => .inr trivial

end

/-- No token of the loops is taken where none of the kinds begins them. -/
theorem rewrites_accept? {γ : Type} {read : TokenKind → Option γ}
    {k k' : Option (γ × Lexeme) → Rule β}
    (reads : ∀ a l, Rewrites W False (len - 1) (len' - 1) False v (k (some (a, l)))
      (k' (some (a, l))))
    (misses : Rewrites W ahead len len' takes v (k none) (k' none))
    (unread : ahead ∨ ∀ kind : TokenKind, kind.BeginsLoop → read kind = none) :
    Rewrites W ahead len len' takes v (accept? read >>= k) (accept? read >>= k') := by
  intro ts ts' id id' b c faces short short' run
  obtain ⟨t, rest, rest', rfl, rfl, faces'⟩ | ⟨rfl, rfl⟩ |
    ⟨next, ⟨t, rest, rfl, isFor⟩, t', rest', rfl, begins⟩ := faces.heads
  · by_cases isRead : t.kind = .eof ∨ read t.kind = none
    · rw [bind_of_ok (accept?_of_none isRead)] at run ⊢
      exact misses _ _ _ id' _ _ faces short short' run
    · rw [not_or] at isRead
      obtain ⟨a, isRead'⟩ := Option.ne_none_iff_exists'.mp isRead.2
      rw [bind_of_ok (accept?_of_some isRead.1 isRead')] at run ⊢
      obtain ⟨b', c', run', same, faces'', less, less'⟩ :=
        reads a _ rest rest' id id' b c faces' (Nat.lt_sub_of_add_lt short)
          (Nat.lt_sub_of_add_lt short') run
      exact ⟨b', c', run', same, faces'',
        ⟨Nat.le_succ_of_le less.1, fun _ => Nat.lt_succ_of_le less.1⟩,
        ⟨Nat.le_succ_of_le less'.1, fun _ => Nat.lt_succ_of_le less'.1⟩⟩
  · exact misses [] [] id id' b c faces short short' run
  · have unread' := unread.resolve_left next
    rw [bind_of_ok (accept?_of_none (.inr (unread' _ (.inl isFor))))] at run
    rw [bind_of_ok (accept?_of_none (.inr (unread' _ begins)))]
    exact misses _ _ _ id' _ _ faces short short' run

theorem rewrites_mark {read : TokenKind → Option Unit} {k k' : Option Lexeme → Rule β}
    (reads : ∀ l, Rewrites W False (len - 1) (len' - 1) False v (k (some l)) (k' (some l)))
    (misses : Rewrites W ahead len len' takes v (k none) (k' none))
    (unread : ahead ∨ ∀ kind : TokenKind, kind.BeginsLoop → read kind = none) :
    Rewrites W ahead len len' takes v ((do return (← accept? read).map Prod.snd) >>= k)
      ((do return (← accept? read).map Prod.snd) >>= k') := by
  simp only [bind_assoc, pure_bind]
  exact rewrites_accept? (fun _ l => reads l) misses unread

theorem rewrites_atEnd {cause : SyntaxCause} {k k' : Rule β}
    (h : Rewrites W ahead len len' takes v k k') :
    Rewrites W ahead len len' takes v (do if ← atEnd then fail cause else k)
      (do if ← atEnd then fail cause else k') := by
  intro ts ts' id id' b c faces short short' run
  replace run : (if (⟨ts, id⟩ : Cursor).atEnd then fail cause else k) ⟨ts, id⟩ = .ok b c := run
  show ∃ b' c', (if (⟨ts', id'⟩ : Cursor).atEnd then fail cause else k') ⟨ts', id'⟩ = _ ∧ _
  split at run
  · cases run
  · rename_i more
    rw [if_neg (faces.atEnd_eq id id' ▸ more)]
    exact h _ _ _ id' _ _ faces short short' run

/-- A rule that takes no `for` comes to a loop after it at most. -/
theorem rewrites_of_local (ends : TokenKind → Prop) {f : Nat → α → α} {r r' : Rule α}
    (own : ∀ ids, Local (.behind ids) TokenKind.Inner ends len len takes (f ids) r r)
    (other : ∀ ids, Local (.behind ids) TokenKind.Inner ends len len' takes (f ids) r r')
    (unseen : ∀ ids a, u (f ids a) = u a)
    (loops : ∀ kind : TokenKind, kind.BeginsLoop → ends kind) :
    Rewrites W ahead len len' takes u r r' := by
  intro ts ts' id id' a c faces short short' run
  obtain ⟨taken, e, inner, some, reads⟩ := reads_of_local own other unseen short run
  cases faces with
  | @before front =>
    obtain ⟨t, rest, begun, isFor⟩ := W.begins
    obtain ⟨front', rfl, left⟩ := exists_of_append_eq_append (begun ▸ e) fun inside =>
      (inner t inside).2 isFor
    rw [← begun] at left
    have meets : Meets ends c.rest (front' ++ W.tokens') := by
      rw [left]
      cases front' with
      | nil =>
        obtain ⟨t', rest', begun', begins⟩ := W.begins'
        rw [List.nil_append, begun']
        exact .inr (loops t'.kind begins)
      | cons t front' => exact .inl rfl
    rw [List.append_assoc] at short' ⊢
    obtain ⟨a', id'', same, run'⟩ := reads _ short' meets id'
    refine ⟨a', ⟨_, id''⟩, run', same, ?_, e ▸ shrinks_append some _, shrinks_append some _⟩
    rw [left]
    exact .before False.elim
  | behind passed =>
    obtain ⟨a', id'', same, run'⟩ := reads c.rest (e ▸ short') (.inl rfl) id'
    exact ⟨a', ⟨c.rest, id''⟩, e ▸ run', same, .behind passed c.rest, e ▸ shrinks_append some _,
      e ▸ shrinks_append some _⟩

/-! ## Parts of statements -/

theorem rewrites_expect (place : Place) :
    Rewrites W ahead len len' True id (expect place) (expect place) :=
  rewrites_of_local (fun _ => True) (f := fun ids => Lexeme.relabel (Setting.behind ids).labels)
    (fun _ => local_expect inner_of_inner place) (fun _ => local_expect inner_of_inner place)
    (fun _ _ => rfl) fun _ _ => trivial

theorem rewrites_name (what : Named) : Rewrites W ahead len len' True id (name what) (name what) :=
  rewrites_of_local (fun _ => True) (f := fun ids => Lexeme.relabel (Setting.behind ids).labels)
    (fun _ => local_name inner_of_inner what) (fun _ => local_name inner_of_inner what)
    (fun _ _ => rfl) fun _ _ => trivial

theorem rewrites_superclass :
    Rewrites W ahead len len' False (Option.map (Superclass.relabel .numberless)) superclass
      superclass :=
  rewrites_of_local (· ≠ .symbol .less)
    (f := fun ids => Option.map (Superclass.relabel (Setting.behind ids).labels))
    (fun _ => local_superclass inner_of_inner) (fun _ => local_superclass inner_of_inner)
    (fun _ c => by cases c <;> rfl) (by rintro _ (rfl | rfl | rfl) <;> nofun)

section
variable {n n' : Nat}

theorem Steady.rewrites {ends : TokenKind → Prop} {rank : Nat} {r : Nat → Rule α}
    (h : Steady TokenKind.Inner ends rank u r)
    (loops : ∀ kind : TokenKind, kind.BeginsLoop → ends kind) (deep : Deep rank len n)
    (deep' : Deep rank len' n') : Rewrites W ahead len len' True u (r n) (r n') := by
  obtain ⟨f, unseen, isLocal⟩ := h
  exact rewrites_of_local ends (fun _ => isLocal deep deep) (fun _ => isLocal deep deep') unseen
    loops

/-- Before a loop, a rule has ended that anything may come after. -/
theorem Steady.rewritesAny {rank : Nat} {r : Nat → Rule α}
    (h : Steady TokenKind.Inner (fun _ => True) rank u r) (deep : Deep rank len n)
    (deep' : Deep rank len' n') : Rewrites W ahead len len' True u (r n) (r n') :=
  h.rewrites (fun _ _ => trivial) deep deep'

/-- An expression and the symbol after it. -/
theorem rewrites_ended (place : Place) {k k' : Expr → Lexeme → Rule β} (deep : Deep 16 len n)
    (deep' : Deep 16 len' n')
    (h : ∀ e e' l, e'.relabel .numberless = e.relabel .numberless →
      Rewrites W False (len - 1 - 1) (len' - 1 - 1) False v (k e l) (k' e' l)) :
    Rewrites W ahead len len' takes v (do let e ← expression n; let l ← expect place; k e l)
      (do let e ← expression n'; let l ← expect place; k' e l) := by
  refine (steady_expression.rewrites (fun _ begins => begins.endsExpression) deep deep').bind
    fun e e' same => ?_
  refine (rewrites_expect place).bind fun l l' same' => ?_
  obtain rfl : l' = l := same'
  exact h e e' l' same

end

/-! ## Rules -/

/-- The statement of the loop is the same in both programs. -/
theorem rewrites_statement_of_ahead {n n' : Nat} (deep : Deep 17 len n) (deep' : Deep 17 len' n')
    (h : Rewrites W True len len' True (Stmt.relabel .numberless) (statement n) (statement n')) :
    Rewrites W ahead len len' True (Stmt.relabel .numberless) (statement n) (statement n') := by
  intro ts ts' id id' s c faces short short' run
  cases faces with
  | @before front =>
    by_cases here : front = []
    · subst here
      rw [List.nil_append] at run short short' ⊢
      obtain ⟨passed, fewer, fewer', s', id'', same, run'⟩ :=
        W.reads id' (by omega) (show 24 * W.tokens'.length + 17 ≤ n' by omega) run
      exact ⟨s', ⟨c.rest, id''⟩, run', same, .behind passed c.rest,
        ⟨Nat.le_of_lt fewer, fun _ => fewer⟩, ⟨Nat.le_of_lt fewer', fun _ => fewer'⟩⟩
    · exact h _ _ _ id' _ _ (.before fun _ => here) short short' run
  | behind passed => exact h _ _ _ id' _ _ (.behind passed _) short short' run

/-- The rules for statements go on side by side at the depth `n`. -/
structure RewritesStatements (W : Pairing) (n : Nat) : Prop where
  declaration {n' len len' : Nat} (deep : Deep 18 len n) (deep' : Deep 18 len' n') :
    Rewrites W False len len' True (Stmt.relabel .numberless) (declaration n) (declaration n')
  classDecl {n' len len' : Nat} (deep : Deep 1 len n) (deep' : Deep 1 len' n') :
    Rewrites W False len len' True (Stmt.relabel .numberless) (classDecl n) (classDecl n')
  methods {n' len len' : Nat} (deep : Deep 2 len n) (deep' : Deep 2 len' n') :
    Rewrites W False len len' True (FunctionDecl.relabelList .numberless) (methods n) (methods n')
  function {n' len len' : Nat} (routine : Routine) (deep : Deep 1 len n) (deep' : Deep 1 len' n') :
    Rewrites W False len len' True (FunctionDecl.relabel .numberless) (function n routine)
      (function n' routine)
  block {n' len len' : Nat} (deep : Deep 19 len n) (deep' : Deep 19 len' n') :
    Rewrites W False len len' True (Stmt.relabelList .numberless) (block n) (block n')
  statement {n' len len' : Nat} (deep : Deep 17 len n) (deep' : Deep 17 len' n') :
    Rewrites W False len len' True (Stmt.relabel .numberless) (statement n) (statement n')
  forStmt {n' len len' : Nat} (deep : Deep 1 len n) (deep' : Deep 1 len' n') :
    Rewrites W False len len' True (Stmt.relabel .numberless) (forStmt n) (forStmt n')
  ifStmt {n' len len' : Nat} (deep : Deep 1 len n) (deep' : Deep 1 len' n') :
    Rewrites W False len len' True (Stmt.relabel .numberless) (ifStmt n) (ifStmt n')

section
variable {n n' : Nat} (ih : RewritesStatements W n)
include ih

theorem rewrites_declaration (deep : Deep 18 len (n + 1)) (deep' : Deep 18 len' (n' + 1)) :
    Rewrites W False len len' True (Stmt.relabel .numberless) (declaration (n + 1))
      (declaration (n' + 1)) := by
  refine rewrites_mark (fun _ => ?_) ?_ (.inr (by simp [TokenKind.BeginsLoop]))
  · exact (ih.classDecl (by omega) (by omega)).untaken
  refine rewrites_mark (fun _ => ?_) ?_ (.inr (by simp [TokenKind.BeginsLoop]))
  · exact (ih.function .function (by omega) (by omega)).bind fun decl decl' same =>
      rewrites_pure (congrArg Stmt.function same)
  refine rewrites_mark (fun _ => ?_) ?_ (.inr (by simp [TokenKind.BeginsLoop]))
  · exact (steady_varDecl.rewritesAny (by omega) (by omega)).untaken
  · exact ih.statement (by omega) (by omega)

theorem rewrites_classDecl (deep : Deep 1 len (n + 1)) (deep' : Deep 1 len' (n' + 1)) :
    Rewrites W False len len' True (Stmt.relabel .numberless) (classDecl (n + 1))
      (classDecl (n' + 1)) := by
  refine (rewrites_name .class).bind fun name _ same => ?_
  obtain rfl : _ = name := same
  refine rewrites_superclass.bindOptional fun superclass superclass' same => ?_
  refine (rewrites_expect .classBody).bind fun _ _ _ => ?_
  refine (ih.methods (by omega) (by omega)).bind fun methods methods' same' => rewrites_pure ?_
  rw [Stmt.relabel, same, same']
  rfl

theorem rewrites_methods (deep : Deep 2 len (n + 1)) (deep' : Deep 2 len' (n' + 1)) :
    Rewrites W False len len' True (FunctionDecl.relabelList .numberless) (methods (n + 1))
      (methods (n' + 1)) := by
  refine rewrites_mark (fun _ => rewrites_pure rfl) (rewrites_atEnd ?_)
    (.inr (by simp [TokenKind.BeginsLoop]))
  refine (ih.function .method (by omega) (by omega)).bind fun method method' same => ?_
  refine (ih.methods (by omega) (by omega)).bind fun methods methods' same' => rewrites_pure ?_
  rw [FunctionDecl.relabelList, same, same', FunctionDecl.relabelList]

theorem rewrites_function (routine : Routine) (deep : Deep 1 len (n + 1))
    (deep' : Deep 1 len' (n' + 1)) :
    Rewrites W False len len' True (FunctionDecl.relabel .numberless) (function (n + 1) routine)
      (function (n' + 1) routine) := by
  refine (rewrites_name (.routine routine)).bind fun name _ same => ?_
  obtain rfl : _ = name := same
  refine (rewrites_expect (.parameters routine)).bind fun _ _ _ => ?_
  refine (steady_parameters.rewritesAny (by omega) (by omega)).bind fun params _ same => ?_
  obtain rfl : _ = params := same
  refine (rewrites_expect (.body routine)).bind fun _ _ _ => ?_
  refine (ih.block (by omega) (by omega)).bind fun body body' same => rewrites_pure ?_
  rw [FunctionDecl.relabel, same]
  rfl

theorem rewrites_block (deep : Deep 19 len (n + 1)) (deep' : Deep 19 len' (n' + 1)) :
    Rewrites W False len len' True (Stmt.relabelList .numberless) (block (n + 1))
      (block (n' + 1)) := by
  refine rewrites_mark (fun _ => rewrites_pure rfl) (rewrites_atEnd ?_)
    (.inr (by simp [TokenKind.BeginsLoop]))
  refine (ih.declaration (by omega) (by omega)).bind fun first first' same => ?_
  refine (ih.block (by omega) (by omega)).bind fun later later' same' => rewrites_pure ?_
  rw [Stmt.relabelList, same, same', Stmt.relabelList]

theorem rewrites_statement (deep : Deep 17 len (n + 1)) (deep' : Deep 17 len' (n' + 1)) :
    Rewrites W False len len' True (Stmt.relabel .numberless) (statement (n + 1))
      (statement (n' + 1)) := by
  refine rewrites_statement_of_ahead deep deep' ?_
  refine rewrites_mark (fun _ => ?_) ?_ (.inl trivial)
  · exact (ih.forStmt (by omega) (by omega)).untaken
  refine rewrites_mark (fun _ => ?_) ?_ (.inl trivial)
  · exact (ih.ifStmt (by omega) (by omega)).untaken
  refine rewrites_mark (fun _ => ?_) ?_ (.inl trivial)
  · exact rewrites_ended .printEnd (by omega) (by omega) fun e e' _ same =>
      rewrites_pure (congrArg Stmt.print same)
  refine rewrites_mark (fun keyword => ?_) ?_ (.inl trivial)
  · refine ((steady_optionalExpression .returnEnd).rewritesAny (by omega) (by omega)).bind
      fun value value' same => rewrites_pure ?_
    rw [Stmt.relabel, same, Stmt.relabel]
  refine rewrites_mark (fun _ => ?_) ?_ (.inl trivial)
  · refine (rewrites_expect .whileCondition).bind fun _ _ _ => ?_
    refine rewrites_ended .whileConditionEnd (by omega) (by omega) fun condition _ _ same => ?_
    refine (ih.statement (by omega) (by omega)).bind fun body body' same' => rewrites_pure ?_
    rw [Stmt.relabel, same, same', Stmt.relabel]
  refine rewrites_mark (fun _ => ?_) ?_ (.inl trivial)
  · exact (ih.block (by omega) (by omega)).bind fun body body' same =>
      rewrites_pure (congrArg Stmt.block same)
  · exact steady_expressionStmt.rewritesAny (by omega) (by omega)

theorem rewrites_forStmt (deep : Deep 1 len (n + 1)) (deep' : Deep 1 len' (n' + 1)) :
    Rewrites W False len len' True (Stmt.relabel .numberless) (forStmt (n + 1))
      (forStmt (n' + 1)) := by
  refine (rewrites_expect .forClauses).bind fun _ _ _ => ?_
  refine (steady_forInitializer.rewritesAny (by omega) (by omega)).bind
    fun initializer _ same₁ => ?_
  refine ((steady_optionalExpression .forCondition).rewritesAny (by omega) (by omega)).bind
    fun condition _ same₂ => ?_
  refine ((steady_optionalExpression .forClausesEnd).rewritesAny (by omega) (by omega)).bind
    fun increment _ same₃ => ?_
  refine (ih.statement (by omega) (by omega)).bind fun body _ same₄ => rewrites_pure ?_
  rw [loop_relabel, loop_relabel, same₁, same₂, same₃, same₄]

theorem rewrites_ifStmt (deep : Deep 1 len (n + 1)) (deep' : Deep 1 len' (n' + 1)) :
    Rewrites W False len len' True (Stmt.relabel .numberless) (ifStmt (n + 1))
      (ifStmt (n' + 1)) := by
  refine (rewrites_expect .ifCondition).bind fun _ _ _ => ?_
  refine rewrites_ended .ifConditionEnd (by omega) (by omega) fun condition _ _ same => ?_
  refine (ih.statement (by omega) (by omega)).bind fun thenBranch _ same' => ?_
  refine rewrites_mark (fun _ => ?_) (rewrites_pure ?_) (.inr (by simp [TokenKind.BeginsLoop]))
  · refine (ih.statement (by omega) (by omega)).bind fun elseBranch _ same'' => rewrites_pure ?_
    rw [Stmt.relabel, same, same', same'', Stmt.relabel]
  · rw [Stmt.relabel, same, same', Stmt.relabel]

end

/-- A rule is deep enough unless there are no tokens to read. -/
theorem rewrites_of_succ {rank : Nat} (positive : 0 < rank) {r : Rule α} (r' : Nat → Rule α)
    (h : ∀ {n'}, Deep rank len' (n' + 1) → Rewrites W ahead len len' takes u r (r' (n' + 1)))
    {n' : Nat} (deep' : Deep rank len' n') : Rewrites W ahead len len' takes u r (r' n') := by
  cases n' with
  | zero =>
    intro _ _ _ _ _ _ _ _ short' _
    omega
  | succ n' => exact h deep'

theorem rewritesStatements (W : Pairing) (n : Nat) : RewritesStatements W n := by
  induction n with
  | zero =>
    constructor
    all_goals
      intros
      exact rewrites_fail
  | succ n ih =>
    constructor
    all_goals intro _ _ _
    case declaration =>
      exact fun deep => rewrites_of_succ (by decide) declaration (rewrites_declaration ih deep)
    case classDecl =>
      exact fun deep => rewrites_of_succ (by decide) classDecl (rewrites_classDecl ih deep)
    case methods =>
      exact fun deep => rewrites_of_succ (by decide) methods (rewrites_methods ih deep)
    case function =>
      exact fun routine deep =>
        rewrites_of_succ (by decide) (function · routine) (rewrites_function ih routine deep)
    case block => exact fun deep => rewrites_of_succ (by decide) block (rewrites_block ih deep)
    case statement =>
      exact fun deep => rewrites_of_succ (by decide) statement (rewrites_statement ih deep)
    case forStmt =>
      exact fun deep => rewrites_of_succ (by decide) forStmt (rewrites_forStmt ih deep)
    case ifStmt => exact fun deep => rewrites_of_succ (by decide) ifStmt (rewrites_ifStmt ih deep)

end Rule

/-! ## Programs -/

namespace Program

theorem readFrom_nil (n rounds : Nat) (id : ExprId) :
    readFrom n rounds ⟨[], id⟩ = ⟨[], [], id⟩ := by
  cases rounds <;> rfl

/-- Rounds go on side by side, until both programs end. -/
theorem readFrom_beside (W : Pairing) {n n' rounds rounds' : Nat} {ts ts' : List Token}
    {id id' : ExprId} (faces : W.Faces False ts ts') (deep : Deep 18 (ts.length + 1) n)
    (deep' : Deep 18 (ts'.length + 1) n') (enough : ts.length ≤ rounds)
    (enough' : ts'.length ≤ rounds') (parses : (readFrom n rounds ⟨ts, id⟩).errors = []) :
    (readFrom n' rounds' ⟨ts', id'⟩).errors = [] ∧
      Stmt.relabelList .numberless (readFrom n' rounds' ⟨ts', id'⟩).statements =
        Stmt.relabelList .numberless (readFrom n rounds ⟨ts, id⟩).statements := by
  induction rounds generalizing rounds' ts ts' id id' with
  | zero =>
    obtain rfl : ts = [] := List.length_eq_zero_iff.mp (Nat.le_zero.mp enough)
    obtain ⟨_, _, _, ⟨⟩, -⟩ | ⟨-, rfl⟩ | ⟨-, ⟨_, _, ⟨⟩, -⟩, -⟩ := faces.heads
    rw [readFrom_nil, readFrom_nil]
    exact ⟨rfl, rfl⟩
  | succ rounds ih =>
    cases rounds' with
    | zero =>
      obtain rfl : ts' = [] := List.length_eq_zero_iff.mp (Nat.le_zero.mp enough')
      obtain ⟨_, _, _, -, ⟨⟩, -⟩ | ⟨rfl, -⟩ | ⟨-, -, _, _, ⟨⟩, -⟩ := faces.heads
      rw [readFrom_nil, readFrom_nil]
      exact ⟨rfl, rfl⟩
    | succ rounds' =>
      unfold readFrom at parses ⊢
      rw [faces.atEnd_eq id id']
      split
      · exact ⟨rfl, rfl⟩
      · rename_i more
        rw [if_neg more] at parses
        split at parses
        · rename_i s c read
          obtain ⟨s', c', read', same, faces', less, less'⟩ :=
            ((Rule.rewritesStatements W n).declaration deep deep') ts ts' id id' s c faces
              (Nat.lt_succ_self _) (Nat.lt_succ_self _) read
          have fewer := less.2 trivial
          have fewer' := less'.2 trivial
          obtain ⟨parses', rest⟩ : (readFrom n' rounds' c').errors = [] ∧ _ = _ :=
            ih faces' (by omega) (by omega) (by omega) (by omega) parses
          rw [read']
          refine ⟨parses', ?_⟩
          show Stmt.relabelList .numberless (s' :: _) = Stmt.relabelList .numberless (s :: _)
          rw [Stmt.relabelList, same, rest, Stmt.relabelList]
        · cases parses

end Program

end Lox
