import Lox.Proofs.Syntax.Loops.Beside

/-!
# Loops in programs

A program in which a `for` loop stands is read as the same statements, but for the numbers of nodes,
if it is written as a `while` loop (`Program.ofTokens_rewritten`). And wherever a program without
syntax errors has the keyword `for`, it has such a loop (`Program.exists_loop`).
-/

namespace Lox

namespace Rule

variable {α β : Type}

/-! ## What a rule has read -/

section
variable {n : Nat} {ts : List Token} {id : ExprId} {c : Cursor}

theorem expect_eq_ok {place : Place} {l : Lexeme} (run : expect place ⟨ts, id⟩ = .ok l c) :
    ∃ t, ts = t :: c.rest ∧ t.kind = .symbol place.symbol := by
  obtain ⟨t, rest, rfl, isMark, run'⟩ | run' := run_symbol? run
  · cases run'
    exact ⟨t, rfl, isMark⟩
  · cases run'

/-- An expression has been read up to the symbol that `place` asks for. -/
theorem ended_eq_ok {place : Place} {f : Expr → β} {b : β} (deep : 24 * ts.length + 16 ≤ n)
    (run : (do let e ← expression n; let _ ← expect place; return f e) ⟨ts, id⟩ = .ok b c) :
    ∃ taken mark e id', ts = taken ++ mark :: c.rest ∧ mark.kind = .symbol place.symbol ∧
      expression n ⟨taken ++ mark :: c.rest, id⟩ = .ok e ⟨mark :: c.rest, id'⟩ := by
  obtain ⟨e, ⟨rest, id'⟩, read, run₁⟩ := bind_eq_ok.mp run
  obtain ⟨l, c', marked, run₂⟩ := bind_eq_ok.mp run₁
  obtain ⟨mark, rfl, isMark⟩ := expect_eq_ok marked
  cases run₂
  have enough : Deep 16 (ts.length + 1) n := by omega
  obtain ⟨taken, rfl, -⟩ := ((localExpressions ne_eof_of_inner (.behind 0) n).expression enough
    enough).reads (Nat.lt_succ_self _) read
  exact ⟨taken, mark, e, id', rfl, isMark, read⟩

/-- What has been read as an expression is an expression also on its own. -/
theorem takes_expression {mark : Token} {rest : List Token} {e : Expr} {id' : ExprId}
    (deep : 24 * (ts ++ mark :: rest).length + 16 ≤ n)
    (run : expression n ⟨ts ++ mark :: rest, id⟩ = .ok e ⟨mark :: rest, id'⟩) :
    Takes expression ts [] := by
  have enough : 24 * (ts ++ []).length + 16 ≤ depth ts := by
    rw [List.append_nil, depth]
    omega
  have again := steady_expression.again deep run enough (.inr ⟨rfl, TokenKind.noConfusion⟩)
  rw [List.append_nil] at again
  obtain ⟨e', id'', -, run'⟩ := again 0
  exact ⟨e', id'', run'⟩

theorem optionalExpression_eq_ok {place : Place} {e : Option Expr}
    (deep : 24 * ts.length + 16 ≤ n) (run : optionalExpression n place ⟨ts, id⟩ = .ok e c) :
    ∃ taken mark, ts = taken ++ mark :: c.rest ∧ mark.kind = .symbol place.symbol ∧
      (taken = [] ∨ Takes expression taken []) := by
  obtain ⟨t, rest, rfl, isMark, run'⟩ | run' := run_symbol? run
  · cases run'
    exact ⟨[], t, rfl, isMark, .inl rfl⟩
  · obtain ⟨taken, mark, e, id', rfl, isMark, read⟩ := ended_eq_ok (f := some) deep run'
    exact ⟨taken, mark, rfl, isMark, .inr (takes_expression deep read)⟩

theorem varDecl_eq_ok {s : Stmt} (deep : 24 * ts.length + 1 ≤ n)
    (run : varDecl n ⟨ts, id⟩ = .ok s c) :
    ∃ taken mark, ts = taken ++ mark :: c.rest ∧ mark.kind = .symbol .semicolon := by
  obtain ⟨name, ⟨rest, id'⟩, named, run₁⟩ := bind_eq_ok.mp run
  have isLocal : Local (.behind 0) (· ≠ .eof) (fun _ => True) (ts.length + 1) 0 True _
    (Rule.name .variable) (Rule.name .variable) := local_name ne_eof_of_inner .variable
  obtain ⟨taken, rfl, -, some, -⟩ := isLocal.reads (Nat.lt_succ_self _) named
  have fewer := List.length_pos_iff.mpr (some trivial)
  rw [List.length_append] at deep
  obtain ⟨t, rest, rfl, -, run₂⟩ | run₂ := run_symbol? run₁
  · rw [List.length_cons] at deep
    obtain ⟨value, mark, -, -, rfl, isMark, -⟩ := ended_eq_ok (by omega) run₂
    exact ⟨taken ++ t :: value, mark, by simp, isMark⟩
  · obtain ⟨l, c', marked, run₃⟩ := bind_eq_ok.mp (show (expect .variableEnd >>= _) _ = _ from run₂)
    obtain ⟨mark, rfl, isMark⟩ := expect_eq_ok marked
    cases run₃
    exact ⟨taken, mark, rfl, isMark⟩

theorem forInitializer_eq_ok {initializer : Option Stmt} (deep : 24 * ts.length + 16 ≤ n)
    (run : forInitializer n ⟨ts, id⟩ = .ok initializer c) :
    ∃ taken mark, ts = taken ++ mark :: c.rest ∧ mark.kind = .symbol .semicolon ∧
      Takes forInitializer (taken ++ [mark]) [] := by
  suffices ends : ∃ taken mark, ts = taken ++ mark :: c.rest ∧ mark.kind = .symbol .semicolon by
    obtain ⟨taken, mark, rfl, isMark⟩ := ends
    rw [List.append_cons] at run deep
    have enough : 24 * (taken ++ [mark] ++ []).length + 16 ≤ depth (taken ++ [mark]) := by
      rw [List.append_nil, depth]
      omega
    have again := steady_forInitializer.again deep run enough anyEnd
    rw [List.append_nil] at again
    obtain ⟨start, id', -, run'⟩ := again 0
    exact ⟨taken, mark, rfl, isMark, start, id', run'⟩
  obtain ⟨t, rfl, isMark, -⟩ | ⟨t, rest, s, rfl, -, -, run'⟩ | ⟨s, -, run'⟩ :=
    forInitializer_cases run
  · exact ⟨[], t, rfl, isMark⟩
  · rw [List.length_cons] at deep
    obtain ⟨taken, mark, rfl, isMark⟩ := varDecl_eq_ok (by omega) run'
    exact ⟨t :: taken, mark, rfl, isMark⟩
  · obtain ⟨taken, mark, -, -, rfl, isMark, -⟩ := ended_eq_ok deep run'
    exact ⟨taken, mark, rfl, isMark⟩

/-- What has been read as a statement is one also at the depth of its tokens. -/
theorem takes_statement {s : Stmt} (deep : 24 * ts.length + 17 ≤ n)
    (run : statement n ⟨ts, id⟩ = .ok s c) :
    ∃ taken, ts = taken ++ c.rest ∧ Takes statement (taken ++ c.rest) c.rest := by
  have deep' : Deep 17 (ts.length + 1) n := by omega
  obtain ⟨taken, rfl, -⟩ :=
    ((localStatements (.behind 0) n).statement deep' deep').reads (Nat.lt_succ_self _) run
  have enough : 24 * (taken ++ c.rest).length + 17 ≤ depth (taken ++ c.rest) := by
    unfold depth
    omega
  obtain ⟨s', id', -, run'⟩ := steady_statement.again deep run enough (.inl rfl) 0
  exact ⟨taken, rfl, s', id', run'⟩

/-- What begins with `for` and has been read as a statement is a loop. -/
theorem exists_loop_of_statement {t : Token} {s : Stmt} (isFor : t.kind = .keyword .for)
    (deep : 24 * (t :: ts).length + 17 ≤ n) (run : statement n ⟨t :: ts, id⟩ = .ok s c) :
    ∃ l : Loop, t :: ts = l.tokens ++ c.rest ∧ l.Stands c.rest := by
  rw [List.length_cons] at deep
  obtain ⟨n, rfl⟩ : ∃ m, n = m + 2 := ⟨n - 2, by omega⟩
  replace run : forStmt (n + 1) ⟨ts, id⟩ = .ok s c := by
    obtain ⟨kind, lexeme, line⟩ := t
    obtain rfl : kind = _ := isFor
    exact run
  obtain ⟨_, ⟨ts₁, id₁⟩, opened, run₁⟩ := bind_eq_ok.mp run
  obtain ⟨_, ⟨ts₂, id₂⟩, started, run₂⟩ := bind_eq_ok.mp run₁
  obtain ⟨_, ⟨ts₃, id₃⟩, tested, run₃⟩ := bind_eq_ok.mp run₂
  obtain ⟨_, ⟨ts₄, id₄⟩, stepped, run₄⟩ := bind_eq_ok.mp run₃
  obtain ⟨_, ⟨back, id₅⟩, done, run₅⟩ := bind_eq_ok.mp run₄
  cases run₅
  obtain ⟨opening, rfl, isOpening⟩ := expect_eq_ok opened
  simp only [List.length_cons] at deep
  obtain ⟨initializer, first, rfl, isFirst, start⟩ := forInitializer_eq_ok (by omega) started
  simp only [List.length_append, List.length_cons] at deep
  obtain ⟨condition, second, rfl, isSecond, test⟩ := optionalExpression_eq_ok (by omega) tested
  simp only [List.length_append, List.length_cons] at deep
  obtain ⟨increment, closing, rfl, isClosing, step⟩ := optionalExpression_eq_ok (by omega) stepped
  simp only [List.length_append, List.length_cons] at deep
  obtain ⟨body, rfl, inside⟩ := takes_statement (by omega) done
  refine ⟨⟨t, opening, initializer, first, condition, second, increment, closing, body⟩, ?_, ?_⟩
  · simp [Loop.tokens]
  · exact ⟨isFor, isOpening, start, isFirst, test, isSecond, step, isClosing, inside⟩

end

end Rule

/-! ## A loop written in another way -/

/-- A loop before the tokens `back`, and the marks of a `while` loop. -/
structure Rewriting where
  loop : Loop
  back : List Token
  outer : TokenKind → Token
  inner : TokenKind → Token
  stands : loop.Stands back
  made : ∀ kind, (outer kind).kind = kind
  made' : ∀ kind, (inner kind).kind = kind

namespace Rewriting

variable (W : Rewriting)

/-- With the `for` loop. -/
def tokens : List Token :=
  W.loop.tokens ++ W.back

/-- With the `while` loop. -/
def tokens' : List Token :=
  W.loop.written W.outer W.inner ++ W.back

/-- The `while` loop begins with its keyword, or with the brace around it. -/
theorem written_cons : ∃ t ts, W.loop.written W.outer W.inner = t :: ts ∧ t.kind.BeginsLoop := by
  unfold Loop.written
  dsimp only
  split
  · exact ⟨_, _, rfl, .inr (.inl (W.made _))⟩
  · exact ⟨_, _, rfl, .inr (.inr (W.made _))⟩

/-- The two loops beside each other. -/
def pairing : Pairing where
  tokens := W.tokens
  tokens' := W.tokens'
  passed := True
  begins := ⟨W.loop.keyword, _, rfl, W.stands.keyword⟩
  begins' :=
    let ⟨t, ts, begun, begins⟩ := W.written_cons
    ⟨t, ts ++ W.back, congrArg (· ++ W.back) begun, begins⟩
  reads id' deep deep' run := by
    obtain ⟨start, test, step, inside, reads⟩ := W.stands.exists_reads
    obtain ⟨s₁, id₁, same, run₁⟩ := reads.tokens W.stands deep _
    obtain ⟨s₂, id₂, same', run₂⟩ := reads.written W.made W.made' deep' id'
    obtain ⟨t, ts, begun, -⟩ := W.written_cons
    cases run.symm.trans run₁
    refine ⟨trivial, ?_, ?_, s₂, id₂, same'.trans same.symm, run₂⟩
    · rw [tokens, List.length_append]
      exact Nat.lt_add_of_pos_left (Nat.succ_pos _)
    · rw [tokens', List.length_append, begun]
      exact Nat.lt_add_of_pos_left (Nat.succ_pos _)

end Rewriting

/-- The same tokens on both sides: once they have been passed, they have been found to begin with a
loop. -/
def Pairing.same {t : Token} (isFor : t.kind = .keyword .for) (ts : List Token) : Pairing where
  tokens := t :: ts
  tokens' := t :: ts
  passed := ∃ (l : Loop) (back : List Token), t :: ts = l.tokens ++ back ∧ l.Stands back
  begins := ⟨t, ts, rfl, isFor⟩
  begins' := ⟨t, ts, rfl, .inl isFor⟩
  reads {n n' id s c} id' deep deep' run := by
    obtain ⟨l, begun, stands⟩ := Rule.exists_loop_of_statement isFor deep run
    have fewer : c.rest.length < (t :: ts).length := by
      rw [begun, List.length_append]
      exact Nat.lt_add_of_pos_left (Nat.succ_pos _)
    refine ⟨⟨l, c.rest, begun, stands⟩, fewer, fewer, ?_⟩
    rw [begun] at run deep deep' ⊢
    exact Rule.steady_statement.again deep run deep' (.inl rfl) id'

namespace Program

/-- A program with a `for` loop is read as the same statements as with the `while` loop, but for the
numbers of nodes. -/
theorem ofTokens_rewritten (W : Rewriting) (front : List Token)
    (parses : (ofTokens (front ++ W.tokens)).errors = []) :
    (ofTokens (front ++ W.tokens')).errors = [] ∧
      Stmt.relabelList .numberless (ofTokens (front ++ W.tokens')).statements =
        Stmt.relabelList .numberless (ofTokens (front ++ W.tokens)).statements :=
  readFrom_beside W.pairing (.before False.elim) (deep_depth _) (deep_depth _) (Nat.le_refl _)
    (Nat.le_refl _) parses

/-- Rounds without errors come to the loop, if the input does not end before it. -/
theorem passed_of_readFrom (W : Pairing) {n rounds : Nat} {front : List Token} {id : ExprId}
    (noEnd : ∀ t ∈ front, t.kind ≠ .eof) (deep : Deep 18 ((front ++ W.tokens).length + 1) n)
    (enough : (front ++ W.tokens).length ≤ rounds)
    (parses : (readFrom n rounds ⟨front ++ W.tokens, id⟩).errors = []) : W.passed := by
  obtain ⟨t, ts, begun, isFor⟩ := W.begins
  induction rounds generalizing front id with
  | zero => simp [begun] at enough
  | succ rounds ih =>
    have more : (⟨front ++ W.tokens, id⟩ : Cursor).atEnd = false := by
      cases front with
      | nil => exact begun ▸ Cursor.atEnd_cons (isFor ▸ nofun) ts id
      | cons t' front => exact Cursor.atEnd_cons (noEnd t' List.mem_cons_self) _ id
    unfold readFrom at parses
    rw [if_neg (by simp [more])] at parses
    split at parses
    · rename_i s c read
      obtain ⟨_, _, -, -, faces, less, -⟩ :=
        (Rule.rewritesStatements W n).declaration deep (deep_depth _) _ _ id 0 s c
          (.before False.elim) (Nat.lt_succ_self _) (Nat.lt_succ_self _) read
      obtain passed | ⟨front', left⟩ := faces.passed_or
      · exact passed
      · obtain ⟨taken, same, -⟩ := ((Rule.localStatements (.behind 0) n).declaration deep
          deep).reads (Nat.lt_succ_self _) read
        obtain ⟨rest, id'⟩ := c
        obtain rfl : rest = front' ++ W.tokens := left
        rw [← List.append_assoc] at same
        obtain rfl := List.append_cancel_right same
        have fewer : (front' ++ W.tokens).length < _ := less.2 trivial
        exact ih (fun t inside => noEnd t (List.mem_append_right taken inside)) (by omega)
          (by omega) parses
    · cases parses

/-- Where a program without syntax errors has the keyword `for` before its end, it has a loop. -/
theorem exists_loop {front ts : List Token} {t : Token}
    (parses : (ofTokens (front ++ t :: ts)).errors = []) (isFor : t.kind = .keyword .for)
    (noEnd : ∀ t ∈ front, t.kind ≠ .eof) :
    ∃ (l : Loop) (back : List Token), t :: ts = l.tokens ++ back ∧ l.Stands back :=
  passed_of_readFrom (.same isFor ts) noEnd (deep_depth _) (Nat.le_refl _) parses

end Program

end Lox
