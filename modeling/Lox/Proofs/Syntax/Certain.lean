import Lox.Proofs.Syntax.Recovery

/-!
# Errors are certain

A token is blamed only when nothing could follow it and make a program of what was read. The
declarations before the first error are read from any tokens that begin in the same way, up to the
blamed token (`Program.read_again`); and the declaration in which it stands fails on all of them
(`Program.fails_again`), even if it went on after that token: whatever is assigned to something that
is no target, the assignment fails.
-/

namespace Lox

namespace Program

variable {n n' : Nat} {front rest ts' : List Token} {id : ExprId}

/-- What is left after `front` does not matter, except for the kind of the next token. -/
theorem kind_headD_front (next : (ts'.headD .afterLast).kind = (rest.headD .afterLast).kind)
    (front : List Token) :
    ((front ++ ts').headD .afterLast).kind = ((front ++ rest).headD .afterLast).kind := by
  have same := kind_headD_append (.behind 0) front next
  rwa [Setting.behind_moved] at same

/-- A declaration that leaves some of the tokens in `front` is read in the same way whatever comes
after these, if it begins with a token of the same kind. -/
theorem read_again {left : List Token} {id₁ : ExprId} {s : Stmt}
    (deep : Deep 18 ((front ++ rest).length + 1) n) (deep' : Deep 18 ((front ++ ts').length + 1) n')
    (next : (ts'.headD .afterLast).kind = (rest.headD .afterLast).kind)
    (read : Rule.declaration n ⟨front ++ rest, id⟩ = .ok s ⟨left ++ rest, id₁⟩) :
    left <:+ front ∧ Rule.declaration n' ⟨front ++ ts', id⟩ = .ok s ⟨left ++ ts', id₁⟩ := by
  obtain ⟨taken, split, -, -, again⟩ :=
    ((Rule.localStatements (.behind 0) n).declaration deep deep').reads (Nat.lt_succ_self _) read
  rw [← List.append_assoc] at split
  obtain rfl := List.append_cancel_right split
  refine ⟨List.suffix_append taken left, ?_⟩
  have read' := again (left ++ ts')
    (by rw [Setting.behind_moved, ← List.append_assoc]; exact Nat.lt_succ_self _)
    (.inl (kind_headD_front next left))
  have same : s.relabel (Setting.behind 0).labels = s := s.relabel_same
  rwa [Setting.behind_moved, ← List.append_assoc, same] at read'

/-- A declaration in which a token is blamed fails whatever comes after the tokens before that one,
if it begins with a token of the same kind. -/
theorem fails_again {e : SyntaxError} {c : Cursor} (deep : Deep 18 ((front ++ e.rest).length + 1) n)
    (deep' : Deep 18 ((front ++ ts').length + 1) n')
    (next : (ts'.headD .afterLast).kind = (e.rest.headD .afterLast).kind)
    (failed : Rule.declaration n ⟨front ++ e.rest, id⟩ = .error e c) :
    Rule.Fails (Rule.declaration n') ⟨front ++ ts', id⟩ := by
  obtain ⟨before, split, fails⟩ :=
    ((Rule.localStatements (.behind 0) n).declaration deep deep').certain (Nat.lt_succ_self _)
      failed
  obtain rfl := List.append_cancel_right split
  have fails' := fails ts' (by rw [Setting.behind_moved]; exact Nat.lt_succ_self _) next
  rwa [Setting.behind_moved] at fails'

/-- With other tokens from the first blamed one on, the first of the same kind, there is an error
too. -/
theorem Reads.certain {e : SyntaxError} {es : List SyntaxError} {p p' : Program}
    (reads : Reads n ⟨front ++ e.rest, id⟩ p) (first : p.errors = e :: es)
    (next : (ts'.headD .afterLast).kind = (e.rest.headD .afterLast).kind)
    (deep : Deep 18 ((front ++ e.rest).length + 1) n)
    (deep' : Deep 18 ((front ++ ts').length + 1) n') (reads' : Reads n' ⟨front ++ ts', id⟩ p') :
    p'.errors ≠ [] := by
  generalize start : (⟨front ++ e.rest, id⟩ : Cursor) = c at reads
  induction reads generalizing front id p' with
  | ended _ => cases first
  | @declaration c s c₁ p more read others ih =>
    subst start
    obtain ⟨rest₁, id₁⟩ := c₁
    have less := (leaving_of_read deep read).2
    dsimp only at less
    obtain ⟨left, split, -⟩ :=
      (others.errors (by dsimp only; omega)).1 e (first ▸ List.mem_cons_self)
    dsimp only at split
    subst split
    obtain ⟨inside, read'⟩ := read_again deep deep' next read
    have more' := (Cursor.atEnd_of_kind (kind_headD_front next front) id id).trans more
    cases reads' with
    | ended atEnd => cases more'.symm.trans atEnd
    | declaration _ read'' others' =>
      cases read'.symm.trans read''
      have fewer := inside.length_le
      rw [List.length_append] at deep deep'
      have deep₁ : Deep 18 ((left ++ e.rest).length + 1) n := by rw [List.length_append]; omega
      have deep₂ : Deep 18 ((left ++ ts').length + 1) n' := by rw [List.length_append]; omega
      have later := ih first deep₁ deep₂ others' rfl
      exact later
    | recovery _ failed' _ => cases read'.symm.trans failed'
  | recovery more failed _ _ =>
    subst start
    cases first
    obtain ⟨e', c', failed'⟩ := fails_again deep deep' next failed
    have more' := (Cursor.atEnd_of_kind (kind_headD_front next front) id id).trans more
    cases reads' with
    | ended atEnd => cases more'.symm.trans atEnd
    | declaration _ read'' _ => cases failed'.symm.trans read''
    | recovery _ _ _ => exact List.cons_ne_nil _ _

theorem rest_eq_drop {tokens : List Token} {e : SyntaxError}
    (isError : e ∈ (ofTokens tokens).errors) : e.rest = tokens.drop (e.position tokens) :=
  (((reads_ofTokens tokens).errors (deep_depth tokens)).1 e isError).eq_drop

theorem ofTokens_certain {e : SyntaxError} {es : List SyntaxError}
    (first : (ofTokens (front ++ e.rest)).errors = e :: es)
    (next : (ts'.headD .afterLast).kind = (e.rest.headD .afterLast).kind) :
    (ofTokens (front ++ ts')).errors ≠ [] :=
  (reads_ofTokens _).certain first next (deep_depth _) (deep_depth _) (reads_ofTokens _)

theorem statements?_eq_error {p : Program} {errors : List SyntaxError} :
    p.statements? = .error errors ↔ p.errors = errors ∧ errors ≠ [] := by
  unfold statements?
  split
  · rename_i none
    rw [List.isEmpty_iff] at none
    exact iff_of_false nofun fun h => h.2 (h.1.symm.trans none)
  · rename_i found
    rw [List.isEmpty_iff] at found
    constructor
    · rintro ⟨⟩
      exact ⟨rfl, found⟩
    · rintro ⟨rfl, -⟩
      rfl

end Program

/-- Tokens that begin with those of a rejected program up to the first one that is blamed, it
included, are rejected as well. So a token is never blamed while what was read up to it, with the
token itself, could still be completed to a program. -/
theorem errors_are_certain {tokens tokens' : List Token} {e : SyntaxError} {es : List SyntaxError}
    (rejected : (Program.ofTokens tokens).statements? = .error (e :: es))
    (same : tokens'.take (e.position tokens + 1) = tokens.take (e.position tokens + 1)) :
    ∃ e' es', (Program.ofTokens tokens').statements? = .error (e' :: es') := by
  obtain ⟨first, -⟩ := Program.statements?_eq_error.mp rejected
  have blamed := Program.rest_eq_drop (first ▸ List.mem_cons_self)
  generalize e.position tokens = i at same blamed
  have front : tokens'.take i = tokens.take i := by
    have shorter := congrArg (List.take i) same
    rwa [List.take_take, List.take_take, Nat.min_eq_left (Nat.le_succ i)] at shorter
  have next : (tokens'.drop i).headD .afterLast = e.rest.headD .afterLast := by
    have last := congrArg (·[i]?) same
    simp only [List.getElem?_take_of_lt (Nat.lt_succ_self i)] at last
    rw [blamed, List.headD_eq_head?_getD, List.headD_eq_head?_getD, List.head?_drop,
      List.head?_drop, last]
  have split : tokens.take i ++ e.rest = tokens := by rw [blamed, List.take_append_drop]
  have split' : tokens.take i ++ tokens'.drop i = tokens' := by rw [← front, List.take_append_drop]
  rw [← split] at first
  have certain := Program.ofTokens_certain first (congrArg Token.kind next)
  rw [split'] at certain
  obtain ⟨e', es', isError⟩ := List.exists_cons_of_ne_nil certain
  exact ⟨e', es', Program.statements?_eq_error.mpr ⟨isError, List.cons_ne_nil _ _⟩⟩

/-- In `nil = a;` the equals sign is blamed, and there is an error too where nothing is assigned. -/
theorem assignment_to_constant_is_certain : ∃ e e' es',
    (Program.ofTokens (tokensOf "nil = a;")).statements? = .error [e] ∧
    e.cause = .invalidAssignment ∧ e.position (tokensOf "nil = a;") = 1 ∧
    (tokensOf "nil = ;").take 2 = (tokensOf "nil = a;").take 2 ∧
    (Program.ofTokens (tokensOf "nil = ;")).statements? = .error (e' :: es') := by
  have rejected : (Program.ofTokens (tokensOf "nil = a;")).statements? =
      .error [⟨.invalidAssignment, [⟨.symbol .equal, "=", 1⟩, ⟨.identifier, "a", 1⟩,
        ⟨.symbol .semicolon, ";", 1⟩, ⟨.eof, "", 1⟩]⟩] := by
    cbv
  have position : SyntaxError.position (tokensOf "nil = a;") ⟨.invalidAssignment,
      [⟨.symbol .equal, "=", 1⟩, ⟨.identifier, "a", 1⟩, ⟨.symbol .semicolon, ";", 1⟩,
        ⟨.eof, "", 1⟩]⟩ = 1 := by
    cbv
  have same : (tokensOf "nil = ;").take 2 = (tokensOf "nil = a;").take 2 := by cbv
  have rejected' : ∃ e' es',
      (Program.ofTokens (tokensOf "nil = ;")).statements? = .error (e' :: es') :=
    errors_are_certain rejected (by rw [position]; exact same)
  obtain ⟨e', es', rejected'⟩ := rejected'
  exact ⟨_, e', es', rejected, rfl, position, same, rejected'⟩

end Lox
