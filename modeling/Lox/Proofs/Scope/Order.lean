import Lox.Proofs.Scope.Positions
import Lox.Proofs.Scope.Relabelled
import Lox.Proofs.Syntax.Moved

/-!
# The order of errors

The errors of a survey come in the order of the tokens that they blame, but for what the order of
evaluation turns round: errors in the value of a property assignment come before those in its
object, and errors in the body of a `for` loop before those in its increment. To speak of the places
of tokens, a program is read again with each token on the line that is its place in the list
(`Token.numbered`); it is the same program, with the same errors, on other lines
(`scope_errors_follow_tokens`).
-/

namespace Lox

/-! ## Tokens at their places -/

/-- The tokens, each with its place in place of its line; `lo` is the place of the first. -/
def Token.numbered (lo : Nat) : List Token → List Token
  | [] => []
  | t :: ts => { t with line := lo } :: Token.numbered (lo + 1) ts

/-- The line of the token at a place. -/
def Token.lineAt (tokens : List Token) (place : Nat) : Nat :=
  (tokens[place]?.map Token.line).getD 0

theorem Token.getElem?_numbered (ts : List Token) (lo place : Nat) :
    (numbered lo ts)[place]? = ts[place]?.map fun t => { t with line := lo + place } := by
  induction ts generalizing lo place with
  | nil => rfl
  | cons t ts ih =>
    cases place with
    | zero => rfl
    | succ place =>
      rw [numbered, List.getElem?_cons_succ, List.getElem?_cons_succ, ih]
      simp only [Nat.add_right_comm, Nat.add_assoc]

/-- The numbered tokens before the end of the input are the tokens, on the lines that are their
places. -/
theorem Token.exists_of_numbered {tokens : List Token} {place : Nat} {t : Token}
    (here : (beforeEnd (numbered 0 tokens))[place]? = some t) :
    ∃ t', tokens[place]? = some t' ∧ t'.lexeme = t.lexeme ∧ t.line = place := by
  obtain ⟨less, same⟩ := List.getElem?_eq_some_iff.mp here
  have begins : beforeEnd (numbered 0 tokens) <+: numbered 0 tokens := List.takeWhile_prefix _
  have inside := List.prefix_iff_getElem?.mp begins place less
  rw [same, getElem?_numbered, Option.map_eq_some_iff] at inside
  obtain ⟨t', here', rfl⟩ := inside
  exact ⟨t', here', rfl, Nat.zero_add place⟩

theorem counted_numbered (tokens : List Token) :
    Counted (beforeEnd (Token.numbered 0 tokens)) 0 (beforeEnd (Token.numbered 0 tokens)) where
  numbered place t here := by
    obtain ⟨_, -, -, line⟩ := Token.exists_of_numbered here
    exact line
  behind := rfl

/-- With their own lines instead of their places, the numbered tokens are those from before. -/
theorem moved_numbered (tokens : List Token) :
    (Setting.onLines (Token.lineAt tokens)).moved (Token.numbered 0 tokens) = tokens := by
  refine List.ext_getElem? fun place => ?_
  rw [Setting.moved, List.getElem?_map, Token.getElem?_numbered, Option.map_map]
  cases here : tokens[place]? with
  | none => rfl
  | some t =>
    have line : Token.lineAt tokens (0 + place) = t.line := by
      rw [Nat.zero_add, Token.lineAt, here]
      rfl
    exact congrArg (fun line => some (⟨t.kind, t.lexeme, line⟩ : Token)) line

/-! ## Words that are exchanged -/

theorem pairwise_idxOf {words : List Lexeme} (nodup : words.Nodup) :
    words.Pairwise fun a b => words.idxOf a < words.idxOf b := by
  rw [List.pairwise_iff_getElem]
  intro i j hi hj less
  rwa [nodup.idxOf_getElem i hi, nodup.idxOf_getElem j hj]

/-- Where all words differ, a survey comes to the first of two exchanged words before the other. -/
theorem Exchanged.idxOf_lt {words : List Lexeme} {exchanges : List Exchange} {a b : Lexeme}
    (h : Exchanged exchanges a b) (nodup : words.Nodup)
    (within : ∀ x ∈ exchanges, x.Within words) : words.idxOf a < words.idxOf b := by
  obtain ⟨x, inside, first, later⟩ := h
  have parts := (pairwise_idxOf nodup).sublist (within x inside)
  exact (List.pairwise_append.mp parts).2.2 a first b later

theorem Ordered.nodup {all : List Token} {lo hi : Nat} {words : List Lexeme}
    {exchanges : List Exchange} (h : Ordered all lo hi words exchanges) : words.Nodup := by
  refine h.order.imp fun inOrder same => ?_
  subst same
  rcases inOrder with less | ⟨less, -⟩ <;> exact Nat.lt_irrefl _ less

/-- Two errors in the order in which they are reported: the first does not stand behind the second,
unless they are of two parts that are turned round; and of two parts that may be, that which is
surveyed first has its errors first. -/
def ScopeError.Follows (tokens : List Token) (exchanges : List Exchange) (e₁ e₂ : ScopeError) :
    Prop :=
  (e₁.blamed.line ≤ e₂.blamed.line ∨ TurnedRound tokens exchanges e₁.blamed e₂.blamed) ∧
    ¬ Exchanged exchanges e₂.blamed e₁.blamed

/-- The errors of statements whose words are placed follow one another. -/
theorem Stmt.errors_follow {all : List Token} {lo hi : Nat} {ss : List Stmt}
    (ordered : Ordered all lo hi (Stmt.wordsList ss) (Stmt.exchangesList ss))
    {errors : List ScopeError} (found : distancesOf ss = .error errors) :
    (∀ e ∈ errors, e.blamed.StandsIn all) ∧
      errors.Pairwise (ScopeError.Follows all (Stmt.exchangesList ss)) := by
  have reported : errors = (Stmt.surveyList ss Survey.start).errors.toList := by
    simp only [distancesOf] at found
    split at found <;> cases found
    rfl
  obtain ⟨added, e, through⟩ := Stmt.blames_list ss Survey.start
  obtain rfl : errors = added := reported.trans e
  have nodup := ordered.nodup
  have within := Stmt.within_wordsList ss
  refine ⟨fun e inside => ordered.known _ (through.mem _ (List.mem_map_of_mem inside)), ?_⟩
  have inOrder := through.pairwise (ordered.order.and (pairwise_idxOf nodup))
  refine (List.pairwise_map.mp inOrder).imp fun {e₁ e₂} h => ?_
  rcases h with same | ⟨inOrder, less⟩
  · rw [ScopeError.Follows, same]
    exact ⟨.inl (Nat.le_refl _), fun turned => Nat.lt_irrefl _ (turned.idxOf_lt nodup within)⟩
  · refine ⟨?_, fun turned => Nat.lt_asymm less (turned.idxOf_lt nodup within)⟩
    exact inOrder.imp Nat.le_of_lt And.right

/-! ## Programs -/

/-- The error with the line of its token instead of the place. -/
def ScopeError.onLines (tokens : List Token) (e : ScopeError) : ScopeError :=
  { e with blamed := { e.blamed with line := Token.lineAt tokens e.blamed.line } }

/-- A program that is read without errors is read so from its numbered tokens too. -/
theorem Program.exists_numbered {tokens : List Token} {ss : List Stmt}
    (read : (ofTokens tokens).statements? = .ok ss) :
    ∃ ss', (ofTokens (Token.numbered 0 tokens)).statements? = .ok ss' ∧
      ss = Stmt.relabelList (Setting.onLines (Token.lineAt tokens)).labels ss' := by
  obtain ⟨noErrors, rfl⟩ := statements?_eq_ok read
  have moved := ofTokens_moved (Token.lineAt tokens) (Token.numbered 0 tokens)
  rw [moved_numbered] at moved
  rw [moved] at noErrors ⊢
  have none : (ofTokens (Token.numbered 0 tokens)).errors = [] := List.map_eq_nil_iff.mp noErrors
  exact ⟨_, if_pos (List.isEmpty_iff.mpr none), rfl⟩

/-- The survey of a program finds the same errors at the places of its tokens. -/
theorem Stmt.exists_errors_numbered {tokens : List Token} {ss' : List Stmt}
    {errors : List ScopeError} (found : distancesOf
      (Stmt.relabelList (Setting.onLines (Token.lineAt tokens)).labels ss') = .error errors) :
    ∃ errors', distancesOf ss' = .error errors' ∧
      errors = errors'.map (ScopeError.onLines tokens) := by
  have differ : (Setting.onLines (Token.lineAt tokens)).labels.Separates (· ∈ Stmt.idsList ss') :=
    fun _ _ _ _ same => same
  obtain ⟨rejected, accepted⟩ := Stmt.distancesOf_relabel differ
  cases found' : distancesOf ss' with
  | error errors' => exact ⟨errors', rfl, Except.error.inj (found.symm.trans (rejected _ found'))⟩
  | ok distances =>
    obtain ⟨_, found'', -⟩ := accepted _ found'
    cases found.symm.trans found''

/-- The breaches of the scope rules are reported in the order of the tokens that they blame, but for
what the order of evaluation turns round. Where each token has its place in the list instead of its
line, the program is read as the same one, and the same errors are reported; each blames the token
at its place; and of two errors the first does not stand behind the second, unless the first is in
the value of a property assignment and the second in its object, or the first in the body of a loop
that is written with `for` and the second in its increment. Of two errors in such parts, that of the
value, or of the body, always comes first. -/
theorem scope_errors_follow_tokens {tokens : List Token} {ss : List Stmt} {errors : List ScopeError}
    (read : (Program.ofTokens tokens).statements? = .ok ss)
    (found : distancesOf ss = .error errors) :
    ∃ ss' errors', (Program.ofTokens (Token.numbered 0 tokens)).statements? = .ok ss' ∧
      distancesOf ss' = .error errors' ∧ errors = errors'.map (ScopeError.onLines tokens) ∧
      (∀ e ∈ errors', ∃ t, tokens[e.blamed.line]? = some t ∧ t.lexeme = e.blamed.text ∧
        (e.onLines tokens).blamed = ⟨t.lexeme, t.line⟩) ∧
      errors'.Pairwise (ScopeError.Follows (beforeEnd (Token.numbered 0 tokens))
        (Stmt.exchangesList ss')) := by
  obtain ⟨ss', read', rfl⟩ := Program.exists_numbered read
  obtain ⟨errors', found', same⟩ := Stmt.exists_errors_numbered found
  obtain ⟨noErrors, rfl⟩ := Program.statements?_eq_ok read'
  obtain ⟨rest, placed⟩ :=
    Program.placed_readFrom (beforeEnd (Token.numbered 0 tokens)) _ _ noErrors
  obtain ⟨hi, -, ordered⟩ := placed 0 (counted_numbered tokens)
  obtain ⟨known, follow⟩ := Stmt.errors_follow ordered found'
  refine ⟨_, errors', read', found', same, fun e inside => ?_, follow⟩
  obtain ⟨_, there, text⟩ := known e inside
  obtain ⟨t, here, same, -⟩ := Token.exists_of_numbered there
  rw [← same] at text
  refine ⟨t, here, text, ?_⟩
  simp only [ScopeError.onLines, Token.lineAt, here, text]
  rfl

/-- The value on the third line is blamed before the object on the second, and the body of the loop
before the increment on the first. -/
theorem later_lines_are_blamed_first : ∃ ss errors,
    (Program.ofTokens (tokensOf "for (;; this)\nthis\n.x = this;")).statements? = .ok ss ∧
    distancesOf ss = .error errors ∧ errors.map (·.blamed.line) = [3, 2, 1] ∧
    ¬ errors.Pairwise fun e₁ e₂ => e₁.blamed.line ≤ e₂.blamed.line := by
  let loop : List Stmt := [.while (.literal .true) (.block [
    .expression (.set (.this 1 ⟨"this", 2⟩) ⟨"x", 3⟩ (.this 2 ⟨"this", 3⟩)),
    .expression (.this 0 ⟨"this", 1⟩)])]
  let errors : List ScopeError := [⟨.thisOutsideClass, ⟨"this", 3⟩⟩,
    ⟨.thisOutsideClass, ⟨"this", 2⟩⟩, ⟨.thisOutsideClass, ⟨"this", 1⟩⟩]
  have read : (Program.ofTokens (tokensOf "for (;; this)\nthis\n.x = this;")).statements? =
      .ok loop := by cbv
  have found : distancesOf loop = .error errors := by cbv
  exact ⟨loop, errors, read, found, rfl, by decide⟩

/-- The value at the place 4 is blamed before the object at the place 0, and the statement behind
them last. -/
theorem value_is_blamed_before_object : ∃ ss errors,
    (Program.ofTokens (tokensOf "this.x = this; return;")).statements? = .ok ss ∧
    distancesOf ss = .error errors ∧
    ∃ (ss' : List Stmt) (errors' : List ScopeError),
      (Program.ofTokens (Token.numbered 0 (tokensOf "this.x = this; return;"))).statements? =
        .ok ss' ∧
      errors'.map (·.blamed.line) = [4, 0, 6] ∧
      errors = errors'.map (ScopeError.onLines (tokensOf "this.x = this; return;")) ∧
      errors'.Pairwise (ScopeError.Follows
        (beforeEnd (Token.numbered 0 (tokensOf "this.x = this; return;")))
        (Stmt.exchangesList ss')) := by
  let ss : List Stmt := [.expression (.set (.this 0 ⟨"this", 1⟩) ⟨"x", 1⟩ (.this 1 ⟨"this", 1⟩)),
    .returning ⟨"return", 1⟩ none]
  let numbered : List Stmt := [.expression (.set (.this 0 ⟨"this", 0⟩) ⟨"x", 2⟩
    (.this 1 ⟨"this", 4⟩)), .returning ⟨"return", 6⟩ none]
  have read : (Program.ofTokens (tokensOf "this.x = this; return;")).statements? = .ok ss := by cbv
  have found : distancesOf ss = .error [⟨.thisOutsideClass, ⟨"this", 1⟩⟩,
      ⟨.thisOutsideClass, ⟨"this", 1⟩⟩, ⟨.returnOutsideFunction, ⟨"return", 1⟩⟩] := by cbv
  obtain ⟨ss', errors', read', found', same, -, follow⟩ := scope_errors_follow_tokens read found
  have places : (Program.ofTokens (Token.numbered 0
      (tokensOf "this.x = this; return;"))).statements? = .ok numbered := by cbv
  cases places.symm.trans read'
  have reported : distancesOf numbered = .error [⟨.thisOutsideClass, ⟨"this", 4⟩⟩,
      ⟨.thisOutsideClass, ⟨"this", 0⟩⟩, ⟨.returnOutsideFunction, ⟨"return", 6⟩⟩] := by cbv
  cases reported.symm.trans found'
  exact ⟨ss, _, read, found, numbered, _, places, rfl, same, follow⟩

end Lox
