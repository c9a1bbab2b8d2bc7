import Lox.Proofs.Syntax.Recovery

/-!
# Programs on other lines

Rules look at the kinds of tokens and never at their lines. So a program whose tokens stand on other
lines is read as the same statements on other lines, with the same errors at the same tokens
(`Program.ofTokens_moved`).
-/

namespace Lox

/-- Other lines, and nothing before. -/
def Setting.onLines (line : Nat → Nat) : Setting :=
  ⟨0, line⟩

section
variable (S : Setting)

/-- The cursor where the tokens stand on other lines. -/
def Cursor.moved (c : Cursor) : Cursor :=
  ⟨S.moved c.rest, c.nextId + S.ids⟩

/-- The error where the tokens stand on other lines. -/
def SyntaxError.moved (e : SyntaxError) : SyntaxError :=
  { e with rest := S.moved e.rest }

/-- The program that is read where the tokens stand on other lines. -/
def Program.moved (p : Program) : Program :=
  ⟨Stmt.relabelList S.labels p.statements, p.errors.map (SyntaxError.moved S), p.nextId + S.ids⟩

/-! ## Rounds -/

theorem length_moved (ts : List Token) : (S.moved ts).length = ts.length :=
  List.length_map _

theorem kind_headD_moved (ts : List Token) :
    ((S.moved ts).headD .afterLast).kind = (ts.headD .afterLast).kind := by
  cases ts <;> rfl

theorem Cursor.atEnd_moved (c : Cursor) : (c.moved S).atEnd = c.atEnd :=
  Cursor.atEnd_of_kind (kind_headD_moved S c.rest) _ _

theorem resumeFrom_moved (previous : TokenKind) (ts : List Token) :
    resumeFrom previous (S.moved ts) = S.moved (resumeFrom previous ts) := by
  induction ts generalizing previous with
  | nil => rfl
  | cons t ts ih =>
    obtain ⟨kind, lexeme, line⟩ := t
    rw [Setting.moved_cons]
    unfold resumeFrom
    dsimp only [Token.relabel]
    split
    · rfl
    · rfl
    · split
      · rfl
      · exact ih _

theorem resume_moved (ts : List Token) : resume (S.moved ts) = S.moved (resume ts) := by
  cases ts with
  | nil => rfl
  | cons t ts =>
    obtain ⟨kind, lexeme, line⟩ := t
    rw [Setting.moved_cons]
    unfold resume
    dsimp only [Token.relabel]
    split
    · rfl
    · exact resumeFrom_moved S _ ts

end

namespace Program

variable {S : Setting} {n : Nat} {c c' : Cursor} {s : Stmt} {e : SyntaxError} {p : Program}

theorem read_moved (deep : Deep 18 (c.rest.length + 1) n)
    (read : Rule.declaration n c = .ok s c') :
    Rule.declaration n (c.moved S) = .ok (s.relabel S.labels) (c'.moved S) := by
  obtain ⟨ts, id⟩ := c
  obtain ⟨taken, rfl, -, -, again⟩ :=
    ((Rule.localStatements S n).declaration deep deep).reads (Nat.lt_succ_self _) read
  have same := again (S.moved c'.rest)
    (by rw [← Setting.moved_append, length_moved]; exact Nat.lt_succ_self _)
    (.inl (kind_headD_moved S _))
  rwa [← Setting.moved_append] at same

theorem failed_moved (deep : Deep 18 (c.rest.length + 1) n)
    (failed : Rule.declaration n c = .error e c') :
    Rule.declaration n (c.moved S) = .error (e.moved S) (c'.moved S) := by
  obtain ⟨ts, id⟩ := c
  obtain ⟨cause, blamed⟩ := e
  obtain ⟨before, after, rfl, rfl, -, again⟩ :=
    ((Rule.localStatements S n).declaration deep deep).fails (Nat.lt_succ_self _) failed
  have same := again (S.moved c'.rest)
    (by rw [← Setting.moved_append, ← Setting.moved_append, length_moved]; exact Nat.lt_succ_self _)
    (kind_headD_moved S _)
  rwa [← Setting.moved_append, ← Setting.moved_append] at same

/-- Where its tokens stand on other lines, a program is read in the same rounds. -/
theorem Reads.moved (reads : Reads n c p) (deep : Deep 18 (c.rest.length + 1) n) :
    Reads n (c.moved S) (p.moved S) := by
  induction reads with
  | @ended c atEnd => exact .ended (by rwa [Cursor.atEnd_moved])
  | @declaration c s c' p more read _ ih =>
    have less := (leaving_of_read deep read).2
    have rest : Reads n (c'.moved S) (p.moved S) := ih (by omega)
    exact .declaration (by rwa [Cursor.atEnd_moved]) (read_moved deep read) rest
  | @recovery c e c' p more failed _ ih =>
    have less := ((Round.recovery more failed).leaving deep).2
    have rest : Reads n ⟨S.moved (resume c'.rest), c'.nextId + S.ids⟩ (p.moved S) :=
      ih (by dsimp only at less ⊢; omega)
    rw [← resume_moved] at rest
    have recovers : Reads n (c.moved S)
        { p.moved S with errors := e.moved S :: (p.moved S).errors } :=
      .recovery (by rwa [Cursor.atEnd_moved]) (failed_moved deep failed) rest
    exact recovers

/-- A program whose tokens stand on other lines is read as the same program on these lines. -/
theorem ofTokens_moved (line : Nat → Nat) (tokens : List Token) :
    ofTokens ((Setting.onLines line).moved tokens) =
      (ofTokens tokens).moved (.onLines line) := by
  have again := (reads_ofTokens tokens).moved (S := .onLines line) (deep_depth tokens)
  refine again.readFrom_eq ?_ (deep_depth _) (Nat.le_refl _)
  dsimp only [Cursor.moved]
  rw [length_moved]
  exact deep_depth tokens

end Program

end Lox
