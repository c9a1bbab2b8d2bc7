import Mathlib.Logic.Relation
import Mathlib.Data.List.Nodup
import Lox.Proofs.Syntax.Soundness.Steps
import Lox.Proofs.Syntax.Local.Statements

/-!
# Rounds of reading

A program is read in rounds: a declaration each, or an error and the tokens that are skipped after
it (`Program.Round`). Each round takes a token, because a rule that fails at the end of the input
has taken what was before it, and otherwise a token is skipped. So reading comes to the end
(`Program.Reads`), and no error is blamed on a token that comes before one blamed earlier.
-/

namespace Lox

/-- The position of the blamed token in the input. -/
def SyntaxError.position (tokens : List Token) (e : SyntaxError) : Nat :=
  tokens.length - e.rest.length

namespace Program

/-- In one round reading goes on from `c` to `c'`. -/
inductive Round (n : Nat) : Cursor → Cursor → Prop
  | declaration {c s c'} (more : c.atEnd = false) (read : Rule.declaration n c = .ok s c') :
    Round n c c'
  | recovery {c e c'} (more : c.atEnd = false) (failed : Rule.declaration n c = .error e c') :
    Round n c { c' with rest := resume c'.rest }

/-- Reading from `c` in rounds comes to the end of the input, and gives the program. -/
inductive Reads (n : Nat) : Cursor → Program → Prop
  | ended {c} (atEnd : c.atEnd = true) : Reads n c ⟨[], [], c.nextId⟩
  | declaration {c s c' p} (more : c.atEnd = false) (read : Rule.declaration n c = .ok s c')
    (rest : Reads n c' p) : Reads n c { p with statements := s :: p.statements }
  | recovery {c e c' p} (more : c.atEnd = false) (failed : Rule.declaration n c = .error e c')
    (rest : Reads n { c' with rest := resume c'.rest } p) :
    Reads n c { p with errors := e :: p.errors }

end Program

/-! ## Taking tokens -/

/-- What is left of the tokens when some of them, and not the end of the input, have been taken. -/
def Leaving (ts rest : List Token) : Prop :=
  ∃ taken, ts = taken ++ rest ∧ ∀ t ∈ taken, t.kind ≠ .eof

namespace Leaving

variable {ts ts' ts'' : List Token}

theorem refl (ts : List Token) : Leaving ts ts :=
  ⟨[], rfl, List.forall_mem_nil _⟩

theorem trans (h : Leaving ts ts') (h' : Leaving ts' ts'') : Leaving ts ts'' := by
  obtain ⟨taken, rfl, more⟩ := h
  obtain ⟨taken', rfl, more'⟩ := h'
  exact ⟨taken ++ taken', (List.append_assoc ..).symm, List.forall_mem_append.mpr ⟨more, more'⟩⟩

theorem length_le (h : Leaving ts ts') : ts'.length ≤ ts.length := by
  obtain ⟨taken, rfl, -⟩ := h
  rw [List.length_append]
  omega

theorem eq_of_length_le (h : Leaving ts ts') (le : ts.length ≤ ts'.length) : ts = ts' := by
  obtain ⟨taken, rfl, -⟩ := h
  rw [List.length_append] at le
  rw [List.length_eq_zero_iff.mp (show taken.length = 0 by omega), List.nil_append]

theorem eq_drop (h : Leaving ts ts') : ts' = ts.drop (ts.length - ts'.length) := by
  obtain ⟨taken, rfl, -⟩ := h
  rw [List.length_append, Nat.add_sub_cancel, List.drop_left]

/-- No more is taken than the tokens before the end. -/
theorem position_le (h : Leaving ts ts') :
    ts.length - ts'.length ≤ (beforeEnd ts).length ∧
      ((ts'.headD .afterLast).kind = .eof → ts.length - ts'.length = (beforeEnd ts).length) := by
  obtain ⟨taken, rfl, more⟩ := h
  rw [List.length_append, Nat.add_sub_cancel]
  induction taken with
  | nil =>
    refine ⟨Nat.zero_le _, fun ended => ?_⟩
    cases ts' with
    | nil => rfl
    | cons t ts => exact (congrArg List.length (beforeEnd_cons_of_eof ended)).symm
  | cons t taken ih =>
    obtain ⟨first, others⟩ := List.forall_mem_cons.mp more
    rw [List.cons_append, beforeEnd_cons first, List.length_cons, List.length_cons]
    exact ⟨Nat.succ_le_succ (ih others).1, fun ended => congrArg Nat.succ ((ih others).2 ended)⟩

end Leaving

theorem leaving_resumeFrom (previous : TokenKind) (ts : List Token) :
    Leaving ts (resumeFrom previous ts) := by
  induction ts generalizing previous with
  | nil => exact .refl _
  | cons t ts ih =>
    unfold resumeFrom
    split
    · exact .refl _
    · exact .refl _
    · rename_i more
      split
      · exact .refl _
      · obtain ⟨taken, e, others⟩ := ih t.kind
        exact ⟨t :: taken, congrArg _ e, List.forall_mem_cons.mpr ⟨more, others⟩⟩

/-- A token is skipped unless the input ends. -/
theorem leaving_resume (ts : List Token) :
    Leaving ts (resume ts) ∧
      ((ts.headD .afterLast).kind = .eof ∨ (resume ts).length < ts.length) := by
  cases ts with
  | nil => exact ⟨.refl _, .inl rfl⟩
  | cons t ts =>
    simp only [resume]
    split
    · rename_i ended
      exact ⟨.refl _, .inl ended⟩
    · rename_i more
      obtain ⟨taken, e, others⟩ := leaving_resumeFrom t.kind ts
      refine ⟨⟨t :: taken, congrArg _ e, List.forall_mem_cons.mpr ⟨more, others⟩⟩, .inr ?_⟩
      exact Nat.lt_succ_of_le (leaving_resumeFrom t.kind ts).length_le

theorem Cursor.atEnd_iff {c : Cursor} : c.atEnd = true ↔ (c.rest.headD .afterLast).kind = .eof := by
  unfold atEnd token
  split <;> simp_all

namespace Program

variable {n : Nat} {c c' : Cursor} {s : Stmt} {e : SyntaxError} {p : Program}

theorem leaving_of_read (deep : Deep 18 (c.rest.length + 1) n)
    (read : Rule.declaration n c = .ok s c') :
    Leaving c.rest c'.rest ∧ c'.rest.length < c.rest.length := by
  obtain ⟨taken, e, more, some, -⟩ :=
    ((Rule.localStatements (.behind 0) n).declaration deep deep).reads (Nat.lt_succ_self _) read
  refine ⟨⟨taken, e, more⟩, ?_⟩
  have := List.length_pos_iff.mpr (some trivial)
  rw [e, List.length_append]
  omega

/-- A rule that fails has come to the token that is blamed, or beyond. -/
theorem leaving_of_failed (deep : Deep 18 (c.rest.length + 1) n)
    (failed : Rule.declaration n c = .error e c') :
    Leaving c.rest e.rest ∧ Leaving e.rest c'.rest := by
  obtain ⟨before, after, e₁, e₂, more, -⟩ :=
    ((Rule.localStatements (.behind 0) n).declaration deep deep).fails (Nat.lt_succ_self _) failed
  obtain ⟨more₁, more₂⟩ := List.forall_mem_append.mp more
  exact ⟨⟨before, e₁, more₁⟩, ⟨after, e₂, more₂⟩⟩

/-- Whatever is skipped after an error, the input ends then, or the blamed token is behind. -/
theorem leaving_of_recovery (deep : Deep 18 (c.rest.length + 1) n)
    (failed : Rule.declaration n c = .error e c') :
    Leaving c.rest (resume c'.rest) ∧
      (((resume c'.rest).headD .afterLast).kind = .eof ∨
        (resume c'.rest).length < e.rest.length) := by
  obtain ⟨reaches, goesOn⟩ := leaving_of_failed deep failed
  obtain ⟨skips, ended | less⟩ := leaving_resume c'.rest
  · have stays : resume c'.rest = c'.rest := by
      cases rest : c'.rest with
      | nil => rfl
      | cons t ts =>
        rw [rest] at ended
        rw [resume, show t.kind = .eof from ended]
    exact ⟨(reaches.trans goesOn).trans skips, .inl (by rwa [stays])⟩
  · exact ⟨(reaches.trans goesOn).trans skips, .inr (Nat.lt_of_lt_of_le less goesOn.length_le)⟩

theorem kind_ne_of_more (more : c.atEnd = false) : (c.rest.headD .afterLast).kind ≠ .eof := by
  rw [← Bool.not_eq_true, Cursor.atEnd_iff] at more
  exact more

/-- Each round takes a token at least, and not the end of the input. -/
theorem Round.leaving (deep : Deep 18 (c.rest.length + 1) n) (round : Round n c c') :
    Leaving c.rest c'.rest ∧ c'.rest.length < c.rest.length := by
  cases round with
  | declaration more read => exact leaving_of_read deep read
  | recovery more failed =>
    obtain ⟨leaving, ended | less⟩ := leaving_of_recovery deep failed
    · refine ⟨leaving, Nat.lt_of_not_le fun le => kind_ne_of_more more ?_⟩
      rw [leaving.eq_of_length_le le]
      exact ended
    · exact ⟨leaving, Nat.lt_of_lt_of_le less (leaving_of_failed deep failed).1.length_le⟩

theorem length_le_of_rounds (deep : Deep 18 (c.rest.length + 1) n)
    (path : Relation.ReflTransGen (Round n) c c') : c'.rest.length ≤ c.rest.length := by
  induction path with
  | refl => exact Nat.le_refl _
  | tail _ round ih => exact (round.leaving (by omega)).2.le.trans ih

/-- The rounds that are allowed for are enough. -/
theorem reads_readFrom {rounds : Nat} (deep : Deep 18 (c.rest.length + 1) n)
    (lasts : c.rest.length ≤ rounds) : Reads n c (readFrom n rounds c) := by
  induction rounds generalizing c with
  | zero =>
    refine .ended (Cursor.atEnd_iff.mpr ?_)
    rw [List.length_eq_zero_iff.mp (Nat.le_zero.mp lasts)]
    rfl
  | succ rounds ih =>
    rw [readFrom]
    split
    · rename_i atEnd
      exact .ended atEnd
    · rename_i more
      replace more := Bool.eq_false_iff.mpr more
      have goesOn {c' : Cursor} (round : Round n c c') : Reads n c' (readFrom n rounds c') := by
        have less := (round.leaving deep).2
        exact ih (by omega) (by omega)
      split
      · rename_i read
        exact .declaration more read (goesOn (.declaration more read))
      · rename_i failed
        exact .recovery more failed (goesOn (.recovery more failed))

theorem reads_ofTokens (ts : List Token) : Reads (depth ts) ⟨ts, 0⟩ (ofTokens ts) :=
  reads_readFrom (deep_depth ts) (Nat.le_refl _)

/-- More depth and more rounds change nothing. -/
theorem Reads.readFrom_eq (reads : Reads n c p) {n' rounds : Nat}
    (deep : Deep 18 (c.rest.length + 1) n) (deep' : Deep 18 (c.rest.length + 1) n')
    (lasts : c.rest.length ≤ rounds) : readFrom n' rounds c = p := by
  induction reads generalizing rounds with
  | ended atEnd =>
    cases rounds with
    | zero => rfl
    | succ rounds => exact if_pos atEnd
  | @declaration c s c' p more read rest ih =>
    have less := (leaving_of_read deep read).2
    obtain ⟨rounds, rfl⟩ : ∃ r, rounds = r + 1 := ⟨rounds - 1, by omega⟩
    rw [readFrom, if_neg (Bool.eq_false_iff.mp more), Rule.declaration_deeper deep deep', read]
    dsimp only
    rw [ih (by omega) (by omega) (by omega)]
  | @recovery c e c' p more failed rest ih =>
    have less := ((Round.recovery more failed).leaving deep).2
    dsimp only at less ih
    obtain ⟨rounds, rfl⟩ : ∃ r, rounds = r + 1 := ⟨rounds - 1, by omega⟩
    rw [readFrom, if_neg (Bool.eq_false_iff.mp more), Rule.declaration_deeper deep deep', failed]
    dsimp only
    rw [ih (by omega) (by omega) (by omega)]

/-! ## Errors -/

/-- Each error is blamed on a token that is still to be read, or on the end, and each later one on a
later token. -/
theorem Reads.errors (reads : Reads n c p) (deep : Deep 18 (c.rest.length + 1) n) :
    (∀ e ∈ p.errors, Leaving c.rest e.rest) ∧
      p.errors.Pairwise fun e e' => e'.rest.length < e.rest.length := by
  induction reads with
  | ended _ => exact ⟨List.forall_mem_nil _, .nil⟩
  | declaration _ read _ ih =>
    obtain ⟨leaving, less⟩ := leaving_of_read deep read
    obtain ⟨inside, later⟩ := ih (by omega)
    exact ⟨fun e there => leaving.trans (inside e there), later⟩
  | @recovery c e c' p more failed rest ih =>
    obtain ⟨leaving, behind⟩ := leaving_of_recovery deep failed
    have less := ((Round.recovery more failed).leaving deep).2
    dsimp only at less
    obtain ⟨inside, later⟩ := ih (by dsimp only; omega)
    refine ⟨List.forall_mem_cons.mpr ⟨(leaving_of_failed deep failed).1,
      fun e' there => leaving.trans (inside e' there)⟩, List.pairwise_cons.mpr ⟨?_, later⟩⟩
    intro e' there
    obtain ended | less := behind
    · -- at the end of the input there are no more rounds
      cases rest with
      | ended _ => cases there
      | declaration more _ _ => exact absurd ended (kind_ne_of_more more)
      | recovery more _ _ => exact absurd ended (kind_ne_of_more more)
    · exact Nat.lt_of_le_of_lt (inside e' there).length_le less

end Program

/-- Numbers that increase strictly are no more than there are up to the greatest. -/
theorem length_le_of_increasing {ns : List Nat} {bound : Nat} (below : ∀ n ∈ ns, n ≤ bound)
    (increasing : ns.Pairwise (· < ·)) : ns.length ≤ bound + 1 := by
  have distinct : ns.Nodup := increasing.imp Nat.ne_of_lt
  have among : ns ⊆ List.range (bound + 1) := fun n there =>
    List.mem_range.mpr (Nat.lt_succ_of_le (below n there))
  exact (List.subperm_of_subset distinct among).length_le.trans (List.length_range).le

/-- Reading comes to the end in rounds that each take a token at least, however deep rules may be
nested and however many rounds are allowed for, if it is enough for the number of tokens. Errors are
blamed on tokens in their order, and the last one perhaps on the end of the input. -/
theorem reading_makes_progress (tokens : List Token) :
    let p := Program.ofTokens tokens
    Program.Reads (depth tokens) ⟨tokens, 0⟩ p ∧
    (∀ n rounds, depth tokens ≤ n → tokens.length ≤ rounds →
      Program.readFrom n rounds ⟨tokens, 0⟩ = p) ∧
    (∀ c c', Relation.ReflTransGen (Program.Round (depth tokens)) ⟨tokens, 0⟩ c →
      Program.Round (depth tokens) c c' →
      ∃ taken, taken ≠ [] ∧ c.rest = taken ++ c'.rest ∧ ∀ t ∈ taken, t.kind ≠ .eof) ∧
    (∀ e ∈ p.errors, e.rest = tokens.drop (e.position tokens) ∧
      e.position tokens ≤ (beforeEnd tokens).length) ∧
    p.errors.Pairwise (fun e e' => e.position tokens < e'.position tokens) ∧
    (p.errors.filter (·.token.isEnd)).length ≤ 1 ∧
    p.errors.length ≤ (beforeEnd tokens).length + 1 := by
  have deep {n : Nat} (enough : depth tokens ≤ n) : Deep 18 (tokens.length + 1) n := by
    unfold depth at enough
    omega
  have reads : Program.Reads (depth tokens) ⟨tokens, 0⟩ (Program.ofTokens tokens) :=
    Program.reads_readFrom (deep (Nat.le_refl _)) (Nat.le_refl _)
  obtain ⟨inside, later⟩ := reads.errors (deep (Nat.le_refl _))
  have increasing : (Program.ofTokens tokens).errors.Pairwise
      fun e e' => e.position tokens < e'.position tokens := by
    refine later.imp_of_mem fun {e e'} there there' less => ?_
    have le : e.rest.length ≤ tokens.length := (inside e there).length_le
    unfold SyntaxError.position
    omega
  refine ⟨reads, fun n rounds enough lasts => ?_, fun c c' path round => ?_, fun e there => ?_,
    increasing, ?_, ?_⟩
  · exact reads.readFrom_eq (deep (Nat.le_refl _)) (deep enough) lasts
  · have le : c.rest.length ≤ tokens.length :=
      Program.length_le_of_rounds (deep (Nat.le_refl _)) path
    have deep' : Deep 18 (c.rest.length + 1) (depth tokens) := by
      unfold depth
      omega
    obtain ⟨⟨taken, e, more⟩, less⟩ := round.leaving deep'
    refine ⟨taken, ?_, e, more⟩
    rintro rfl
    rw [e] at less
    exact Nat.lt_irrefl _ less
  · exact ⟨(inside e there).eq_drop, (inside e there).position_le.1⟩
  · have atEnd : ∀ e ∈ (Program.ofTokens tokens).errors.filter (·.token.isEnd),
        e.position tokens = (beforeEnd tokens).length := by
      intro e there
      obtain ⟨there, ended⟩ := List.mem_filter.mp there
      exact (inside e there).position_le.2 (Token.isEnd_eq_true.mp ended)
    have increasing' := increasing.filter (·.token.isEnd)
    generalize (Program.ofTokens tokens).errors.filter (·.token.isEnd) = es at atEnd increasing'
    match es with
    | [] | [_] => exact Nat.le_of_ble_eq_true rfl
    | e :: e' :: _ =>
      have less := List.rel_of_pairwise_cons increasing' List.mem_cons_self
      rw [atEnd e List.mem_cons_self, atEnd e' (List.mem_cons_of_mem e List.mem_cons_self)] at less
      exact absurd less (Nat.lt_irrefl _)
  · have below : ∀ n ∈ (Program.ofTokens tokens).errors.map (SyntaxError.position tokens),
        n ≤ (beforeEnd tokens).length := by
      intro n there
      obtain ⟨e, there', rfl⟩ := List.mem_map.mp there
      exact (inside e there').position_le.1
    have := length_le_of_increasing below (List.pairwise_map.mpr increasing)
    rwa [List.length_map] at this

/-- In `); a` there are two errors, and the tokens behind the end of the input are not looked at. -/
theorem last_error_is_at_end :
    let tokens : List Token :=
      [⟨.symbol .rightParen, ")", 1⟩, ⟨.symbol .semicolon, ";", 1⟩, ⟨.identifier, "a", 1⟩,
        ⟨.eof, "", 1⟩, ⟨.symbol .rightParen, ")", 2⟩]
    depth tokens ≤ 200 ∧ tokens.length ≤ 9 ∧
      (Program.ofTokens tokens).errors.map (SyntaxError.position tokens) = [0, 3] ∧
      Program.readFrom 200 9 ⟨tokens, 0⟩ = Program.ofTokens tokens ∧
      ((Program.ofTokens tokens).errors.filter (·.token.isEnd)).length ≤ 1 := by
  intro tokens
  have deep : depth tokens ≤ 200 := by decide
  have lasts : tokens.length ≤ 9 := by decide
  obtain ⟨-, same, -, -, -, atEnd, -⟩ := reading_makes_progress tokens
  exact ⟨deep, lasts, by cbv, same 200 9 deep lasts, atEnd⟩

end Lox
