import Mathlib
import Lox.Proofs.Syntax.Loops.Programs
import Lox.Proofs.Token.Lines
import Lox.Proofs.Relabelling.Programs
import Lox.Proofs.Eval.Rounds

/-!
# A `for` loop is a `while` loop

Wherever a program has a `for` loop, it may have a `while` loop instead, with the initializer before
it and the increment behind its body (`for_loops_run_as_while_loops`). Both are read as the same
statements, but the nodes of the increment are numbered before those of the body in the one and
after them in the other. Neither the survey nor a run depends on the numbers.
-/

namespace Lox

namespace Rule

theorem ensures_anything {α : Type} (r : Rule α) (lo : Nat) :
    Ensures (fun _ => True) r lo fun _ _ => True :=
  fun _ _ _ _ _ _ => ⟨fun _ _ => trivial, trivial⟩

/-- What begins with `for` is a loop. -/
theorem loop_of_statement {n : Nat} {t : Token} {ts : List Token} {id : ExprId} {s : Stmt}
    {c : Cursor} (isFor : t.kind = .keyword .for) (run : statement n ⟨t :: ts, id⟩ = .ok s c) :
    ∃ start test step inside, s = loop start test step inside := by
  obtain ⟨kind, lexeme, line⟩ := t
  obtain rfl : kind = _ := isFor
  cases n with
  | zero => cases run
  | succ n =>
    replace run : forStmt n ⟨ts, id⟩ = .ok s c := run
    cases n with
    | zero => cases run
    | succ n =>
      have isLoop : Ensures (fun _ => True) (forStmt (n + 1)) id fun s _ =>
          ∃ start test step inside, s = loop start test step inside := by
        refine ensures_bind (ensures_anything _ _) fun _ _ _ => ?_
        refine ensures_bind (ensures_anything _ _) fun start _ _ => ?_
        refine ensures_bind (ensures_anything _ _) fun test _ _ => ?_
        refine ensures_bind (ensures_anything _ _) fun step _ _ => ?_
        refine ensures_bind (ensures_anything _ _) fun inside _ _ => ensures_pure ?_
        exact ⟨start, test, step, inside, rfl⟩
      exact (isLoop ⟨ts, id⟩ (fun _ _ => trivial) rfl s c run).2

end Rule

/-- Whatever numbers have been given, the tokens of the loop are read as a loop. -/
theorem Rewriting.reads_loop (W : Rewriting) (id : ExprId) : ∃ start test step inside id',
    Rule.statement (depth W.tokens) ⟨W.tokens, id⟩ =
      .ok (Rule.loop start test step inside) ⟨W.back, id'⟩ := by
  obtain ⟨start, test, step, inside, reads⟩ := W.stands.exists_reads
  have deep : 24 * (W.loop.tokens ++ W.back).length + 17 ≤ depth W.tokens := by
    unfold depth Rewriting.tokens
    omega
  obtain ⟨s, id', -, run⟩ := reads.tokens W.stands deep id
  obtain ⟨start', test', step', inside', rfl⟩ := Rule.loop_of_statement W.stands.keyword run
  exact ⟨start', test', step', inside', id', run⟩

section
variable {W : Rewriting} {front tokens tokens' : List Token} {line : Nat → Nat}
  (isFor : tokens = front ++ W.tokens)
  (isWhile : (Setting.onLines line).moved tokens' =
    (Setting.onLines line).moved (front ++ W.tokens'))
  (parses : (Program.ofTokens tokens).errors = [])
include isFor isWhile parses

/-- The tokens with the `while` loop are read as the statements of the others, with other numbers of
nodes, and on their own lines. -/
theorem Program.read_as_while : (Program.ofTokens tokens').errors = [] ∧
    ∃ π : ExprId → ExprId,
      Relabelling.Separates ⟨π, line⟩ (· ∈ Stmt.idsList (Program.ofTokens tokens).statements) ∧
      Stmt.relabelList ⟨id, line⟩ (Program.ofTokens tokens').statements =
        Stmt.relabelList ⟨π, line⟩ (Program.ofTokens tokens).statements := by
  subst isFor
  obtain ⟨parses', same⟩ := Program.ofTokens_rewritten W front parses
  have moved := congrArg Program.ofTokens isWhile
  rw [Program.ofTokens_moved, Program.ofTokens_moved] at moved
  have differ {ts : List Token} (noErrors : (Program.ofTokens ts).errors = []) :
      (Stmt.idsList (Program.ofTokens ts).statements).Nodup :=
    (Program.read_ofTokens (T := fun _ => True) (fun _ _ => trivial) noErrors).2.nodup
  obtain ⟨π, apart, renumbered⟩ := Stmt.exists_renumbering same (differ parses) (differ parses')
  have errors := congrArg Program.errors moved
  have statements := congrArg Program.statements moved
  dsimp only [Program.moved] at errors statements
  rw [parses', List.map_nil, List.map_eq_nil_iff] at errors
  rw [renumbered, Stmt.relabelList_relabelList] at statements
  exact ⟨errors, π, fun i j inside inside' => apart i inside j inside', statements⟩

end

/-- What comes before a token of a source is not its end. -/
theorem ne_eof_of_tokensOf {source : String} (lexical : lexicalErrorsOf source = [])
    {front ts : List Token} {t : Token} (whole : tokensOf source = front ++ t :: ts) :
    ∀ t' ∈ front, t'.kind ≠ .eof := by
  obtain ⟨tokens, line, noEnd, ended, -⟩ := tokensOf_append_line lexical
  have same := congrArg List.dropLast (ended.symm.trans whole)
  rw [List.dropLast_concat, List.dropLast_append_of_ne_nil (List.cons_ne_nil t ts)] at same
  exact fun t' inside => noEnd t' (same ▸ List.mem_append_left _ inside)

/-- Where a source without syntax errors has the keyword `for`, it has a loop. Whatever loop it has,
the increment runs after the body if this has run to its end, and all rounds begin in the one frame
of the initializer. And let another source have a `while` loop instead; `line` is what is kept of
their lines. Then it is read without errors too, as the same statements but for the numbers of
nodes. It is accepted if and only if the first one is, with the same distances for nodes that
correspond, and it prints the same and ends in the same way. -/
theorem for_loops_run_as_while_loops {source : String} (lexical : lexicalErrorsOf source = [])
    (parses : (Program.ofTokens (tokensOf source)).errors = []) :
    (∀ front t ts, tokensOf source = front ++ t :: ts → t.kind = .keyword .for →
      ∃ (l : Loop) (back : List Token), t :: ts = l.tokens ++ back ∧ l.Stands back) ∧
    ∀ (W : Rewriting) (front : List Token), tokensOf source = front ++ W.tokens →
      (∀ id, ∃ start test step inside id',
        Rule.statement (depth W.tokens) ⟨W.tokens, id⟩ =
          .ok (Rule.loop start test step inside) ⟨W.back, id'⟩ ∧
        ∀ n m, Eval.ForRuns inside step start (test.getD (.literal .true)) m
          (Eval.stmt (n + 1) (Rule.loop start test step inside) m)) ∧
      ∀ (source' : String) (line : Nat → Nat), lexicalErrorsOf source' = [] →
        (Setting.onLines line).moved (tokensOf source') =
          (Setting.onLines line).moved (front ++ W.tokens') →
        let ss := (Program.ofTokens (tokensOf source)).statements
        let ss' := (Program.ofTokens (tokensOf source')).statements
        (Program.ofTokens (tokensOf source')).errors = [] ∧
        (∃ π : ExprId → ExprId,
          (∀ i j, i ∈ Stmt.idsList ss → j ∈ Stmt.idsList ss → π i = π j → i = j) ∧
          Stmt.relabelList ⟨id, line⟩ ss' = Stmt.relabelList ⟨π, line⟩ ss ∧
          ((∃ d, distancesOf ss = .ok d) ↔ ∃ d', distancesOf ss' = .ok d') ∧
          ∀ d d', distancesOf ss = .ok d → distancesOf ss' = .ok d' →
            ∀ j n, d'[j]? = some n ↔ ∃ i, i ∈ Stmt.idsList ss ∧ π i = j ∧ d[i]? = some n) ∧
        ∀ n host, (run n host source).ending = .outOfFuel ∧
            (run n host source').ending = .outOfFuel ∨
          (run n host source').onLines line = (run n host source).onLines line := by
  refine ⟨fun front t ts whole isFor => ?_, fun W front isFor => ⟨fun id => ?_, ?_⟩⟩
  · exact Program.exists_loop (whole ▸ parses) isFor (ne_eof_of_tokensOf lexical whole)
  · obtain ⟨start, test, step, inside, id', run⟩ := W.reads_loop id
    refine ⟨start, test, step, inside, id', run, fun n m => ?_⟩
    exact Eval.runs_loop n start test step inside m
  intro source' line lexical' isWhile ss ss'
  obtain ⟨parses', π, differ, same⟩ := Program.read_as_while isFor isWhile parses
  have apart : Relabelling.Separates ⟨id, line⟩ (· ∈ Stmt.idsList ss') := fun _ _ _ _ e => e
  obtain ⟨accepted, corresponding⟩ := Stmt.distancesOf_alike differ apart same
  refine ⟨parses', ⟨π, differ, same, accepted, fun d d' found found' j n => ?_⟩, fun n host => ?_⟩
  · rw [← corresponding d d' found found' j n]
    constructor
    · exact fun entry => ⟨j, Stmt.mem_ids_of_distance found' entry, rfl, entry⟩
    · rintro ⟨_, -, rfl, entry⟩
      exact entry
  · rw [run_of_read lexical parses, run_of_read lexical' parses']
    exact outcomeOf_alike differ apart same n host

/-! ## A loop that goes round once -/

/-- The token of a symbol or keyword on the first line. -/
def TokenKind.mark (kind : TokenKind) : Token :=
  match kind with
  | symbol s => ⟨kind, s.text, 1⟩
  | keyword k => ⟨kind, k.text, 1⟩
  | _ => ⟨kind, "", 1⟩

theorem TokenKind.kind_mark (kind : TokenKind) : kind.mark.kind = kind := by
  cases kind <;> rfl

/-- The loop `for (var go = true; go; go = false) print "one";`. -/
def Loop.once : Loop :=
  let go : Token := ⟨.identifier, "go", 1⟩
  { keyword := TokenKind.mark (.keyword .for)
    opening := TokenKind.mark (.symbol .leftParen)
    initializer :=
      [TokenKind.mark (.keyword .var), go, TokenKind.mark (.symbol .equal),
        TokenKind.mark (.keyword .true)]
    first := TokenKind.mark (.symbol .semicolon)
    condition := [go]
    second := TokenKind.mark (.symbol .semicolon)
    increment := [go, TokenKind.mark (.symbol .equal), TokenKind.mark (.keyword .false)]
    closing := TokenKind.mark (.symbol .rightParen)
    body :=
      [TokenKind.mark (.keyword .print), ⟨.string "one", "\"one\"", 1⟩,
        TokenKind.mark (.symbol .semicolon)] }

/-- The loop is all of the input. -/
def Rewriting.once : Rewriting where
  loop := .once
  back := [TokenKind.mark .eof]
  outer := TokenKind.mark
  inner := TokenKind.mark
  stands :=
    { keyword := rfl
      opening := rfl
      initializer := ⟨_, _, by cbv⟩
      first := rfl
      condition := .inr ⟨_, _, by cbv⟩
      second := rfl
      increment := .inr ⟨_, _, by cbv⟩
      closing := rfl
      body := ⟨_, _, by cbv⟩ }
  made := TokenKind.kind_mark
  made' := TokenKind.kind_mark

/-- A source with the loop. -/
def Rewriting.onceFor : String :=
  "for (var go = true; go; go = false) print \"one\";"

/-- A source with the other loop, on two lines. -/
def Rewriting.onceWhile : String :=
  "\x7b var go = true;\nwhile (go) \x7b print \"one\"; go = false; \x7d \x7d"

theorem once_runs_as_while_loop :
    lexicalErrorsOf Rewriting.onceFor = [] ∧ lexicalErrorsOf Rewriting.onceWhile = [] ∧
      tokensOf Rewriting.onceFor = [] ++ Rewriting.once.tokens ∧
      (Setting.onLines fun _ => 0).moved (tokensOf Rewriting.onceWhile) =
        (Setting.onLines fun _ => 0).moved ([] ++ Rewriting.once.tokens') ∧
      (Program.ofTokens (tokensOf Rewriting.onceFor)).errors = [] ∧
      (Program.ofTokens (tokensOf Rewriting.onceWhile)).errors = [] ∧
      run 20 ⟨fun _ => 0, none, false⟩ Rewriting.onceFor = ⟨["one"], .finished⟩ ∧
      (run 20 ⟨fun _ => 0, none, false⟩ Rewriting.onceWhile).printed = ["one"] := by
  have lexical : lexicalErrorsOf Rewriting.onceFor = [] := by cbv
  have lexical' : lexicalErrorsOf Rewriting.onceWhile = [] := by cbv
  have isFor : tokensOf Rewriting.onceFor = [] ++ Rewriting.once.tokens := by cbv
  have isWhile : (Setting.onLines fun _ => 0).moved (tokensOf Rewriting.onceWhile) =
      (Setting.onLines fun _ => 0).moved ([] ++ Rewriting.once.tokens') := by cbv
  have parses : (Program.ofTokens (tokensOf Rewriting.onceFor)).errors = [] := by cbv
  have ran : run 20 ⟨fun _ => 0, none, false⟩ Rewriting.onceFor = ⟨["one"], .finished⟩ := by cbv
  obtain ⟨parses', -, alike⟩ :=
    ((for_loops_run_as_while_loops lexical parses).2 .once [] isFor).2 _ _ lexical' isWhile
  refine ⟨lexical, lexical', isFor, isWhile, parses, parses', ran, ?_⟩
  have same := alike 20 ⟨fun _ => 0, none, false⟩
  rw [ran] at same
  obtain ⟨⟨⟩, -⟩ | same := same
  exact congrArg Outcome.printed same

end Lox
