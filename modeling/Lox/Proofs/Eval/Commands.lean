import Lox.Command
import Lox.Proofs.Eval.Sink
import Lox.Proofs.Relabelling.Run

/-!
# Commands agree

The commands stop at different stages of one front end. What is wrong with a source is three lists:
its lexical errors, the syntax errors among its good tokens (`Source.syntaxErrors`), and the
breaches of the scope rules by the program that these are read as (`Source.scopeErrors`). Each
command is stated in these lists (`parseSource_exitCode`, `run_refuses_iff`), and so are then the
exit codes and the errors that the commands write (`commands_agree`).
-/

namespace Lox

/-! ## The errors of a source -/

namespace Source

/-- The syntax errors among the tokens of a source. -/
def syntaxErrors (source : String) : List SyntaxError :=
  (Program.ofTokens (tokensOf source)).errors

/-- The breaches of the scope rules by the program that the tokens of a source are read as, if they
are one. -/
def scopeErrors (source : String) : List ScopeError :=
  match (Program.ofTokens (tokensOf source)).statements? with
  | .error _ => []
  | .ok statements =>
    match distancesOf statements with
    | .error errors => errors
    | .ok _ => []

/-- What scanning and reading find, in the order in which it is shown. -/
def textErrors (source : String) : List Diagnostic :=
  (lexicalErrorsOf source).map .lexical ++ (syntaxErrors source).map .syntactic

/-- The errors that keep a source from running: those of its text, or, if it has none, those of its
scopes. -/
inductive Rejects (source : String) : List Diagnostic → Prop
  | text (wrong : textErrors source ≠ []) : Rejects source (textErrors source)
  | scope (read : textErrors source = []) (wrong : scopeErrors source ≠ []) :
    Rejects source ((scopeErrors source).map .scope)

variable {source : String}

theorem textErrors_eq_nil :
    textErrors source = [] ↔ lexicalErrorsOf source = [] ∧ syntaxErrors source = [] := by
  rw [textErrors, List.append_eq_nil_iff, List.map_eq_nil_iff, List.map_eq_nil_iff]

theorem Rejects.ne_nil {errors : List Diagnostic} (h : Rejects source errors) : errors ≠ [] := by
  cases h with
  | text wrong => exact wrong
  | scope _ wrong => exact fun none => wrong (List.map_eq_nil_iff.mp none)

theorem Rejects.unique {errors errors' : List Diagnostic} (h : Rejects source errors)
    (h' : Rejects source errors') : errors = errors' := by
  cases h with
  | text wrong =>
    cases h' with
    | text => rfl
    | scope read => exact absurd read wrong
  | scope read =>
    cases h' with
    | text wrong => exact absurd read wrong
    | scope => rfl

theorem exists_rejects : (∃ errors, Rejects source errors) ↔
    lexicalErrorsOf source ≠ [] ∨ syntaxErrors source ≠ [] ∨ scopeErrors source ≠ [] := by
  rw [← or_assoc, ← not_and_or, ← textErrors_eq_nil]
  constructor
  · rintro ⟨_, wrong | ⟨-, wrong⟩⟩
    · exact .inl wrong
    · exact .inr wrong
  · intro wrong
    by_cases read : textErrors source = []
    · exact ⟨_, .scope read (wrong.resolve_left (not_not.mpr read))⟩
    · exact ⟨_, .text read⟩

theorem rejects_iff {errors : List Diagnostic} : Rejects source errors ↔
    errors ≠ [] ∧ (errors = (lexicalErrorsOf source).map .lexical ++
        (syntaxErrors source).map .syntactic ∨
      lexicalErrorsOf source = [] ∧ syntaxErrors source = [] ∧
        errors = (scopeErrors source).map .scope) := by
  constructor
  · intro h
    refine ⟨h.ne_nil, ?_⟩
    cases h with
    | text => exact .inl rfl
    | scope read =>
      obtain ⟨scanned, read⟩ := textErrors_eq_nil.mp read
      exact .inr ⟨scanned, read, rfl⟩
  · rintro ⟨some, rfl | ⟨scanned, read, rfl⟩⟩
    · exact .text some
    · exact .scope (textErrors_eq_nil.mpr ⟨scanned, read⟩) (by simpa using some)

theorem statements?_of_wrong (wrong : syntaxErrors source ≠ []) :
    (Program.ofTokens (tokensOf source)).statements? = .error (syntaxErrors source) :=
  if_neg fun none => wrong (List.isEmpty_iff.mp none)

theorem statements?_of_read (read : syntaxErrors source = []) :
    (Program.ofTokens (tokensOf source)).statements? =
      .ok (Program.ofTokens (tokensOf source)).statements :=
  if_pos (List.isEmpty_iff.mpr read)

theorem ne_nil_of_distancesOf {ss : List Stmt} {errors : List ScopeError}
    (h : distancesOf ss = .error errors) : errors ≠ [] := by
  simp only [distancesOf] at h
  split at h
  · cases h
  · rename_i wrong
    cases h
    simpa using wrong

theorem scopeErrors_of_error {ss : List Stmt} {errors : List ScopeError}
    (read : (Program.ofTokens (tokensOf source)).statements? = .ok ss)
    (h : distancesOf ss = .error errors) : scopeErrors source = errors := by
  simp only [scopeErrors, read, h]

theorem scopeErrors_of_ok {ss : List Stmt} {distances : Distances}
    (read : (Program.ofTokens (tokensOf source)).statements? = .ok ss)
    (h : distancesOf ss = .ok distances) : scopeErrors source = [] := by
  simp only [scopeErrors, read, h]

/-- A check finds the errors that keep a source from running, if there are any. -/
theorem check_cases (source : String) :
    (∃ errors, Rejects source errors ∧ check source = .error errors) ∨
      (∀ errors, ¬ Rejects source errors) ∧ ∃ p, check source = .ok p := by
  by_cases wrong : syntaxErrors source = []
  · have read := statements?_of_read wrong
    cases lexical : lexicalErrorsOf source with
    | cons e es =>
      have text : textErrors source = (e :: es).map .lexical := by
        rw [textErrors, lexical, wrong, List.map_nil, List.append_nil]
      refine .inl ⟨_, .text (text ▸ List.cons_ne_nil _ _), ?_⟩
      rw [text]
      simp only [check, read, lexical]
      rfl
    | nil =>
      have none : textErrors source = [] := textErrors_eq_nil.mpr ⟨lexical, wrong⟩
      cases found : distancesOf (Program.ofTokens (tokensOf source)).statements with
      | error errors =>
        have scope := scopeErrors_of_error read found
        refine .inl ⟨_, .scope none (scope ▸ ne_nil_of_distancesOf found), ?_⟩
        rw [scope]
        simp only [check, read, lexical, found]
        rfl
      | ok distances =>
        have scope := scopeErrors_of_ok read found
        refine .inr ⟨?_, ⟨(Program.ofTokens (tokensOf source)).statements, distances⟩, ?_⟩
        · rintro _ (wrong | ⟨-, wrong⟩)
          · exact wrong none
          · exact wrong scope
        · simp only [check, read, lexical, found]
          rfl
  · have text : textErrors source ≠ [] := fun none => wrong (textErrors_eq_nil.mp none).2
    refine .inl ⟨_, .text text, ?_⟩
    simp only [check, statements?_of_wrong wrong]
    rfl

theorem check_eq_error {errors : List Diagnostic} :
    check source = .error errors ↔ Rejects source errors := by
  rcases check_cases source with ⟨errors', rejects, e⟩ | ⟨none, p, e⟩
  · rw [e]
    refine ⟨?_, fun h => ?_⟩
    · rintro ⟨⟩
      exact rejects
    · rw [rejects.unique h]
  · rw [e]
    exact ⟨nofun, fun h => absurd h (none errors)⟩

end Source

/-! ## The texts of errors -/

namespace Diagnostic

theorem textOf_append {es fs : List Diagnostic} (he : es ≠ []) (hf : fs ≠ []) :
    textOf (es ++ fs) = textOf es ++ "\n" ++ textOf fs := by
  rw [textOf, List.map_append]
  exact String.intercalate_append_of_ne_nil (by simpa using he) (by simpa using hf)

/-- Lines of their own are what is put between line breaks, and a last line break. -/
theorem join_lines {es : List Diagnostic} (h : es ≠ []) :
    String.join (es.map fun e => e.text ++ "\n") = textOf es ++ "\n" := by
  induction es with
  | nil => exact absurd rfl h
  | cons e es ih =>
    cases es with
    | nil => simp [textOf]
    | cons e' es =>
      rw [List.map_cons, String.join_cons, ih (List.cons_ne_nil _ _)]
      simp only [textOf, List.map_cons, String.intercalate_cons_cons, String.append_assoc]

end Diagnostic

/-! ## What a command gives -/

/-- What was printed, each text on a line of its own. -/
def Machine.output (m : Machine) : String :=
  String.join (m.printed.toList.map (· ++ "\n"))

/-- The program of the source was started, and a failure ended it; `m` is the machine then. -/
def Source.Aborts (host : Host) (source : String) (failure : Failure) (m : Machine) : Prop :=
  ∃ p fuel, Source.check source = .ok p ∧
    Eval.program fuel p.statements p.distances (.start host) = .error (.failed failure) m

namespace Command

/-- On a file that holds the source, the command comes to an end and gives `r`. -/
def Gives (c : Command) (host : Host) (file source : String) (r : Transcript) : Prop :=
  ∃ fuel, c.onFile fuel host file (.ok source.toUTF8) = some r

variable {host : Host} {file source : String} {json : Bool} {r r' : Transcript}

theorem onFile_toUTF8 (c : Command) (fuel : Nat) (host : Host) (file source : String) :
    c.onFile fuel host file (.ok source.toUTF8) = c.onSource fuel host source := by
  have text : String.fromUTF8? source.toUTF8 = some source := dif_pos source.isValidUTF8
  simp only [onFile, text]

theorem gives_tokenize :
    (tokenize json).Gives host file source r ↔ r = tokenizeSource json source := by
  simp only [Gives, onFile_toUTF8, onSource, Option.some.injEq, exists_const, eq_comm]

theorem gives_parse : parse.Gives host file source r ↔ r = parseSource source := by
  simp only [Gives, onFile_toUTF8, onSource, Option.some.injEq, exists_const, eq_comm]

theorem gives_run : run.Gives host file source r ↔ ∃ fuel, runSource fuel host source = some r := by
  simp only [Gives, onFile_toUTF8, onSource]

theorem tokenizeSource_exitCode :
    (tokenizeSource json source).exitCode = if lexicalErrorsOf source = [] then 0 else 65 := by
  simp [tokenizeSource]

theorem tokenizeSource_stderr (wrong : lexicalErrorsOf source ≠ []) :
    (tokenizeSource json source).stderr =
      Diagnostic.textOf ((lexicalErrorsOf source).map .lexical) ++ "\n" := by
  rw [← Diagnostic.join_lines (by simpa using wrong), List.map_map]
  rfl

/-- Reading stops after the lexical errors, if there are any. -/
theorem parseSource_of_lexical (wrong : lexicalErrorsOf source ≠ []) :
    parseSource source = .failure "" ((lexicalErrorsOf source).map .lexical) 65 := by
  obtain ⟨e, es, lexical⟩ := List.exists_cons_of_ne_nil wrong
  simp only [parseSource, Source.statements, Source.tokens, lexical]
  rfl

theorem parseSource_of_syntaxErrors (scanned : lexicalErrorsOf source = [])
    (wrong : Source.syntaxErrors source ≠ []) :
    parseSource source = .failure "" (Source.textErrors source) 65 := by
  have read := Source.statements?_of_wrong wrong
  rw [Source.textErrors, scanned]
  simp only [parseSource, Source.statements, Source.tokens, scanned, bind, Except.bind, read]
  rfl

theorem parseSource_of_read (read : Source.textErrors source = []) :
    ∃ ss, parseSource source = .success (programText ss) := by
  obtain ⟨scanned, read⟩ := Source.textErrors_eq_nil.mp read
  have read := Source.statements?_of_read read
  refine ⟨(Program.ofTokens (tokensOf source)).statements, ?_⟩
  simp only [parseSource, Source.statements_eq_ok.mpr ⟨scanned, read⟩]

/-- A source that is wrong is refused at once, whatever the fuel. -/
theorem gives_run_of_rejects {errors : List Diagnostic} (h : Source.Rejects source errors) :
    run.Gives host file source r ↔ r = .failure "" errors 65 := by
  have refused (fuel) : runSource fuel host source = some (.failure "" errors 65) := by
    simp only [runSource, Lox.run, Source.check_eq_error.mpr h]
    rfl
  simp only [gives_run, refused, Option.some.injEq, exists_const, eq_comm]

theorem runSource_of_check {p : Checked} (accepted : Source.check source = .ok p) (fuel : Nat) :
    runSource fuel host source =
      match Eval.program fuel p.statements p.distances (.start host) with
      | .ok _ m => some ⟨m.output, "", 0⟩
      | .error (.failed failure) m => some (.failure m.output [failure.diagnostic] 70)
      | .error .outOfFuel _ => none := by
  simp only [runSource, Lox.run, accepted]
  rcases Eval.program fuel p.statements p.distances (.start host) with _ | ⟨_ | _⟩ <;> rfl

theorem runSource_of_le {n n' : Nat} (deep : n ≤ n') (ends : runSource n host source = some r) :
    runSource n' host source = some r := by
  have ended : (Lox.run n host source).ending ≠ .outOfFuel := fun starved => by
    simp only [runSource, starved, reduceCtorEq] at ends
  unfold runSource
  rw [run_of_le deep ended]
  exact ends

/-- A run gives one transcript at most: more fuel does not change it. -/
theorem gives_run_unique (h : run.Gives host file source r) (h' : run.Gives host file source r') :
    r = r' := by
  obtain ⟨n, ends⟩ := gives_run.mp h
  obtain ⟨n', ends'⟩ := gives_run.mp h'
  have joint := runSource_of_le (Nat.le_max_left n n') ends
  rw [runSource_of_le (Nat.le_max_right n n') ends'] at joint
  exact (Option.some.inj joint).symm

/-- How a run ends that comes to an end. -/
theorem gives_run_cases (h : run.Gives host file source r) :
    (∃ errors, Source.Rejects source errors ∧ r = .failure "" errors 65) ∨
    (∃ failure m, Source.Aborts host source failure m ∧
      r = .failure m.output [failure.diagnostic] 70) ∨
    r.exitCode = 0 ∧ r.stderr = "" := by
  rcases Source.check_cases source with ⟨errors, rejects, -⟩ | ⟨-, p, accepted⟩
  · exact .inl ⟨errors, rejects, (gives_run_of_rejects rejects).mp h⟩
  · obtain ⟨fuel, ends⟩ := gives_run.mp h
    rw [runSource_of_check accepted] at ends
    split at ends
    · cases ends
      exact .inr (.inr ⟨rfl, rfl⟩)
    · rename_i failure m aborted
      cases ends
      exact .inr (.inl ⟨failure, m, ⟨p, fuel, accepted, aborted⟩, rfl⟩)
    · cases ends

/-- What `parse` gives is decided by what is wrong with the text. -/
theorem parseSource_exitCode :
    (parseSource source).exitCode = if Source.textErrors source = [] then 0 else 65 := by
  by_cases read : Source.textErrors source = []
  · obtain ⟨ss, parsed⟩ := parseSource_of_read read
    rw [parsed, if_pos read]
    rfl
  · rw [if_neg read]
    by_cases scanned : lexicalErrorsOf source = []
    · have wrong : Source.syntaxErrors source ≠ [] := fun none =>
        read (Source.textErrors_eq_nil.mpr ⟨scanned, none⟩)
      rw [parseSource_of_syntaxErrors scanned wrong]
      rfl
    · rw [parseSource_of_lexical scanned]
      rfl

/-- Where `parse` writes the lexical errors, `run` writes the syntax errors too. -/
theorem parseSource_stderr_begins (wrong : Source.textErrors source ≠ []) :
    (∃ more, Diagnostic.textOf (Source.textErrors source) ++ "\n" =
      (parseSource source).stderr ++ more) ∧
    (lexicalErrorsOf source = [] →
      Diagnostic.textOf (Source.textErrors source) ++ "\n" = (parseSource source).stderr) := by
  by_cases scanned : lexicalErrorsOf source = []
  · have syn : Source.syntaxErrors source ≠ [] := fun none =>
      wrong (Source.textErrors_eq_nil.mpr ⟨scanned, none⟩)
    rw [parseSource_of_syntaxErrors scanned syn]
    exact ⟨⟨"", String.append_empty.symm⟩, fun _ => rfl⟩
  · refine ⟨?_, fun none => absurd none scanned⟩
    rw [parseSource_of_lexical scanned, Source.textErrors]
    by_cases read : Source.syntaxErrors source = []
    · rw [read, List.map_nil, List.append_nil]
      exact ⟨"", String.append_empty.symm⟩
    · rw [Diagnostic.textOf_append (by simpa using scanned) (by simpa using read)]
      exact ⟨Diagnostic.textOf ((Source.syntaxErrors source).map .syntactic) ++ "\n",
        String.append_assoc ..⟩

theorem gives_run_of_aborts {failure : Failure} {m : Machine}
    (h : Source.Aborts host source failure m) :
    run.Gives host file source (.failure m.output [failure.diagnostic] 70) := by
  obtain ⟨p, fuel, accepted, aborted⟩ := h
  refine gives_run.mpr ⟨fuel, ?_⟩
  rw [runSource_of_check accepted, aborted]

theorem run_refuses_iff : run.Gives host file source r ∧ r.exitCode = 65 ↔
    ∃ errors, Source.Rejects source errors ∧ r = .failure "" errors 65 := by
  constructor
  · rintro ⟨gives, code⟩
    rcases gives_run_cases gives with refused | ⟨failure, m, -, rfl⟩ | ⟨finished, -⟩
    · exact refused
    · cases code
    · cases finished.symm.trans code
  · rintro ⟨errors, rejects, rfl⟩
    exact ⟨(gives_run_of_rejects rejects).mpr rfl, rfl⟩

theorem run_aborts_iff : run.Gives host file source r ∧ r.exitCode = 70 ↔
    ∃ failure m, Source.Aborts host source failure m ∧
      r = .failure m.output [failure.diagnostic] 70 := by
  constructor
  · rintro ⟨gives, code⟩
    rcases gives_run_cases gives with ⟨errors, -, rfl⟩ | aborted | ⟨finished, -⟩
    · cases code
    · exact aborted
    · cases finished.symm.trans code
  · rintro ⟨failure, m, aborts, rfl⟩
    exact ⟨gives_run_of_aborts aborts, rfl⟩

end Command

/-- Under a host that never fails, only a runtime error ends a program early. -/
theorem Source.Aborts.runtime {host : Host} {source : String} {failure : Failure} {m : Machine}
    (h : Source.Aborts host.unfailing source failure m) : ∃ e, failure = .runtime e := by
  obtain ⟨p, fuel, accepted, aborted⟩ := h
  have noIo := (Eval.shadows_topLevel host fuel p.statements (p.start host.unfailing)).noIo rfl
  have same := (Eval.keeps_topLevel fuel p.statements (p.start host.unfailing)).host
  have aborted : (Eval.topLevel fuel p.statements >>= fun _ => Eval.flush)
      (p.start host.unfailing) = .error (.failed failure) m := aborted
  rcases bind_eq_error.mp aborted with stopped | ⟨_, m₁, ended, flushed⟩
  · cases failure with
    | runtime e => exact ⟨e, rfl⟩
    | io e => exact absurd stopped (noIo e m)
  · rw [ended] at same
    have same : m₁.host = host.unfailing := same
    simp only [Eval.flush, same, Host.unfailing, Bool.false_eq_true, if_false] at flushed
    cases flushed

/-- The commands `tokenize`, `parse` and `run` agree on every source. The first two give one
transcript each, and a run one at most, for it may go on for ever. `tokenize` refuses a source with
lexical errors, and then `parse` does, and writes the same. A source that `parse` refuses, `run`
refuses, and writes what `parse` writes and then, if that was the lexical errors, the syntax errors.
`run` refuses a source just for what is wrong with its text or else with its scopes, and prints
nothing then; it ends with 70 just if the program was started and a failure ended it, which is a
runtime error if the host does not fail; and otherwise it ends with 0 and writes no error. -/
theorem commands_agree (host : Host) (file source : String) (json : Bool) :
    ∃ tokenized parsed : Transcript,
      (∀ r, (Command.tokenize json).Gives host file source r ↔ r = tokenized) ∧
      (∀ r, Command.parse.Gives host file source r ↔ r = parsed) ∧
      (∀ r r', Command.run.Gives host file source r → Command.run.Gives host file source r' →
        r = r') ∧
      (tokenized.exitCode = 65 ↔ lexicalErrorsOf source ≠ []) ∧
      (tokenized.exitCode = 65 → tokenized.stderr = parsed.stderr ∧ parsed.exitCode = 65) ∧
      (parsed.exitCode ≠ 0 → parsed.exitCode = 65 ∧
        ∃ r, Command.run.Gives host file source r ∧ r.exitCode = 65 ∧
          (∃ more, r.stderr = parsed.stderr ++ more) ∧
          (lexicalErrorsOf source = [] → r.stderr = parsed.stderr)) ∧
      ((∃ r, Command.run.Gives host file source r ∧ r.exitCode = 65) ↔
        lexicalErrorsOf source ≠ [] ∨ Source.syntaxErrors source ≠ [] ∨
          Source.scopeErrors source ≠ []) ∧
      (∀ r, Command.run.Gives host file source r ∧ r.exitCode = 65 ↔
        ∃ errors, errors ≠ [] ∧
          (errors = (lexicalErrorsOf source).map .lexical ++
              (Source.syntaxErrors source).map .syntactic ∨
            lexicalErrorsOf source = [] ∧ Source.syntaxErrors source = [] ∧
              errors = (Source.scopeErrors source).map .scope) ∧
          r = ⟨"", Diagnostic.textOf errors ++ "\n", 65⟩) ∧
      (∀ r, Command.run.Gives host file source r ∧ r.exitCode = 70 ↔
        ∃ failure m, Source.Aborts host source failure m ∧
          r = ⟨m.output, failure.diagnostic.text ++ "\n", 70⟩) ∧
      (∀ failure m, Source.Aborts host.unfailing source failure m → ∃ e, failure = .runtime e) ∧
      ∀ r, Command.run.Gives host file source r → r.exitCode ≠ 65 → r.exitCode ≠ 70 →
        r.exitCode = 0 ∧ r.stderr = "" := by
  have scanned : (Command.tokenizeSource json source).exitCode = 65 ↔
      lexicalErrorsOf source ≠ [] := by
    rw [Command.tokenizeSource_exitCode]
    split <;> simp [*]
  refine ⟨Command.tokenizeSource json source, Command.parseSource source,
    fun r => Command.gives_tokenize, fun r => Command.gives_parse,
    fun r r' => Command.gives_run_unique, scanned, fun code => ?_, fun code => ?_, ?_,
    fun r => ?_, fun r => ?_, fun failure m aborts => aborts.runtime, fun r gives not65 not70 => ?_⟩
  · have wrong := scanned.mp code
    rw [Command.tokenizeSource_stderr wrong, Command.parseSource_of_lexical wrong]
    exact ⟨rfl, rfl⟩
  · rw [Command.parseSource_exitCode] at code ⊢
    have wrong : Source.textErrors source ≠ [] := fun read => code (if_pos read)
    obtain ⟨gives, code'⟩ := Command.run_refuses_iff.mpr ⟨_, .text wrong, rfl⟩
    exact ⟨if_neg wrong, _, gives, code', Command.parseSource_stderr_begins wrong⟩
  · rw [← Source.exists_rejects]
    constructor
    · rintro ⟨r, refused⟩
      obtain ⟨errors, rejects, -⟩ := Command.run_refuses_iff.mp refused
      exact ⟨errors, rejects⟩
    · rintro ⟨errors, rejects⟩
      exact ⟨_, Command.run_refuses_iff.mpr ⟨errors, rejects, rfl⟩⟩
  · rw [Command.run_refuses_iff]
    simp only [Source.rejects_iff, Transcript.failure, and_assoc]
  · rw [Command.run_aborts_iff]
    simp only [Transcript.failure, Diagnostic.textOf, List.map_cons, List.map_nil,
      String.intercalate_singleton]
  · rcases Command.gives_run_cases gives with ⟨errors, -, rfl⟩ | ⟨failure, m, -, rfl⟩ | finished
    · exact absurd rfl not65
    · exact absurd rfl not70
    · exact finished

/-- The character that is no token leaves a syntax error behind, which only `run` writes. -/
theorem unexpected_character_leaves_syntax_error :
    lexicalErrorsOf "print @;" = [⟨.unexpected '@', 1⟩] ∧ Source.syntaxErrors "print @;" ≠ [] ∧
    ∃ tokenized parsed r,
      (Command.tokenize false).Gives ⟨fun _ => 0, none, false⟩ "input.lox" "print @;" tokenized ∧
      Command.parse.Gives ⟨fun _ => 0, none, false⟩ "input.lox" "print @;" parsed ∧
      Command.run.Gives ⟨fun _ => 0, none, false⟩ "input.lox" "print @;" r ∧
      tokenized.exitCode = 65 ∧ parsed.exitCode = 65 ∧ r.exitCode = 65 ∧
      tokenized.stderr = parsed.stderr ∧ ∃ more, r.stderr = parsed.stderr ++ more := by
  have lexical : lexicalErrorsOf "print @;" = [⟨.unexpected '@', 1⟩] := by cbv
  have tokens : tokensOf "print @;" = [⟨.keyword .print, "print", 1⟩, ⟨.symbol .semicolon, ";", 1⟩,
      ⟨.eof, "", 1⟩] := by cbv
  have wrong : Source.syntaxErrors "print @;" ≠ [] := by
    rw [Source.syntaxErrors, tokens]
    exact List.cons_ne_nil _ _
  obtain ⟨tokenized, parsed, tokenizes, parses, -, scanned, same, refused, -⟩ :=
    commands_agree ⟨fun _ => 0, none, false⟩ "input.lox" "print @;" false
  have code : tokenized.exitCode = 65 := scanned.mpr (lexical ▸ List.cons_ne_nil _ _)
  obtain ⟨stderr, code'⟩ := same code
  obtain ⟨-, r, runs, code'', more, -⟩ := refused (by rw [code']; decide)
  exact ⟨lexical, wrong, tokenized, parsed, r, (tokenizes _).mpr rfl, (parses _).mpr rfl, runs,
    code, code', code'', stderr, more⟩

end Lox
