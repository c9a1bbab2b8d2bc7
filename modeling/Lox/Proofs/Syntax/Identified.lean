import Lox.Command
import Lox.Proofs.Token.Lines
import Lox.Proofs.Syntax.Shown

/-!
# The printed tree identifies the program

A program is printed as the forms of its statements, one a line (`toList_programText`), and lines
and forms are known by their text. So two programs that keep lexemes of genuine tokens are printed
alike just if they are the same but for labels (`programText_eq_iff`). Every source without errors
whose numbers are finite is read as such a program (`kept_of_statements`).
-/

namespace Lox

/-! ## Programs -/

theorem map_text_formList {ss : List Stmt} (h : Kept Token.Genuine (Stmt.slotsList ss)) :
    (Stmt.formList ss).map Form.text = (ss.map Stmt.text).map String.toList := by
  induction ss with
  | nil => rfl
  | cons s ss ih =>
    obtain ⟨first, others⟩ := kept_append.mp h
    rw [Stmt.formList, List.map_cons, List.map_cons, List.map_cons, ih others, (s.shown first).text]

/-- A program is printed as its forms, one a line. -/
theorem toList_programText {ss : List Stmt} (h : Kept Token.Genuine (Stmt.slotsList ss)) :
    (programText ss).toList = ['\n'].intercalate ((Stmt.formList ss).map Form.text) := by
  rw [programText, String.toList_intercalate, map_text_formList h]
  rfl

/-- Two programs whose lexemes are genuine are printed alike just if they are the same, but for the
numbers of nodes and the lines. -/
theorem programText_eq_iff {ss ss' : List Stmt} (h : Kept Token.Genuine (Stmt.slotsList ss))
    (h' : Kept Token.Genuine (Stmt.slotsList ss')) :
    programText ss = programText ss' ↔
      Stmt.relabelList .bare ss = Stmt.relabelList .bare ss' := by
  obtain ⟨-, valid, reads⟩ := Stmt.shownList ss h
  obtain ⟨-, valid', reads'⟩ := Stmt.shownList ss' h'
  rw [← String.toList_inj, toList_programText h, toList_programText h']
  constructor
  · intro same
    have forms := Form.lines_unique (Form.validList_iff.mp valid) (Form.validList_iff.mp valid')
      same
    rw [forms, reads'] at reads
    exact (List.map_injective_iff.mpr (Option.some_injective Stmt) reads).symm
  · intro same
    rw [← Stmt.formList_relabelList .bare ss, same, Stmt.formList_relabelList]

/-- What a source is read as keeps lexemes of genuine tokens, if its numbers are finite. -/
theorem kept_of_statements {source : String} {ss : List Stmt}
    (read : Source.statements source = .ok ss)
    (finite : ∀ t ∈ tokensOf source, ∀ x, t.kind = .number x → x.isFinite) :
    Kept Token.Genuine (Stmt.slotsList ss) := by
  have genuine : ∀ t ∈ tokensOf source, t.Genuine := fun t inside =>
    ⟨fun inner => (tokenText_of_mem_tokensOf inside).resolve_left fun ends => inner ends.1,
      finite t inside⟩
  obtain ⟨noErrors, rfl⟩ := Program.statements?_eq_ok (Source.statements_eq_ok.mp read).2
  exact Program.kept_ofTokens genuine noErrors

theorem Transcript.success_inj {text text' : String} :
    success text = success text' ↔ text = text' := by
  refine ⟨fun same => ?_, congrArg success⟩
  have lines : text ++ "\n" = text' ++ "\n" := congrArg Transcript.stdout same
  simpa [← String.toList_inj] using lines

/-- Two sources whose numbers are finite are printed alike just if they are the same programs, but
for the numbers of nodes, the lines of lexemes and the spelling of numbers. So no two trees are
shown as the same text. -/
theorem printed_tree_identifies_program {source source' : String} {ss ss' : List Stmt}
    (read : Source.statements source = .ok ss) (read' : Source.statements source' = .ok ss')
    (finite : ∀ t ∈ tokensOf source, ∀ x, t.kind = .number x → x.isFinite)
    (finite' : ∀ t ∈ tokensOf source', ∀ x, t.kind = .number x → x.isFinite) :
    (programText ss = programText ss' ↔
        Stmt.relabelList .bare ss = Stmt.relabelList .bare ss') ∧
      (Command.parseSource source = Command.parseSource source' ↔
        Stmt.relabelList .bare ss = Stmt.relabelList .bare ss') := by
  have identified := programText_eq_iff (kept_of_statements read finite)
    (kept_of_statements read' finite')
  refine ⟨identified, ?_⟩
  rw [Command.parseSource, Command.parseSource, read, read']
  exact Transcript.success_inj.trans identified

/-- A `for` loop and a `while` loop on two lines, with a number that is spelt in another way. -/
theorem loops_are_identified_by_text :
    ∃ ss ss', Source.statements "for (;;) print a - 1;" = .ok ss ∧
      Source.statements "while (true)\n  print a - 1.0;" = .ok ss' ∧
      (∀ t ∈ tokensOf "for (;;) print a - 1;", ∀ x, t.kind = .number x → x.isFinite) ∧
      (∀ t ∈ tokensOf "while (true)\n  print a - 1.0;", ∀ x, t.kind = .number x → x.isFinite) ∧
      programText ss = programText ss' ∧
      Stmt.relabelList .bare ss = Stmt.relabelList .bare ss' ∧
      Command.parseSource "for (;;) print a - 1;" =
        Command.parseSource "while (true)\n  print a - 1.0;" := by
  let difference (line : Nat) (x : Float) : Expr :=
    .binary .subtract ⟨"-", line⟩ (.variable 0 ⟨"a", line⟩) (.literal (.number x))
  let loop (line : Nat) (x : Float) : List Stmt :=
    [.while (.literal .true) (.print (difference line x))]
  have one : (Number.ofDigits ['1'] []).isFinite ∧
      Number.ofDigits ['1'] [] = Number.ofDigits ['1'] ['0'] := by decide +kernel
  have scanned : tokensOf "for (;;) print a - 1;" = [⟨.keyword .for, "for", 1⟩,
      ⟨.symbol .leftParen, "(", 1⟩, ⟨.symbol .semicolon, ";", 1⟩, ⟨.symbol .semicolon, ";", 1⟩,
      ⟨.symbol .rightParen, ")", 1⟩, ⟨.keyword .print, "print", 1⟩, ⟨.identifier, "a", 1⟩,
      ⟨.symbol .minus, "-", 1⟩, ⟨.number (Number.ofDigits ['1'] []), "1", 1⟩,
      ⟨.symbol .semicolon, ";", 1⟩, ⟨.eof, "", 1⟩] := by
    with_unfolding_all rfl
  have scanned' : tokensOf "while (true)\n  print a - 1.0;" = [⟨.keyword .while, "while", 1⟩,
      ⟨.symbol .leftParen, "(", 1⟩, ⟨.keyword .true, "true", 1⟩, ⟨.symbol .rightParen, ")", 1⟩,
      ⟨.keyword .print, "print", 2⟩, ⟨.identifier, "a", 2⟩, ⟨.symbol .minus, "-", 2⟩,
      ⟨.number (Number.ofDigits ['1'] ['0']), "1.0", 2⟩, ⟨.symbol .semicolon, ";", 2⟩,
      ⟨.eof, "", 2⟩] := by
    with_unfolding_all rfl
  rw [← one.2] at scanned'
  have finite : ∀ t ∈ tokensOf "for (;;) print a - 1;", ∀ x, t.kind = .number x → x.isFinite := by
    rw [scanned]
    simp [one.1]
  have finite' : ∀ t ∈ tokensOf "while (true)\n  print a - 1.0;", ∀ x, t.kind = .number x →
      x.isFinite := by
    rw [scanned']
    simp [one.1]
  generalize Number.ofDigits ['1'] [] = x at scanned scanned'
  have read : Source.statements "for (;;) print a - 1;" = .ok (loop 1 x) := by
    refine Source.statements_eq_ok.mpr ⟨by with_unfolding_all rfl, ?_⟩
    rw [scanned]
    cbv
  have read' : Source.statements "while (true)\n  print a - 1.0;" = .ok (loop 2 x) := by
    refine Source.statements_eq_ok.mpr ⟨by with_unfolding_all rfl, ?_⟩
    rw [scanned']
    cbv
  obtain ⟨identified, shown⟩ := printed_tree_identifies_program read read' finite finite'
  have same : programText (loop 1 x) = programText (loop 2 x) := rfl
  exact ⟨loop 1 x, loop 2 x, read, read', finite, finite', same, identified.mp same,
    shown.mpr (identified.mp same)⟩

end Lox
