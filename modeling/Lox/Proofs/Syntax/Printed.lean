import Lox.Proofs.Token.Lines
import Lox.Proofs.Syntax.Appended.Programs
import Lox.Proofs.Syntax.Local.Statements

/-!
# Expressions that are printed

A source that is one expression becomes a program when `print` is put before it and a semicolon on
the line after it (`printing`), whatever it ends with: a comment ends with its line, and a word or a
number before the semicolon. The program has the tokens of the expression between two others
(`tokensOf_printing`). Since a semicolon goes on with no expression, it is read as the statement
that prints this expression, with the same numbers of nodes (`Program.ofTokens_printing`).
-/

namespace Lox

/-- The source that prints the expression that `source` is. -/
def printing (source : String) : String :=
  "print " ++ (source ++ "\n" ++ ";")

/-! ## Scanning -/

/-- A word ends before a blank. -/
theorem pieces_print (cs : List Char) :
    pieces ("print ".toList ++ cs) =
      ⟨.token (.keyword .print), "print".toList⟩ :: ⟨.skipped, [' ']⟩ :: pieces cs := by
  rw [show "print ".toList ++ cs = 'p' :: ("rint".toList ++ ' ' :: cs) from rfl, pieces,
    show Piece.first 'p' ("rint".toList ++ ' ' :: cs) =
      (⟨.token (.keyword .print), "print".toList⟩, ' ' :: cs) by cbv, pieces]
  rfl

theorem scan_print (source : String) :
    scan ("print " ++ source) = .token ⟨.keyword .print, "print", 1⟩ :: scan source := by
  rw [scan, String.toList_append, pieces_print]
  rfl

/-- The tokens of the expression stand between `print` and a semicolon on the next line. -/
theorem tokensOf_printing {source : String} (lexical : lexicalErrorsOf source = []) :
    ∃ tokens line, (∀ t ∈ tokens, t.kind ≠ .eof) ∧
      tokensOf source = tokens ++ [⟨.eof, "", line⟩] ∧
      lexicalErrorsOf (printing source) = [] ∧
      ∃ next, tokensOf (printing source) = ⟨.keyword .print, "print", 1⟩ ::
        (tokens ++ [⟨.symbol .semicolon, ";", next⟩, ⟨.eof, "", next⟩]) := by
  obtain ⟨tokens, line, noEnd, alone, behind⟩ := tokensOf_append_line lexical
  obtain ⟨joined, noErrors⟩ := behind ";"
  refine ⟨tokens, line, noEnd, alone, ?_, 1 + (source.toList.count '\n' + 1), ?_⟩
  · rw [printing, lexicalErrorsOf, scan_print]
    exact noErrors (by cbv)
  · rw [printing, tokensOf, scan_print]
    have semicolon : tokensOf ";" = [⟨.symbol .semicolon, ";", 1⟩, ⟨.eof, "", 1⟩] := by cbv
    rw [semicolon] at joined
    exact congrArg (List.cons _) joined

/-! ## Reading -/

namespace Rule

/-- An expression that is all of the input is read up to the end. -/
theorem wholeExpression_eq_ok {n : Nat} {c c' : Cursor} {e : Expr}
    (run : wholeExpression n c = .ok e c') : expression n c = .ok e c' ∧ c'.atEnd = true := by
  obtain ⟨e', c₁, read, run⟩ := bind_eq_ok.mp run
  obtain ⟨ended, c₂, asked, run⟩ := bind_eq_ok.mp run
  cases asked
  split at run
  · rename_i atEnd
    cases run
    exact ⟨read, atEnd⟩
  · cases run

/-- Before the end of the input there are the tokens before its first end. -/
theorem taken_eq {tokens taken : List Token} {ending : Token} {c : Cursor}
    (noEnd : ∀ t ∈ tokens, t.kind ≠ .eof) (ends : ending.kind = .eof)
    (whole : tokens ++ [ending] = taken ++ c.rest) (noEnd' : ∀ t ∈ taken, t.kind ≠ .eof)
    (ended : c.atEnd = true) : taken = tokens := by
  obtain ⟨extra, rfl, e⟩ | ⟨left, rfl, e⟩ := List.append_eq_append_iff.mp whole
  · cases extra with
    | nil => exact List.append_nil _
    | cons t extra =>
      obtain ⟨rfl, -⟩ := List.cons.inj e
      exact absurd ends (noEnd' _ (List.mem_append_right _ List.mem_cons_self))
  · cases left with
    | nil => exact (List.append_nil _).symm
    | cons t left =>
      obtain ⟨rest, id⟩ := c
      cases e
      rw [Cursor.atEnd_cons (noEnd t (List.mem_append_right _ List.mem_cons_self))] at ended
      cases ended

/-- Tokens that are read as an expression up to the end of the input are read as the same expression
before a semicolon. -/
theorem expression_before_semicolon {n n' : Nat} {tokens : List Token} {ending mark last : Token}
    {e : Expr} {c : Cursor} (noEnd : ∀ t ∈ tokens, t.kind ≠ .eof) (ends : ending.kind = .eof)
    (isMark : mark.kind = .symbol .semicolon) (deep : Deep 16 (tokens.length + 2) n)
    (deep' : Deep 16 (tokens.length + 3) n')
    (run : expression n ⟨tokens ++ [ending], 0⟩ = .ok e c) (ended : c.atEnd = true) :
    expression n' ⟨tokens ++ [mark, last], 0⟩ = .ok e ⟨[mark, last], c.nextId⟩ := by
  obtain ⟨taken, whole, noEnd', -, same⟩ :=
    ((localExpressions ne_eof_of_inner (.behind 0) n).expression deep deep').reads (by simp) run
  obtain rfl := taken_eq noEnd ends whole noEnd' ended
  have goesOn : TokenKind.EndsExpression mark.kind := isMark ▸ ⟨rfl, nofun⟩
  have again := same [mark, last] (by rw [Setting.behind_moved]; simp) (.inr goesOn)
  rw [Setting.behind_moved] at again
  exact again.trans (congrArg (EStateM.Result.ok · _) (Expr.relabel_same e))

end Rule

namespace Program

/-- A program that is one expression between `print` and a semicolon. -/
theorem readFrom_print {n rounds : Nat} {word semicolon text : String} {line line' line'' : Nat}
    {ts : List Token} {id id' : ExprId} {e : Expr}
    (run : Rule.expression n ⟨ts, id⟩ =
      .ok e ⟨[⟨.symbol .semicolon, semicolon, line'⟩, ⟨.eof, text, line''⟩], id'⟩) :
    readFrom (n + 2) (rounds + 1) ⟨⟨.keyword .print, word, line⟩ :: ts, id⟩ =
      ⟨[.print e], [], id'⟩ := by
  have statement : Rule.declaration (n + 2) ⟨⟨.keyword .print, word, line⟩ :: ts, id⟩ =
      .ok (.print e) ⟨[⟨.eof, text, line''⟩], id'⟩ := bind_of_ok run
  have more : (⟨.keyword .print, word, line⟩ : Token).kind ≠ .eof := nofun
  rw [readFrom_cons more, statement]
  dsimp only
  rw [readFrom_of_end rfl]

/-- What is read as one expression is read, between `print` and a semicolon, as the statement that
prints it. -/
theorem ofTokens_print {word semicolon text : String} {line line' line'' : Nat}
    {tokens : List Token} {ending : Token} {e : Expr} (noEnd : ∀ t ∈ tokens, t.kind ≠ .eof)
    (ends : ending.kind = .eof) (read : Expr.ofTokens (tokens ++ [ending]) = .ok e) :
    ∃ id, ofTokens (⟨.keyword .print, word, line⟩ ::
      (tokens ++ [⟨.symbol .semicolon, semicolon, line'⟩, ⟨.eof, text, line''⟩])) =
        ⟨[.print e], [], id⟩ := by
  unfold Expr.ofTokens at read
  split at read
  · rename_i c run
    cases read
    obtain ⟨alone, ended⟩ := Rule.wholeExpression_eq_ok run
    have deep : Deep 16 (tokens.length + 2) (depth (tokens ++ [ending])) := by
      simp only [depth, List.length_append, List.length_singleton]
      omega
    have deep' : Deep 16 (tokens.length + 3) (24 * (tokens.length + 3) + 22) := by omega
    have whole : depth (⟨.keyword .print, word, line⟩ ::
        (tokens ++ [⟨.symbol .semicolon, semicolon, line'⟩, ⟨.eof, text, line''⟩])) =
        24 * (tokens.length + 3) + 22 + 2 := by
      simp only [depth, List.length_cons, List.length_append, List.length_nil]
      omega
    refine ⟨c.nextId, ?_⟩
    rw [ofTokens, whole, List.length_cons]
    exact readFrom_print
      (Rule.expression_before_semicolon noEnd ends rfl deep deep' alone ended)
  · cases read

/-- A source that is read as one expression prints this expression when it is put after `print`. -/
theorem ofTokens_printing {source : String} {e : Expr}
    (lexical : lexicalErrorsOf source = []) (read : Expr.ofTokens (tokensOf source) = .ok e) :
    ∃ id, ofTokens (tokensOf (printing source)) = ⟨[.print e], [], id⟩ := by
  obtain ⟨tokens, line, noEnd, alone, -, next, printed⟩ := tokensOf_printing lexical
  rw [alone] at read
  rw [printed]
  exact ofTokens_print noEnd rfl read

end Program

end Lox
