import Mathlib.Data.List.TakeWhile
import Lox.Proofs.Token.Longest

/-!
# Scanning line by line

A line break ends every piece but a string. So where no string is left open, a text, a line break
and another text are cut into the pieces of the one and of the other (`pieces_append_line`), and
scanned as the items of the one and those of the other, which come that many lines later
(`items_append_line`). So are two sources (`scan_append_line`), and the tokens of a source without
lexical errors and of one behind it (`tokensOf_append_line`).
-/

namespace Lox

/-! ## Pieces -/

/-- What satisfies `p` ends before a character that does not. -/
theorem span_append {p : Char → Bool} {c : Char} (stops : p c = false) (cs more : List Char) :
    (cs ++ c :: more).takeWhile p = cs.takeWhile p ∧
      (cs ++ c :: more).dropWhile p = cs.dropWhile p ++ c :: more := by
  induction cs with
  | nil => simp [stops]
  | cons d cs ih =>
    rw [List.cons_append, List.takeWhile_cons, List.takeWhile_cons, List.dropWhile_cons,
      List.dropWhile_cons]
    split
    · exact ⟨congrArg _ ih.1, ih.2⟩
    · exact ⟨rfl, rfl⟩

namespace Piece

/-- A blank goes on with no word, no number and no symbol, and makes no comment. -/
theorem stops_of_isBlank {b : Char} (blank : isBlank b) :
    continuesWord b = false ∧ b.isDigit = false ∧ b ≠ '.' ∧ b ≠ '=' ∧ b ≠ '/' := by
  simp only [isBlank, Bool.or_eq_true, beq_iff_eq] at blank
  rcases blank with ((rfl | rfl) | rfl) | rfl <;> decide

section
variable {b : Char} (blank : isBlank b)
include blank

theorem word_append_blank (c : Char) (cs more : List Char) :
    word c (cs ++ b :: more) = ((word c cs).1, (word c cs).2 ++ b :: more) := by
  obtain ⟨taken, dropped⟩ := span_append (stops_of_isBlank blank).1 cs more
  simp only [word, taken, dropped]

theorem fraction?_append_blank (cs more : List Char) :
    fraction? (cs ++ b :: more) = (fraction? cs).map fun f => (f.1, f.2 ++ b :: more) := by
  obtain ⟨-, noDigit, noPoint, -⟩ := stops_of_isBlank blank
  obtain _ | ⟨c, _ | ⟨d, cs⟩⟩ := cs
  · simp [fraction?, noPoint]
  · by_cases point : c = '.'
    · subst point
      simp [fraction?, noDigit]
    · simp [fraction?, point]
  · by_cases point : c = '.'
    · subst point
      obtain ⟨taken, dropped⟩ := span_append noDigit cs more
      simp only [List.cons_append, fraction?, taken, dropped]
      split <;> rfl
    · simp [fraction?, point]

theorem number_append_blank (c : Char) (cs more : List Char) :
    number c (cs ++ b :: more) = ((number c cs).1, (number c cs).2 ++ b :: more) := by
  obtain ⟨taken, dropped⟩ := span_append (stops_of_isBlank blank).2.1 cs more
  simp only [number, taken, dropped, fraction?_append_blank blank]
  cases fraction? (cs.dropWhile Char.isDigit) <;> rfl

theorem symbol_append_blank (c : Char) (cs more : List Char) :
    symbol c (cs ++ b :: more) = ((symbol c cs).1, (symbol c cs).2 ++ b :: more) := by
  obtain ⟨-, -, -, noEqual, -⟩ := stops_of_isBlank blank
  cases single : single? c with
  | none => simp only [symbol, single]
  | some s =>
    cases pair : withEqual? s with
    | none => simp only [symbol, single, pair]
    | some t =>
      cases cs with
      | nil => simp [symbol, single, pair, noEqual]
      | cons d cs =>
        by_cases equals : d = '='
        · simp [symbol, single, pair, equals]
        · simp [symbol, single, pair, equals]

end

theorem comment_append_line (c : Char) (cs more : List Char) :
    comment c (cs ++ '\n' :: more) = ((comment c cs).1, (comment c cs).2 ++ '\n' :: more) := by
  obtain ⟨taken, dropped⟩ := span_append (p := (· ≠ '\n')) (c := '\n') (by decide) cs more
  simp only [comment, taken, dropped]

theorem quoted_append_of_closes {cs : List Char} (closes : (quoted cs).1.kind ≠ .unterminated)
    (more : List Char) : quoted (cs ++ more) = ((quoted cs).1, (quoted cs).2 ++ more) := by
  by_cases quote : '"' ∈ cs
  · obtain ⟨contents, rest, rfl, noQuote⟩ := List.eq_append_cons_of_mem quote
    rw [List.append_assoc, List.cons_append, quoted_append noQuote, quoted_append noQuote]
  · exact absurd (by rw [quoted_of_not_mem quote]) closes

/-- A blank ends a piece that is no string left open, and no comment unless the line ends. -/
theorem first_append_blank {b c : Char} {cs : List Char} (blank : isBlank b)
    (closes : (first c cs).1.kind ≠ .unterminated)
    (ends : c = '/' → cs.head? = some '/' → b = '\n') (more : List Char) :
    first c (cs ++ b :: more) = ((first c cs).1, (first c cs).2 ++ b :: more) := by
  have slash : (cs ++ b :: more).head? = some '/' ↔ cs.head? = some '/' := by
    cases cs with
    | nil => simp [(stops_of_isBlank blank).2.2.2.2]
    | cons d cs => rfl
  unfold first at closes ⊢
  simp only [slash]
  split_ifs at closes ⊢ with _ _ _ _ isComment
  · rfl
  · exact word_append_blank blank c cs more
  · exact number_append_blank blank c cs more
  · exact quoted_append_of_closes closes (b :: more)
  · obtain rfl := ends isComment.1 isComment.2
    exact comment_append_line c cs more
  · exact symbol_append_blank blank c cs more

end Piece

theorem pieces_append_line {cs : List Char} (closed : ∀ p ∈ pieces cs, p.kind ≠ .unterminated)
    (more : List Char) :
    pieces (cs ++ '\n' :: more) = pieces cs ++ ⟨.skipped, ['\n']⟩ :: pieces more := by
  fun_induction pieces cs with
  | case1 => rw [List.nil_append, pieces]; rfl
  | case2 c cs ih =>
    rw [List.forall_mem_cons] at closed
    rw [List.cons_append, pieces, Piece.first_append_blank rfl closed.1 (fun _ _ => rfl),
      ih closed.2]
    rfl

/-! ## Items -/

/-- The token, some lines later. -/
def Token.later (lines : Nat) (t : Token) : Token :=
  { t with line := t.line + lines }

theorem Token.later_zero : Token.later 0 = id := rfl

/-- The error, some lines later. -/
def LexicalError.later (lines : Nat) (e : LexicalError) : LexicalError :=
  { e with line := e.line + lines }

/-- The item, some lines later. -/
def Item.later (lines : Nat) : Item → Item
  | token t => token (t.later lines)
  | error e => error (e.later lines)

theorem Piece.item?_later (p : Piece) (line lines : Nat) :
    p.item? (line + lines) = (p.item? line).map (Item.later lines) := by
  unfold item?
  split <;> rfl

theorem itemsFrom_later (lines : Nat) (ps : List Piece) (line : Nat) :
    itemsFrom (line + lines) ps = (itemsFrom line ps).map (Item.later lines) := by
  induction ps generalizing line with
  | nil => rfl
  | cons p ps ih =>
    have next : line + lines + p.text.count '\n' = line + p.text.count '\n' + lines := by omega
    rw [itemsFrom, itemsFrom, List.map_append, next, ih, Piece.item?_later p (line + _)]
    cases p.item? (line + p.text.count '\n') <;> rfl

/-- A piece gives no end of the input. -/
theorem Piece.item?_ne_eof {p : Piece} (suits : ∀ kind, p.kind = .token kind → kind ≠ .eof)
    {line : Nat} {t : Token} (h : p.item? line = some (.token t)) : t.kind ≠ .eof := by
  unfold item? at h
  split at h <;> cases h
  rename_i kind e
  exact suits kind e

theorem TokenText.ne_eof {kind : TokenKind} {text : List Char} (h : TokenText kind text) :
    kind ≠ .eof := by
  cases h <;> nofun

theorem tokenText_of_mem_pieces {cs : List Char} {p : Piece} (h : p ∈ pieces cs)
    {kind : TokenKind} (e : p.kind = .token kind) : TokenText kind p.text := by
  fun_induction pieces cs with
  | case1 => cases h
  | case2 c cs ih =>
    obtain rfl | h := List.mem_cons.mp h
    · exact Piece.tokenText_first e
    · exact ih h

theorem kind_ne_eof_of_mem_pieces {cs : List Char} {p : Piece} (h : p ∈ pieces cs)
    (kind : TokenKind) (e : p.kind = .token kind) : kind ≠ .eof :=
  (tokenText_of_mem_pieces h e).ne_eof

/-- The items of pieces are those before the end of the input, whatever comes after them, and then
the end. -/
theorem itemsFrom_append (ps : List Piece)
    (suits : ∀ p ∈ ps, ∀ kind, p.kind = .token kind → kind ≠ .eof) (line : Nat) :
    ∃ items, (∀ t, .token t ∈ items → t.kind ≠ .eof) ∧
      ∀ qs, itemsFrom line (ps ++ qs) =
        items ++ itemsFrom (line + (ps.flatMap Piece.text).count '\n') qs := by
  induction ps generalizing line with
  | nil => exact ⟨[], nofun, fun qs => rfl⟩
  | cons p ps ih =>
    rw [List.forall_mem_cons] at suits
    obtain ⟨items, noEnd, whole⟩ := ih suits.2 (line + p.text.count '\n')
    refine ⟨(p.item? (line + p.text.count '\n')).toList ++ items, fun t inside => ?_, fun qs => ?_⟩
    · obtain inside | inside := List.mem_append.mp inside
      · exact Piece.item?_ne_eof suits.1 (Option.mem_toList.mp inside)
      · exact noEnd t inside
    · rw [List.cons_append, itemsFrom, whole, List.flatMap_cons, List.count_append, Nat.add_assoc,
        List.append_assoc]

/-- Where no string is left open, the items of a text, a line break and another text are those of
the one, and then those of the other, that many lines later. -/
theorem items_append_line {cs : List Char} (closed : ∀ p ∈ pieces cs, p.kind ≠ .unterminated) :
    ∃ items, (∀ t, .token t ∈ items → t.kind ≠ .eof) ∧
      itemsFrom 1 (pieces cs) = items ++ [.token ⟨.eof, "", 1 + cs.count '\n'⟩] ∧
      ∀ more, itemsFrom 1 (pieces (cs ++ '\n' :: more)) =
        items ++ (itemsFrom 1 (pieces more)).map (Item.later (cs.count '\n' + 1)) := by
  obtain ⟨items, noEnd, whole⟩ := itemsFrom_append (pieces cs)
    (fun _ inside => kind_ne_eof_of_mem_pieces inside) 1
  rw [flatMap_text_pieces] at whole
  refine ⟨items, noEnd, ?_, fun more => ?_⟩
  · have alone := whole []
    rwa [List.append_nil, itemsFrom] at alone
  · rw [pieces_append_line closed, whole, itemsFrom, Nat.add_assoc, ← itemsFrom_later]
    rfl

theorem filterMap_token?_later (lines : Nat) (items : List Item) :
    (items.map (Item.later lines)).filterMap Item.token? =
      (items.filterMap Item.token?).map (Token.later lines) := by
  rw [List.filterMap_map, List.map_filterMap]
  congr 1
  funext item
  cases item <;> rfl

theorem filterMap_error?_later (lines : Nat) (items : List Item) :
    (items.map (Item.later lines)).filterMap Item.error? =
      (items.filterMap Item.error?).map (LexicalError.later lines) := by
  rw [List.filterMap_map, List.map_filterMap]
  congr 1
  funext item
  cases item <;> rfl

/-! ## Sources -/

theorem unterminated_of_mem_pieces {ps : List Piece} {p : Piece} (h : p ∈ ps)
    (isOpen : p.kind = .unterminated) (line : Nat) :
    ∃ line', .error ⟨.unterminatedString, line'⟩ ∈ itemsFrom line ps := by
  induction ps generalizing line with
  | nil => cases h
  | cons q ps ih =>
    rw [itemsFrom]
    obtain rfl | h := List.mem_cons.mp h
    · refine ⟨line + p.text.count '\n', List.mem_append_left _ ?_⟩
      simp [Piece.item?, isOpen]
    · obtain ⟨line', inside⟩ := ih h (line + q.text.count '\n')
      exact ⟨line', List.mem_append_right _ inside⟩

theorem closed_of_lexicalErrorsOf {source : String}
    (h : ∀ e ∈ lexicalErrorsOf source, e.cause ≠ .unterminatedString) :
    ∀ p ∈ pieces source.toList, p.kind ≠ .unterminated := by
  intro p inside isOpen
  obtain ⟨line, found⟩ := unterminated_of_mem_pieces inside isOpen 1
  exact h ⟨.unterminatedString, line⟩ (List.mem_filterMap.mpr ⟨_, found, rfl⟩) rfl

/-- Below a source that leaves no string open, another one is scanned as if it began there. -/
theorem scan_append_line {source : String}
    (closed : ∀ e ∈ lexicalErrorsOf source, e.cause ≠ .unterminatedString) :
    ∃ items, (∀ t, .token t ∈ items → t.kind ≠ .eof) ∧
      scan source = items ++ [.token ⟨.eof, "", 1 + source.toList.count '\n'⟩] ∧
      ∀ more, scan (source ++ "\n" ++ more) =
        items ++ (scan more).map (Item.later (source.toList.count '\n' + 1)) := by
  obtain ⟨items, noEnd, alone, whole⟩ := items_append_line (closed_of_lexicalErrorsOf closed)
  refine ⟨items, noEnd, alone, fun more => ?_⟩
  rw [scan, String.toList_append, String.toList_append, List.append_assoc]
  exact whole more.toList

/-- The tokens of two sources without lexical errors, one below the other, are those of the first
before its end, and then those of the second, some lines later. -/
theorem tokensOf_append_line {source : String} (h : lexicalErrorsOf source = []) :
    ∃ tokens line, (∀ t ∈ tokens, t.kind ≠ .eof) ∧
      tokensOf source = tokens ++ [⟨.eof, "", line⟩] ∧
      ∀ more,
        tokensOf (source ++ "\n" ++ more) =
          tokens ++ (tokensOf more).map (Token.later (source.toList.count '\n' + 1)) ∧
        (lexicalErrorsOf more = [] → lexicalErrorsOf (source ++ "\n" ++ more) = []) := by
  have closed : ∀ e ∈ lexicalErrorsOf source, e.cause ≠ .unterminatedString := by
    rw [h]
    nofun
  obtain ⟨items, noEnd, alone, joined⟩ := scan_append_line closed
  have noErrors : items.filterMap Item.error? = [] := by
    rw [lexicalErrorsOf, alone, List.filterMap_append, List.append_eq_nil_iff] at h
    exact h.1
  refine ⟨items.filterMap Item.token?, 1 + source.toList.count '\n', fun t inside => ?_, ?_,
    fun more => ⟨?_, fun none => ?_⟩⟩
  · obtain ⟨item, inside, e⟩ := List.mem_filterMap.mp inside
    cases item with
    | token t' =>
      cases e
      exact noEnd t inside
    | error => cases e
  · rw [tokensOf, alone, List.filterMap_append]
    rfl
  · rw [tokensOf, joined, List.filterMap_append, tokensOf, filterMap_token?_later]
  · rw [lexicalErrorsOf, joined, List.filterMap_append, noErrors, filterMap_error?_later]
    rw [lexicalErrorsOf] at none
    rw [none]
    rfl

theorem tokenText_of_mem_itemsFrom {ps : List Piece}
    (suits : ∀ p ∈ ps, ∀ kind, p.kind = .token kind → TokenText kind p.text) {line : Nat}
    {t : Token}
    (h : .token t ∈ itemsFrom line ps) :
    t.kind = .eof ∧ t.lexeme = "" ∨ TokenText t.kind t.lexeme.toList := by
  induction ps generalizing line with
  | nil =>
    cases List.mem_singleton.mp h
    exact .inl ⟨rfl, rfl⟩
  | cons p ps ih =>
    rw [List.forall_mem_cons] at suits
    obtain here | later := List.mem_append.mp h
    · replace here := Option.mem_toList.mp here
      unfold Piece.item? at here
      split at here <;> cases here
      rename_i kind e
      exact .inr ((String.toList_ofList (l := p.text)).symm ▸ suits.1 kind e)
    · exact ih suits.2 later

/-- A token of a source is the end of the input, or its lexeme is a text that such tokens have. -/
theorem tokenText_of_mem_tokensOf {source : String} {t : Token} (h : t ∈ tokensOf source) :
    t.kind = .eof ∧ t.lexeme = "" ∨ TokenText t.kind t.lexeme.toList := by
  obtain ⟨item, inside, e⟩ := List.mem_filterMap.mp h
  cases item with
  | token t' =>
    cases e
    exact tokenText_of_mem_itemsFrom (fun _ there _ => tokenText_of_mem_pieces there) inside
  | error => cases e

/-- Below a source that leaves no string open, whatever else is wrong with it, another source is
scanned as it is alone, but for the lines. -/
theorem sources_are_scanned_line_by_line (first second : String)
    (closed : ∀ e ∈ lexicalErrorsOf first, e.cause ≠ .unterminatedString) :
    (scan first).getLast? = some (.token ⟨.eof, "", 1 + first.toList.count '\n'⟩) ∧
      scan (first ++ "\n" ++ second) =
        (scan first).dropLast ++ (scan second).map (Item.later (1 + first.toList.count '\n')) := by
  obtain ⟨items, -, alone, below⟩ := scan_append_line closed
  refine ⟨?_, ?_⟩
  · rw [alone, List.getLast?_concat]
  · rw [below, alone, List.dropLast_concat, Nat.add_comm]

/-- A string over two lines, an error and a comment above another error. -/
theorem error_is_found_on_third_line :
    let first := "a \"b\nc\" @ // d \""
    lexicalErrorsOf first = [⟨.unexpected '@', 2⟩] ∧
      (∀ e ∈ lexicalErrorsOf first, e.cause ≠ .unterminatedString) ∧
      scan (first ++ "\n" ++ "#") =
        (scan first).dropLast ++ [.error ⟨.unexpected '#', 3⟩, .token ⟨.eof, "", 3⟩] := by
  intro first
  have errors : lexicalErrorsOf first = [⟨.unexpected '@', 2⟩] := by cbv
  have closed : ∀ e ∈ lexicalErrorsOf first, e.cause ≠ .unterminatedString := by
    rw [errors]
    simp
  have below : (scan "#").map (Item.later (1 + first.toList.count '\n')) =
      [.error ⟨.unexpected '#', 3⟩, .token ⟨.eof, "", 3⟩] := by cbv
  exact ⟨errors, closed, below ▸ (sources_are_scanned_line_by_line first "#" closed).2⟩

end Lox
