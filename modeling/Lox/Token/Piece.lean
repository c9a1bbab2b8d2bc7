import Lox.Token

/-!
# Pieces of source text

Source text is cut into pieces from left to right: blanks, comments, tokens, and characters that
begin no token. `pieces` loses nothing: each piece is not empty, and put together they are the
source again (`flatMap_text_pieces`). The longest possible token is taken each time.
-/

namespace Lox

/-- What a piece of source text is. A string without a closing quote reaches to the end. -/
inductive PieceKind
  | skipped
  | token (kind : TokenKind)
  | unexpected (c : Char)
  | unterminated

/-- A piece of source text. -/
structure Piece where
  kind : PieceKind
  text : List Char

namespace Piece

/-- Blanks separate tokens. -/
def isBlank (c : Char) : Bool :=
  c == ' ' || c == '\r' || c == '\t' || c == '\n'

/-- An identifier begins with an ASCII letter or an underscore. -/
def startsWord (c : Char) : Bool :=
  c.isAlpha || c == '_'

/-- An identifier goes on with those and with digits. -/
def continuesWord (c : Char) : Bool :=
  c.isAlphanum || c == '_'

/-- The symbol that is one character. -/
def single? : Char → Option Symbol
  | '(' => some .leftParen
  | ')' => some .rightParen
  | '{' => some .leftBrace
  | '}' => some .rightBrace
  | ',' => some .comma
  | '.' => some .dot
  | '-' => some .minus
  | '+' => some .plus
  | ';' => some .semicolon
  | '/' => some .slash
  | '*' => some .star
  | '!' => some .bang
  | '=' => some .equal
  | '>' => some .greater
  | '<' => some .less
  | _ => none

/-- The symbol that is `s` and an equals sign. -/
def withEqual? : Symbol → Option Symbol
  | .bang => some .bangEqual
  | .equal => some .equalEqual
  | .greater => some .greaterEqual
  | .less => some .lessEqual
  | _ => none

/-- A keyword or an identifier. -/
def wordKind (text : List Char) : TokenKind :=
  match Keyword.ofText? (String.ofList text) with
  | some k => .keyword k
  | none => .identifier

/-- The word that begins with `c`. -/
def word (c : Char) (cs : List Char) : Piece × List Char :=
  let text := c :: cs.takeWhile continuesWord
  (⟨.token (wordKind text), text⟩, cs.dropWhile continuesWord)

/-- The digits after a point with which the text begins, and the text after them. A point
without digits after it does not count. -/
def fraction? : List Char → Option (List Char × List Char)
  | '.' :: d :: rest =>
    if d.isDigit then
      some (d :: rest.takeWhile Char.isDigit, rest.dropWhile Char.isDigit)
    else
      none
  | _ => none

/-- The number that begins with the digit `c`. -/
def number (c : Char) (cs : List Char) : Piece × List Char :=
  let whole := c :: cs.takeWhile Char.isDigit
  match fraction? (cs.dropWhile Char.isDigit) with
  | some (fraction, rest) =>
    (⟨.token (.number (Number.ofDigits whole fraction)), whole ++ '.' :: fraction⟩, rest)
  | none => (⟨.token (.number (Number.ofDigits whole [])), whole⟩, cs.dropWhile Char.isDigit)

/-- The string whose opening quote stands before `cs`. -/
def quoted (cs : List Char) : Piece × List Char :=
  let contents := cs.takeWhile (· ≠ '"')
  match cs.dropWhile (· ≠ '"') with
  | [] => (⟨.unterminated, '"' :: contents⟩, [])
  | _ :: rest => (⟨.token (.string (String.ofList contents)), '"' :: (contents ++ ['"'])⟩, rest)

/-- The comment that `c` opens, up to the end of the line. -/
def comment (c : Char) (cs : List Char) : Piece × List Char :=
  (⟨.skipped, c :: cs.takeWhile (· ≠ '\n')⟩, cs.dropWhile (· ≠ '\n'))

/-- The symbol that begins with `c`, or `c` alone if none does. -/
def symbol (c : Char) (cs : List Char) : Piece × List Char :=
  match single? c with
  | none => (⟨.unexpected c, [c]⟩, cs)
  | some s =>
    match withEqual? s, cs with
    | some t, '=' :: rest => (⟨.token (.symbol t), [c, '=']⟩, rest)
    | _, _ => (⟨.token (.symbol s), [c]⟩, cs)

/-- The first piece of the text `c :: cs`, and the text after it. -/
def first (c : Char) (cs : List Char) : Piece × List Char :=
  if isBlank c then (⟨.skipped, [c]⟩, cs)
  else if startsWord c then word c cs
  else if c.isDigit then number c cs
  else if c = '"' then quoted cs
  else if c = '/' ∧ cs.head? = some '/' then comment c cs
  else symbol c cs

/-! ## Nothing is lost -/

theorem word_text_append (c : Char) (cs : List Char) :
    (word c cs).1.text ++ (word c cs).2 = c :: cs := by
  simp [word]

theorem append_of_fraction? {cs fraction rest : List Char}
    (h : fraction? cs = some (fraction, rest)) : '.' :: (fraction ++ rest) = cs := by
  unfold fraction? at h
  split at h
  · split at h
    · simp only [Option.some.injEq, Prod.mk.injEq] at h
      obtain ⟨rfl, rfl⟩ := h
      simp
    · contradiction
  · contradiction

theorem number_text_append (c : Char) (cs : List Char) :
    (number c cs).1.text ++ (number c cs).2 = c :: cs := by
  simp only [number]
  split
  · rename_i fraction rest h
    simp [append_of_fraction? h]
  · simp

theorem quoted_text_append (cs : List Char) :
    (quoted cs).1.text ++ (quoted cs).2 = '"' :: cs := by
  have cut := List.takeWhile_append_dropWhile (p := (· ≠ '"')) (l := cs)
  simp only [quoted]
  split
  · rename_i e
    rw [e] at cut
    simpa using cut
  · rename_i d rest e
    have quote : d = '"' := by
      have := List.head?_dropWhile_not (p := (· ≠ '"')) cs
      rw [e] at this
      simpa using this
    rw [e, quote] at cut
    simpa using cut

theorem symbol_text_append (c : Char) (cs : List Char) :
    (symbol c cs).1.text ++ (symbol c cs).2 = c :: cs := by
  unfold symbol
  split
  · rfl
  · split <;> rfl

/-- The first piece and the text after it are the text itself. -/
theorem first_text_append (c : Char) (cs : List Char) :
    (first c cs).1.text ++ (first c cs).2 = c :: cs := by
  unfold first
  split
  · rfl
  split
  · exact word_text_append c cs
  split
  · exact number_text_append c cs
  split
  · rename_i h
    exact h ▸ quoted_text_append cs
  split
  · simp [comment]
  · exact symbol_text_append c cs

/-! ## Every piece is something -/

theorem number_text_ne_nil (c : Char) (cs : List Char) : (number c cs).1.text ≠ [] := by
  simp only [number]
  split <;> simp

theorem quoted_text_ne_nil (cs : List Char) : (quoted cs).1.text ≠ [] := by
  simp only [quoted]
  split <;> simp

theorem symbol_text_ne_nil (c : Char) (cs : List Char) : (symbol c cs).1.text ≠ [] := by
  unfold symbol
  split
  · simp
  · split <;> simp

/-- A piece is never empty. -/
theorem first_text_ne_nil (c : Char) (cs : List Char) : (first c cs).1.text ≠ [] := by
  unfold first
  split
  · simp
  split
  · simp [word]
  split
  · exact number_text_ne_nil c cs
  split
  · exact quoted_text_ne_nil cs
  split
  · simp [comment]
  · exact symbol_text_ne_nil c cs

/-- The text after the first piece is shorter than the text. -/
theorem first_length_le (c : Char) (cs : List Char) : (first c cs).2.length ≤ cs.length := by
  have whole := congrArg List.length (first_text_append c cs)
  have part := List.length_pos_iff.2 (first_text_ne_nil c cs)
  simp only [List.length_append, List.length_cons] at whole
  omega

end Piece

/-- All pieces of a source text. -/
def pieces : List Char → List Piece
  | [] => []
  | c :: cs => (Piece.first c cs).1 :: pieces (Piece.first c cs).2
termination_by cs => cs.length
decreasing_by exact Nat.lt_succ_of_le (Piece.first_length_le c cs)

/-- No character of the source is lost. -/
theorem flatMap_text_pieces (cs : List Char) : (pieces cs).flatMap Piece.text = cs := by
  fun_induction pieces cs with
  | case1 => rfl
  | case2 c cs ih => rw [List.flatMap_cons, ih, Piece.first_text_append]

end Lox
