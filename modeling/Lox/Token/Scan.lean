import Lox.Token.Piece

/-!
# Scanning

`scan` reads source text as a list of items: tokens, and errors where no token was found. The last
item is always the end of the input. The line of an item is the line on which its text ends, which
is one plus the line breaks up to there.
-/

namespace Lox

/-- Why a piece of source text is no token. -/
inductive LexicalCause
  | unexpected (c : Char)
  | unterminatedString
deriving DecidableEq, Repr

/-- What is said about it. -/
def LexicalCause.message : LexicalCause → String
  | unexpected c => "Unexpected character: " ++ String.singleton c
  | unterminatedString => "Unterminated string."

/-- A lexical error, and the line on which the piece ends. -/
structure LexicalError where
  cause : LexicalCause
  line : Nat
deriving DecidableEq, Repr

/-- What scanning finds at one place. -/
inductive Item
  | token (t : Token)
  | error (e : LexicalError)

/-- The token, unless the item is an error. -/
def Item.token? : Item → Option Token
  | token t => some t
  | error _ => none

/-- The error, unless the item is a token. -/
def Item.error? : Item → Option LexicalError
  | token _ => none
  | error e => some e

/-- The item that a piece ending on `line` gives. Blanks and comments give none. -/
def Piece.item? (p : Piece) (line : Nat) : Option Item :=
  match p.kind with
  | .skipped => none
  | .token kind => some (.token ⟨kind, String.ofList p.text, line⟩)
  | .unexpected c => some (.error ⟨.unexpected c, line⟩)
  | .unterminated => some (.error ⟨.unterminatedString, line⟩)

/-- The items of pieces that begin on `line`, and the end of the input. -/
def itemsFrom (line : Nat) : List Piece → List Item
  | [] => [.token ⟨.eof, "", line⟩]
  | p :: ps =>
    let line := line + p.text.count '\n'
    (p.item? line).toList ++ itemsFrom line ps

/-- Reads source text as items. -/
def scan (source : String) : List Item :=
  itemsFrom 1 (pieces source.toList)

/-- The tokens of a source, in order. -/
def tokensOf (source : String) : List Token :=
  (scan source).filterMap Item.token?

/-- The lexical errors of a source, in order. -/
def lexicalErrorsOf (source : String) : List LexicalError :=
  (scan source).filterMap Item.error?

end Lox
