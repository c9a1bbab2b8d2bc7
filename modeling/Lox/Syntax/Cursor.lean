import Lox.Syntax
import Lox.Syntax.Error

/-!
# Reading tokens

A rule of the grammar reads tokens from a cursor, which also hands out the numbers of nodes. Rules
are built from a few steps: take the next token if it is of some kind (`accept?`), ask whether the
input ends, take a number, and fail. A step that takes a token takes exactly one, never the end of
the input, so that nothing after the first end is looked at. A failed rule leaves the cursor where
it stopped.
-/

namespace Lox

/-- The tokens still to be read, and the number of the next node. -/
structure Cursor where
  rest : List Token
  nextId : ExprId

namespace Cursor

/-- The next token. -/
def token (c : Cursor) : Token :=
  c.rest.headD Token.afterLast

/-- Does the input end here? -/
def atEnd (c : Cursor) : Bool :=
  match c.token.kind with
  | .eof => true
  | _ => false

end Cursor

/-- A rule: it reads tokens and gives a result, or an error. -/
abbrev Rule := EStateM SyntaxError Cursor

namespace Rule

/-- Fails at the next token. -/
def fail {α : Type} (cause : SyntaxCause) : Rule α := fun c =>
  .error ⟨cause, c.rest⟩ c

/-- Fails, and blames an earlier token. -/
def failAt {α : Type} (rest : List Token) (cause : SyntaxCause) : Rule α := fun c =>
  .error ⟨cause, rest⟩ c

/-- The tokens from the next one on. -/
def position : Rule (List Token) := fun c =>
  .ok c.rest c

/-- Does the input end here? -/
def atEnd : Rule Bool := fun c =>
  .ok c.atEnd c

/-- The number of a new node. -/
def freshId : Rule ExprId := fun c =>
  .ok c.nextId { c with nextId := c.nextId + 1 }

/-- Takes the next token if `read` makes something of its kind. The end of the input is never
taken. -/
def accept? {α : Type} (read : TokenKind → Option α) : Rule (Option (α × Lexeme)) := fun c =>
  match c.rest with
  | [] => .ok none c
  | t :: ts =>
    match t.kind with
    | .eof => .ok none c
    | kind =>
      match read kind with
      | some a => .ok (some (a, ⟨t.lexeme, t.line⟩)) { c with rest := ts }
      | none => .ok none c

/-- Takes the symbol `s` if it is next. -/
def symbol? (s : Symbol) : Rule (Option Lexeme) := do
  let found ← accept? fun
    | .symbol t => if t = s then some () else none
    | _ => none
  return found.map Prod.snd

/-- Takes the keyword `k` if it is next, and says whether it was. -/
def keyword? (k : Keyword) : Rule (Option Lexeme) := do
  let found ← accept? fun
    | .keyword l => if l = k then some () else none
    | _ => none
  return found.map Prod.snd

/-- Takes the symbol that `place` asks for. -/
def expect (place : Place) : Rule Lexeme := do
  match ← symbol? place.symbol with
  | some mark => return mark
  | none => fail (.missingSymbol place)

/-- Takes a name. -/
def name (what : Named) : Rule Lexeme := do
  let found ← accept? fun
    | .identifier => some ()
    | _ => none
  match found with
  | some (_, name) => return name
  | none => fail (.missingName what)

end Rule

end Lox
