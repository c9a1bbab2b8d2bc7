import Lox.Number.Text
import Lox.Text.Quoted

/-!
# Tokens

A token is what a stretch of source text was read as (`TokenKind`), the text itself (`lexeme`) and
the line on which that text ends. A token is written in two ways: as a line of text (`Token.text`)
and as a JSON object (`Token.json`).
-/

namespace Lox

/-- Punctuation and operators. -/
inductive Symbol
  | leftParen | rightParen | leftBrace | rightBrace | comma | dot | minus | plus | semicolon
  | slash | star | bang | bangEqual | equal | equalEqual | greater | greaterEqual | less
  | lessEqual
deriving DecidableEq, Repr

namespace Symbol

/-- Every symbol once. -/
def all : List Symbol :=
  [leftParen, rightParen, leftBrace, rightBrace, comma, dot, minus, plus, semicolon, slash, star,
    bang, bangEqual, equal, equalEqual, greater, greaterEqual, less, lessEqual]

/-- How the symbol is spelt. -/
def text : Symbol → String
  | leftParen => "("
  | rightParen => ")"
  | leftBrace => "\x7b"
  | rightBrace => "\x7d"
  | comma => ","
  | dot => "."
  | minus => "-"
  | plus => "+"
  | semicolon => ";"
  | slash => "/"
  | star => "*"
  | bang => "!"
  | bangEqual => "!="
  | equal => "="
  | equalEqual => "=="
  | greater => ">"
  | greaterEqual => ">="
  | less => "<"
  | lessEqual => "<="

/-- The name of the symbol in the list of tokens. -/
def tag : Symbol → String
  | leftParen => "LEFT_PAREN"
  | rightParen => "RIGHT_PAREN"
  | leftBrace => "LEFT_BRACE"
  | rightBrace => "RIGHT_BRACE"
  | comma => "COMMA"
  | dot => "DOT"
  | minus => "MINUS"
  | plus => "PLUS"
  | semicolon => "SEMICOLON"
  | slash => "SLASH"
  | star => "STAR"
  | bang => "BANG"
  | bangEqual => "BANG_EQUAL"
  | equal => "EQUAL"
  | equalEqual => "EQUAL_EQUAL"
  | greater => "GREATER"
  | greaterEqual => "GREATER_EQUAL"
  | less => "LESS"
  | lessEqual => "LESS_EQUAL"

end Symbol

/-- The reserved words. -/
inductive Keyword
  | and | «class» | «else» | false | «fun» | «for» | «if» | nil | or | print | «return» | super
  | this | true | var | «while»
deriving DecidableEq, Repr

namespace Keyword

/-- Every keyword once. -/
def all : List Keyword :=
  [.and, .class, .else, .false, .fun, .for, .if, .nil, .or, .print, .return, .super, .this, .true,
    .var, .while]

/-- How the keyword is spelt. -/
def text : Keyword → String
  | .and => "and"
  | .class => "class"
  | .else => "else"
  | .false => "false"
  | .fun => "fun"
  | .for => "for"
  | .if => "if"
  | .nil => "nil"
  | .or => "or"
  | .print => "print"
  | .return => "return"
  | .super => "super"
  | .this => "this"
  | .true => "true"
  | .var => "var"
  | .while => "while"

/-- The name of the keyword in the list of tokens. -/
def tag : Keyword → String
  | .and => "AND"
  | .class => "CLASS"
  | .else => "ELSE"
  | .false => "FALSE"
  | .fun => "FUN"
  | .for => "FOR"
  | .if => "IF"
  | .nil => "NIL"
  | .or => "OR"
  | .print => "PRINT"
  | .return => "RETURN"
  | .super => "SUPER"
  | .this => "THIS"
  | .true => "TRUE"
  | .var => "VAR"
  | .while => "WHILE"

/-- The keyword spelt `s`, if there is one. -/
def ofText? (s : String) : Option Keyword :=
  all.find? (·.text == s)

end Keyword

/-- What a stretch of source text was read as. -/
inductive TokenKind
  | symbol (s : Symbol)
  | keyword (k : Keyword)
  | identifier
  | string (contents : String)
  | number (value : Float)
  | eof

/-- The name of the kind in the list of tokens. -/
def TokenKind.tag : TokenKind → String
  | symbol s => s.tag
  | keyword k => k.tag
  | identifier => "IDENTIFIER"
  | string _ => "STRING"
  | number _ => "NUMBER"
  | eof => "EOF"

/-- A token: its kind, its text and the line on which that text ends. -/
structure Token where
  kind : TokenKind
  lexeme : String
  line : Nat

namespace Token

/-- The value that a literal stands for; `null` for every other token. -/
def literalText (t : Token) : String :=
  match t.kind with
  | .string contents => contents
  | .number value => Number.tokenText value
  | _ => "null"

/-- The token as a line of text: its tag, its lexeme and its literal. -/
def text (t : Token) : String :=
  t.kind.tag ++ " " ++ t.lexeme ++ " " ++ t.literalText

/-- The kind as JSON: a tag, or an object from the tag to the literal. -/
def kindJson (t : Token) : String :=
  match t.kind with
  | .string contents => "\x7b\"STRING\":" ++ Text.Quoted.json contents ++ "\x7d"
  | .number value => "\x7b\"NUMBER\":" ++ Number.json value ++ "\x7d"
  | kind => Text.Quoted.json kind.tag

/-- The token as a JSON object without blanks. -/
def json (t : Token) : String :=
  "\x7b\"token_type\":" ++ t.kindJson ++ ",\"lexeme\":" ++ Text.Quoted.json t.lexeme ++
    ",\"line\":" ++ toString t.line ++ "\x7d"

end Token

end Lox
