import Lox.Number.Shortest

/-!
# Number texts

A number is written in four ways: as a value (`text`), in a syntax tree (`treeText`), in the list
of tokens (`tokenText`) and as a JSON number (`json`). The first three never use an exponent. They
differ in how a whole number is written: with all its digits, with all its digits and `.0`, or
with `.0` only below `2 ^ 63`. `ofDigits` goes the other way, from the digits of a literal to the
nearest double.
-/

namespace Lox.Number

/-- The decimal digits of `n`. -/
def digits (n : Nat) : List Char :=
  Nat.toDigits 10 n

namespace Decimal

/-- All digits and, inside or in front of them, a point if one is needed. -/
def positional (d : Decimal) : List Char :=
  let ds := digits d.coefficient
  if 0 ≤ d.exponent then
    ds ++ List.replicate d.exponent.toNat '0'
  else
    let places := (-d.exponent).toNat
    if places < ds.length then
      ds.take (ds.length - places) ++ '.' :: ds.drop (ds.length - places)
    else
      '0' :: '.' :: (List.replicate (places - ds.length) '0' ++ ds)

/-- The exponent when the point stands after the first digit. -/
def leading (d : Decimal) : Int :=
  d.exponent + ((digits d.coefficient).length : Int) - 1

/-- One digit, the others after a point, and the exponent with its sign. -/
def scientific (d : Decimal) : List Char :=
  let mantissa :=
    match digits d.coefficient with
    | first :: second :: more => first :: '.' :: second :: more
    | ds => ds
  let mark := if d.leading < 0 then ['e', '-'] else ['e', '+']
  mantissa ++ mark ++ digits d.leading.natAbs

end Decimal

/-- A text with a minus sign in front if the number is negative. -/
def signed (negative : Bool) (cs : List Char) : String :=
  String.ofList (if negative then '-' :: cs else cs)

/-- A number without an exponent. `whole` may choose the text of a whole number; without a choice
it is the shortest decimal, as for a number with a fraction. -/
def textBy (whole : Bool → Nat → Option String) (x : Float) : String :=
  match Reading.ofFloat x with
  | .nan => "NaN"
  | .infinite negative => signed negative ['i', 'n', 'f']
  | .finite negative size =>
    (size.natural?.bind (whole negative)).getD (signed negative (size.shortest .up).positional)

/-- The text of a number as a value: a whole number has all its digits. -/
def text (x : Float) : String :=
  textBy (fun negative n => some (signed negative (digits n))) x

/-- The text of a number literal in a syntax tree: a whole number has all its digits and `.0`. -/
def treeText (x : Float) : String :=
  textBy (fun negative n => some (signed negative (digits n ++ ['.', '0']))) x

/-- The text of a number in the list of tokens: a whole number below `2 ^ 63` is written as an
integer and `.0`, so that zero has no sign. -/
def tokenText (x : Float) : String :=
  textBy (fun negative n =>
    if n < Nat.pow 2 63 then some (signed (negative && n ≠ 0) (digits n ++ ['.', '0']))
    else none) x

/-- A number as JSON: the shortest decimal, positional from `10 ^ -5` to below `10 ^ 16` and
scientific otherwise; `null` if it is not finite. -/
def json (x : Float) : String :=
  match Reading.ofFloat x with
  | .nan => "null"
  | .infinite _ => "null"
  | .finite negative size =>
    let d := size.shortest .toEven
    if -5 ≤ d.leading ∧ d.leading < 16 then
      signed negative (if 0 ≤ d.exponent then d.positional ++ ['.', '0'] else d.positional)
    else
      signed negative d.scientific

/-- The double nearest to the number whose decimal digits are `whole` and, after the point,
`fraction`. -/
def ofDigits (whole fraction : List Char) : Float :=
  let value := (whole ++ fraction).foldl (fun n c => 10 * n + (c.toNat - '0'.toNat)) 0
  Float.ofScientific value true fraction.length

end Lox.Number
