import Lox.Number.Binary

/-!
# The shortest decimal that reads back

A decimal reads back as a double when the double is the nearest one to it. The reals that do are an
interval around the double's value (`Rounds`), with its ends included iff the significand is even.
`Binary.shortest` goes from coarse decimal grids to finer ones and takes the first grid on which
one of the value's two neighbours lies in that interval; of two such neighbours it takes the nearer,
and a tie goes as `Tie` says.
-/

namespace Lox.Number

/-- The number `coefficient * 10 ^ exponent`. -/
structure Decimal where
  coefficient : Nat
  exponent : Int
deriving DecidableEq, Repr

/-- Which of two equally near neighbours is taken. -/
inductive Tie
  | up
  | toEven
deriving DecidableEq, Repr

/-- The reals that round to a positive double, in units of a quarter of its last place: from
`low` to `high`, with the ends or without. -/
structure Rounds where
  low : Nat
  high : Nat
  closed : Bool

/-- Below a power of two the doubles lie twice as close, unless the exponent is the least. -/
def Binary.rounds (b : Binary) : Rounds where
  low := 4 * b.significand -
    (if b.significand = Nat.pow 2 52 ∧ -1074 < b.exponent then 1 else 2)
  high := 4 * b.significand + 2
  closed := b.significand % 2 = 0

/-- One step of a decimal grid and a number of quarter places, both as multiples of one
common unit. -/
structure Scale where
  point : Nat
  quarter : Nat

/-- The scale on which `10 ^ k` and a quarter of the last place are both whole. -/
def Binary.scale (b : Binary) (k : Int) : Scale where
  point := Nat.pow 10 k.toNat * Nat.pow 2 (2 - b.exponent).toNat
  quarter := Nat.pow 10 (-k).toNat * Nat.pow 2 (b.exponent - 2).toNat

/-- Does the grid point `n` round to the double? -/
def Rounds.holds (r : Rounds) (s : Scale) (n : Nat) : Bool :=
  if r.closed then
    r.low * s.quarter ≤ n * s.point && n * s.point ≤ r.high * s.quarter
  else
    r.low * s.quarter < n * s.point && n * s.point < r.high * s.quarter

/-- Is the grid point above the value the one to take, when both neighbours read back? `below` is
the neighbour below. -/
def Tie.takesUpper (tie : Tie) (b : Binary) (s : Scale) (below : Nat) : Bool :=
  match compare (2 * (4 * b.significand * s.quarter)) ((2 * below + 1) * s.point) with
  | .lt => false
  | .gt => true
  | .eq =>
    match tie with
    | .up => true
    | .toEven => below % 2 = 1

/-- The neighbour of the value on the grid of `10 ^ k` that reads back, if there is one. -/
def Binary.onGrid? (b : Binary) (tie : Tie) (k : Int) : Option Nat :=
  let s := b.scale k
  let r := b.rounds
  let below := 4 * b.significand * s.quarter / s.point
  match r.holds s below, r.holds s (below + 1) with
  | true, true => some (if tie.takesUpper b s below then below + 1 else below)
  | true, false => some below
  | false, true => some (below + 1)
  | false, false => none

/-- The first hit among the grids `10 ^ k`, `10 ^ (k - 1)`, …, of which `more` follow `k`. -/
def Binary.search (b : Binary) (tie : Tie) : Nat → Int → Decimal
  | 0, k => ⟨(b.onGrid? tie k).getD 0, k⟩
  | more + 1, k =>
    match b.onGrid? tie k with
    | some n => ⟨n, k⟩
    | none => b.search tie more (k - 1)

/-- A power of ten above the value: `30103 / 100000` is just over the decimal logarithm of two. -/
def Binary.ceiling (b : Binary) : Int :=
  ((Nat.log2 b.significand : Int) + 1 + b.exponent) * 30103 / 100000 + 1

/-- The shortest decimal that reads back as the positive double `b`, and of those the nearest.
Seventeen digits always suffice, so a few more grids than that are searched. -/
def Binary.shortest (b : Binary) (tie : Tie) : Decimal :=
  if b.significand = 0 then ⟨0, 0⟩ else b.search tie 24 b.ceiling

end Lox.Number
