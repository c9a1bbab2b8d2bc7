import Lox.Text.Hidden

/-!
# Quoted strings

Ways to write a string between double quotes. For people (`debug`, and `debugFile` for the name of
a file), a hidden character is its code point in braces; as JSON (`json`), only characters below the
blank are escaped. All other characters but quotes and backslashes stay as they are
(`debugWith_of_plain`, `debugWith_of_ascii`).
-/

namespace Lox.Text

/-- `n` in lower-case hexadecimal, without leading zeros. -/
def hex (n : Nat) : List Char :=
  Nat.toDigits 16 n

namespace Quoted

/-- One character inside quotes, for people; an apostrophe may be escaped too. -/
def debugChar (apostrophes : Bool) (c : Char) : List Char :=
  match c with
  | '"' => ['\\', '"']
  | '\\' => ['\\', '\\']
  | '\n' => ['\\', 'n']
  | '\r' => ['\\', 'r']
  | '\t' => ['\\', 't']
  | '\x00' => ['\\', '0']
  | '\x27' => if apostrophes then ['\\', '\x27'] else ['\x27']
  | c => if isHidden c then '\\' :: 'u' :: '{' :: (hex c.toNat ++ ['}']) else [c]

/-- A string in quotes, for people; apostrophes may be escaped too. -/
def debugWith (apostrophes : Bool) (s : String) : String :=
  String.ofList ('"' :: (s.toList.flatMap (debugChar apostrophes) ++ ['"']))

/-- A string in quotes, for people. -/
def debug : String → String :=
  debugWith false

/-- The name of a file in quotes, for people. -/
def debugFile : String → String :=
  debugWith true

/-- What can be seen, and is not used for quoting, stays as it is. -/
theorem debugChar_of_plain {apostrophes : Bool} {c : Char} (seen : isHidden c = false)
    (noQuote : c ≠ '"') (noBackslash : c ≠ '\\') (kept : apostrophes → c ≠ '\x27') :
    debugChar apostrophes c = [c] := by
  unfold debugChar
  split
  case h_1 => exact absurd rfl noQuote
  case h_2 => exact absurd rfl noBackslash
  case h_3 | h_4 | h_5 | h_6 => cases seen
  case h_7 =>
    rw [if_neg]
    exact fun escaped => kept escaped rfl
  case h_8 => rw [seen, if_neg Bool.false_ne_true]

theorem debugWith_of_plain {apostrophes : Bool} {s : String}
    (plain : ∀ c ∈ s.toList, isHidden c = false ∧ c ≠ '"' ∧ c ≠ '\\' ∧ (apostrophes → c ≠ '\x27')) :
    debugWith apostrophes s = "\"" ++ s ++ "\"" := by
  have same : s.toList.flatMap (debugChar apostrophes) = s.toList := by
    have kept : s.toList.map (debugChar apostrophes) = s.toList.map fun c => [c] := by
      refine List.map_congr_left fun c inside => ?_
      obtain ⟨seen, noQuote, noBackslash, kept⟩ := plain c inside
      exact debugChar_of_plain seen noQuote noBackslash kept
    rw [List.flatMap_def, kept, ← List.flatMap_def, List.flatMap_singleton']
  rw [debugWith, same, ← String.toList_inj]
  simp

/-- Plain ASCII text only gets its quotes. -/
theorem debugWith_of_ascii {apostrophes : Bool} {s : String}
    (plain : ∀ c ∈ s.toList, 0x20 ≤ c.toNat ∧ c.toNat < 0x7f ∧ c ∉ ['"', '\\', '\x27']) :
    debugWith apostrophes s = "\"" ++ s ++ "\"" := by
  refine debugWith_of_plain fun c inside => ?_
  obtain ⟨ge, lt, unquoted⟩ := plain c inside
  simp only [List.mem_cons, List.not_mem_nil, or_false, not_or] at unquoted
  refine ⟨?_, unquoted.1, unquoted.2.1, fun _ => unquoted.2.2⟩
  rw [isHidden_of_ascii (by omega), Bool.or_eq_false_iff, decide_eq_false_iff_not,
    decide_eq_false_iff_not]
  omega

/-- An accent is hidden, for it extends the letter before it. -/
example : debug "e\u0301" = "\"e\\u\x7b301\x7d\"" := by decide +kernel

/-- One character inside quotes, as JSON: a character below the blank without an escape of its
own has four hexadecimal digits. -/
def jsonChar (c : Char) : List Char :=
  match c with
  | '"' => ['\\', '"']
  | '\\' => ['\\', '\\']
  | '\x08' => ['\\', 'b']
  | '\x0c' => ['\\', 'f']
  | '\n' => ['\\', 'n']
  | '\r' => ['\\', 'r']
  | '\t' => ['\\', 't']
  | c =>
    if c.toNat < 0x20 then
      let ds := hex c.toNat
      '\\' :: 'u' :: (List.replicate (4 - ds.length) '0' ++ ds)
    else
      [c]

/-- A string in quotes, as JSON. -/
def json (s : String) : String :=
  String.ofList ('"' :: (s.toList.flatMap jsonChar ++ ['"']))

end Quoted

end Lox.Text
