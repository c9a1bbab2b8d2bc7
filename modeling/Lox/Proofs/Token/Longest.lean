import Mathlib
import Lox.Proofs.Token.Words

/-!
# The longest token

What the texts of tokens are is said without regard to what comes before or after them
(`TokenText`). A token at the beginning of a text has such a text (`tokenText_first`), and no token
text with which the text begins is longer, unless a comment begins there
(`length_le_of_tokenText`). A token text alone is read as the token (`first_of_tokenText`).
-/

namespace Lox

/-- The kinds of tokens with the texts that they may have. -/
inductive TokenText : TokenKind → List Char → Prop
  | symbol (s : Symbol) : TokenText (.symbol s) s.text.toList
  | string {contents : List Char} (noQuote : '"' ∉ contents) :
    TokenText (.string (String.ofList contents)) ('"' :: (contents ++ ['"']))
  | whole {d : Char} {digits : List Char} (areDigits : ∀ d' ∈ d :: digits, d'.isDigit) :
    TokenText (.number (Number.ofDigits (d :: digits) [])) (d :: digits)
  | decimal {d e : Char} {digits fraction : List Char}
    (areDigits : ∀ d' ∈ d :: digits, d'.isDigit) (areDigits' : ∀ e' ∈ e :: fraction, e'.isDigit) :
    TokenText (.number (Number.ofDigits (d :: digits) (e :: fraction)))
      (d :: digits ++ '.' :: e :: fraction)
  | keyword (k : Keyword) : TokenText (.keyword k) k.text.toList
  | identifier {c : Char} {cs : List Char} (starts : c.isAlpha ∨ c = '_')
    (continues : ∀ d ∈ cs, d.isAlphanum ∨ d = '_')
    (noKeyword : ∀ k : Keyword, k.text.toList ≠ c :: cs) : TokenText .identifier (c :: cs)

namespace Piece

/-! ## The first character decides -/

theorem of_isBlank {c : Char} (h : isBlank c) :
    startsWord c = false ∧ c.isDigit = false ∧ c ≠ '"' ∧ single? c = none := by
  simp only [isBlank, Bool.or_eq_true, beq_iff_eq] at h
  rcases h with ((rfl | rfl) | rfl) | rfl <;> decide

theorem not_startsWord_of_isDigit {c : Char} (h : c.isDigit) : startsWord c = false := by
  have apart : c ≠ '_' := by
    rintro rfl
    exact absurd h (by decide)
  simp only [startsWord, Char.isAlpha, Char.isDigit, Char.isUpper, Char.isLower, ge_iff_le,
    Bool.and_eq_true, decide_eq_true_eq, Bool.or_eq_false_iff, Bool.and_eq_false_imp,
    decide_eq_false_iff_not, beq_eq_false_iff_ne] at *
  grind

theorem first_of_isBlank {c : Char} (h : isBlank c) (cs : List Char) :
    first c cs = (⟨.skipped, [c]⟩, cs) := by
  rw [first, if_pos h]

theorem first_of_startsWord {c : Char} (h : startsWord c) (cs : List Char) :
    first c cs = word c cs := by
  have blank : ¬ isBlank c := fun blank => by simp [(of_isBlank blank).1] at h
  rw [first, if_neg blank, if_pos h]

theorem first_of_isDigit {c : Char} (h : c.isDigit) (cs : List Char) :
    first c cs = number c cs := by
  have blank : ¬ isBlank c := fun blank => by simp [(of_isBlank blank).2.1] at h
  rw [first, if_neg blank, if_neg (by simp [not_startsWord_of_isDigit h]), if_pos h]

theorem first_quote (cs : List Char) : first '"' cs = quoted cs := rfl

theorem first_comment (cs : List Char) : first '/' ('/' :: cs) = comment '/' ('/' :: cs) := rfl

theorem of_single? {c : Char} {s : Symbol} (h : single? c = some s) :
    isBlank c = false ∧ startsWord c = false ∧ c.isDigit = false ∧ c ≠ '"' := by
  unfold single? at h
  split at h
  all_goals first | decide | cases h

theorem first_of_single? {c : Char} {s : Symbol} (h : single? c = some s) {cs : List Char}
    (noComment : ¬ (c = '/' ∧ cs.head? = some '/')) : first c cs = symbol c cs := by
  obtain ⟨blank, word, digit, quote⟩ := of_single? h
  rw [first, if_neg (by simp [blank]), if_neg (by simp [word]), if_neg (by simp [digit]),
    if_neg quote, if_neg noComment]

/-- Which kind of piece a text begins with. -/
theorem first_cases (c : Char) (cs : List Char) :
    isBlank c ∧ first c cs = (⟨.skipped, [c]⟩, cs) ∨
    startsWord c ∧ first c cs = word c cs ∨
    c.isDigit ∧ first c cs = number c cs ∨
    c = '"' ∧ first c cs = quoted cs ∨
    (c = '/' ∧ cs.head? = some '/') ∧ first c cs = comment c cs ∨
    (¬ isBlank c ∧ ¬ startsWord c ∧ ¬ c.isDigit ∧ c ≠ '"' ∧ ¬ (c = '/' ∧ cs.head? = some '/')) ∧
      first c cs = symbol c cs := by
  unfold first
  split_ifs <;> simp_all

/-! ## Tokens have token texts -/

theorem startsWord_iff {c : Char} : startsWord c ↔ c.isAlpha ∨ c = '_' := by
  simp [startsWord]

theorem continuesWord_iff {c : Char} : continuesWord c ↔ c.isAlphanum ∨ c = '_' := by
  simp [continuesWord]

theorem tokenText_word {c : Char} (h : startsWord c) (cs : List Char) :
    TokenText (wordKind (c :: cs.takeWhile continuesWord)) (c :: cs.takeWhile continuesWord) := by
  unfold wordKind
  split
  · rename_i k e
    have text : k.text.toList = c :: cs.takeWhile continuesWord := by
      rw [Keyword.text_of_ofText? e, String.toList_ofList]
    exact text ▸ .keyword k
  · rename_i e
    refine .identifier (startsWord_iff.mp h) (fun d inside => ?_) fun k text => ?_
    · exact continuesWord_iff.mp (List.mem_takeWhile_imp inside)
    · refine Keyword.ne_text_of_ofText? e k ?_
      rw [← text, String.ofList_toList]

theorem tokenText_number {c : Char} (h : c.isDigit) (cs : List Char) :
    ∃ x, (number c cs).1.kind = .token (.number x) ∧
      TokenText (.number x) (number c cs).1.text := by
  have whole : ∀ d ∈ c :: cs.takeWhile Char.isDigit, d.isDigit := by
    rintro d (_ | ⟨_, inside⟩)
    · exact h
    · exact List.mem_takeWhile_imp inside
  unfold number
  dsimp only
  split
  · rename_i fraction rest e
    unfold fraction? at e
    split at e
    · rename_i d rest' _
      split at e
      · rename_i isDigit
        cases e
        refine ⟨_, rfl, .decimal whole ?_⟩
        rintro d' (_ | ⟨_, inside⟩)
        · exact isDigit
        · exact List.mem_takeWhile_imp inside
      · cases e
    · cases e
  · exact ⟨_, rfl, .whole whole⟩

theorem text_of_single? {c : Char} {s : Symbol} (h : single? c = some s) :
    s.text.toList = [c] := by
  unfold single? at h
  split at h <;> cases h <;> rfl

theorem text_of_withEqual? {s t : Symbol} (h : withEqual? s = some t) :
    t.text.toList = s.text.toList ++ ['='] := by
  unfold withEqual? at h
  split at h <;> cases h <;> rfl

theorem tokenText_symbol {c : Char} {s : Symbol} (h : single? c = some s) (cs : List Char) :
    ∃ t : Symbol, (symbol c cs).1.kind = .token (.symbol t) ∧
      (symbol c cs).1.text = t.text.toList := by
  unfold symbol
  rw [h]
  dsimp only
  split
  · rename_i t rest e
    exact ⟨t, rfl, by rw [text_of_withEqual? e, text_of_single? h]; rfl⟩
  · exact ⟨s, rfl, (text_of_single? h).symm⟩

theorem quoted_append {contents : List Char} (noQuote : '"' ∉ contents) (rest : List Char) :
    quoted (contents ++ '"' :: rest) =
      (⟨.token (.string (String.ofList contents)), '"' :: (contents ++ ['"'])⟩, rest) := by
  have inside : ∀ c ∈ contents, decide (c ≠ '"') = true := fun c inside =>
    decide_eq_true fun e => noQuote (e ▸ inside)
  unfold quoted
  rw [List.takeWhile_append_of_pos inside, List.dropWhile_append_of_pos inside]
  simp

theorem quoted_of_not_mem {cs : List Char} (noQuote : '"' ∉ cs) :
    quoted cs = (⟨.unterminated, '"' :: cs⟩, []) := by
  have inside : ∀ c ∈ cs, decide (c ≠ '"') = true := fun c inside =>
    decide_eq_true fun e => noQuote (e ▸ inside)
  simp only [quoted, List.takeWhile_eq_self_iff.mpr inside, List.dropWhile_eq_nil_iff.mpr inside]

theorem tokenText_quoted {kind : TokenKind} {cs : List Char}
    (h : (quoted cs).1.kind = .token kind) : TokenText kind (quoted cs).1.text := by
  by_cases closes : '"' ∈ cs
  · obtain ⟨contents, rest, rfl, noQuote⟩ := List.eq_append_cons_of_mem closes
    rw [quoted_append noQuote] at h ⊢
    cases h
    exact .string noQuote
  · rw [quoted_of_not_mem closes] at h
    cases h

/-- The text of a piece that is a token is a token text. -/
theorem tokenText_first {kind : TokenKind} {c : Char} {cs : List Char}
    (h : (first c cs).1.kind = .token kind) : TokenText kind (first c cs).1.text := by
  obtain ⟨-, e⟩ | ⟨starts, e⟩ | ⟨digit, e⟩ | ⟨-, e⟩ | ⟨-, e⟩ | ⟨-, e⟩ := first_cases c cs <;>
    rw [e] at h ⊢
  · cases h
  · cases h
    exact tokenText_word starts cs
  · obtain ⟨x, kind, isToken⟩ := tokenText_number digit cs
    rw [kind] at h
    cases h
    exact isToken
  · exact tokenText_quoted h
  · cases h
  · cases single : single? c with
    | none =>
      simp only [symbol, single] at h
      cases h
    | some s =>
      obtain ⟨t, kind, text⟩ := tokenText_symbol single cs
      rw [kind] at h
      cases h
      exact text ▸ .symbol t

/-! ## No token text is longer -/

theorem word_length_le {c : Char} {cs : List Char} (h : ∀ d ∈ cs, continuesWord d)
    (rest : List Char) : (c :: cs).length ≤ (word c (cs ++ rest)).1.text.length := by
  simp only [word, List.takeWhile_append_of_pos h, List.length_cons, List.length_append]
  omega

theorem number_length_le {c : Char} {cs : List Char} (h : ∀ d ∈ cs, d.isDigit)
    (rest : List Char) : (c :: cs).length ≤ (number c (cs ++ rest)).1.text.length := by
  simp only [number, List.takeWhile_append_of_pos h]
  split <;> simp only [List.length_cons, List.length_append] <;> omega

/-- The digits before a point end there. -/
theorem takeWhile_isDigit_point {cs : List Char} (h : ∀ d ∈ cs, d.isDigit) (rest : List Char) :
    (cs ++ '.' :: rest).takeWhile Char.isDigit = cs ∧
      (cs ++ '.' :: rest).dropWhile Char.isDigit = '.' :: rest := by
  rw [List.takeWhile_append_of_pos h, List.dropWhile_append_of_pos h]
  simp

theorem decimal_length_le {c e : Char} {cs fraction : List Char} (h : ∀ d ∈ cs, d.isDigit)
    (h' : ∀ d ∈ e :: fraction, d.isDigit) (rest : List Char) :
    (c :: cs ++ '.' :: e :: fraction).length ≤
      (number c (cs ++ '.' :: e :: (fraction ++ rest))).1.text.length := by
  obtain ⟨taken, dropped⟩ := takeWhile_isDigit_point h (e :: (fraction ++ rest))
  have isDigit : e.isDigit := h' e List.mem_cons_self
  have areDigits : ∀ d ∈ fraction, d.isDigit := fun d inside => h' d (List.mem_cons_of_mem _ inside)
  simp only [number, taken, dropped, fraction?, isDigit, if_true,
    List.takeWhile_append_of_pos areDigits, List.length_cons, List.length_append]
  omega

/-- The text of a symbol begins with a symbol of one character. -/
theorem symbol_text_cons (s : Symbol) : ∃ c cs t, s.text.toList = c :: cs ∧
    single? c = some t ∧ (cs = [] ∧ s = t ∨ cs = ['='] ∧ withEqual? t = some s) := by
  cases s <;> exact ⟨_, _, _, rfl, rfl, by decide⟩

theorem keyword_text_cons (k : Keyword) : ∃ c cs, k.text.toList = c :: cs ∧ startsWord c ∧
    ∀ d ∈ cs, continuesWord d := by
  have starts : k.text.toList.head?.any startsWord := by cases k <;> rfl
  have continues : k.text.toList.tail.all continuesWord := by cases k <;> rfl
  cases e : k.text.toList with
  | nil => simp [e] at starts
  | cons c cs =>
    rw [e] at starts continues
    exact ⟨c, cs, rfl, by simpa using starts, by simpa using continues⟩

theorem wordKind_keyword (k : Keyword) : wordKind k.text.toList = .keyword k := by
  rw [wordKind, String.ofList_toList]
  cases k <;> rfl

theorem symbol_length_le {c : Char} {s : Symbol} (h : single? c = some s) {cs rest : List Char}
    (next : cs = [] ∨ cs = ['='] ∧ (withEqual? s).isSome) :
    (c :: cs).length ≤ (symbol c (cs ++ rest)).1.text.length := by
  obtain rfl | ⟨rfl, pairs⟩ := next
  · exact List.length_pos_iff.mpr (symbol_text_ne_nil c rest)
  · obtain ⟨t, pairs⟩ := Option.isSome_iff_exists.mp pairs
    simp [symbol, h, pairs]

/-- No token text with which a text begins is longer than its first piece, which is a token, unless
a comment begins there. -/
theorem length_le_of_tokenText {kind : TokenKind} {text : List Char} (h : TokenText kind text)
    {c : Char} {cs rest : List Char} (e : text ++ rest = c :: cs)
    (noComment : ¬ (c = '/' ∧ cs.head? = some '/')) :
    (∃ kind', (first c cs).1.kind = .token kind') ∧
      text.length ≤ (first c cs).1.text.length := by
  cases h with
  | symbol s =>
    obtain ⟨c', cs', t, text, single, next⟩ := symbol_text_cons s
    rw [text] at e ⊢
    cases e
    rw [first_of_single? single noComment]
    obtain ⟨t', kind, -⟩ := tokenText_symbol single (cs' ++ rest)
    refine ⟨⟨_, kind⟩, symbol_length_le single (next.imp And.left fun ⟨e, pairs⟩ => ⟨e, ?_⟩)⟩
    rw [pairs]
    rfl
  | string noQuote =>
    rw [List.cons_append, List.append_assoc] at e
    cases e
    rw [first_quote, List.singleton_append, quoted_append noQuote]
    exact ⟨⟨_, rfl⟩, Nat.le_refl _⟩
  | whole areDigits =>
    cases e
    obtain ⟨isDigit, areDigits⟩ := List.forall_mem_cons.mp areDigits
    rw [first_of_isDigit isDigit]
    obtain ⟨x, kind, -⟩ := tokenText_number isDigit (_ ++ rest)
    exact ⟨⟨_, kind⟩, number_length_le areDigits rest⟩
  | decimal areDigits areDigits' =>
    rw [List.append_assoc] at e
    cases e
    obtain ⟨isDigit, areDigits⟩ := List.forall_mem_cons.mp areDigits
    rw [first_of_isDigit isDigit]
    obtain ⟨x, kind, -⟩ := tokenText_number isDigit (_ ++ '.' :: _)
    exact ⟨⟨_, kind⟩, decimal_length_le areDigits areDigits' rest⟩
  | keyword k =>
    obtain ⟨c', cs', text, starts, continues⟩ := keyword_text_cons k
    rw [text] at e ⊢
    cases e
    rw [first_of_startsWord starts]
    exact ⟨⟨_, rfl⟩, word_length_le continues rest⟩
  | identifier starts continues _ =>
    cases e
    rw [first_of_startsWord (startsWord_iff.mpr starts)]
    have continues' d inside := continuesWord_iff.mpr (continues d inside)
    exact ⟨⟨_, rfl⟩, word_length_le continues' rest⟩

/-! ## A token text alone -/

theorem wordKind_of_ne {text : List Char} (h : ∀ k : Keyword, k.text.toList ≠ text) :
    wordKind text = .identifier := by
  unfold wordKind
  split
  · rename_i k e
    exact absurd (by rw [Keyword.text_of_ofText? e, String.toList_ofList]) (h k)
  · rfl

theorem word_alone {c : Char} {cs : List Char} (h : ∀ d ∈ cs, continuesWord d) :
    word c cs = (⟨.token (wordKind (c :: cs)), c :: cs⟩, []) := by
  simp [word, List.takeWhile_eq_self_iff.mpr h, List.dropWhile_eq_nil_iff.mpr h]

/-- A token text without anything after it is read as the token. -/
theorem first_of_tokenText {kind : TokenKind} {c : Char} {cs : List Char}
    (h : TokenText kind (c :: cs)) : first c cs = (⟨.token kind, c :: cs⟩, []) := by
  generalize e : c :: cs = text at h
  cases h with
  | symbol s => cases s <;> (cases e; rfl)
  | string noQuote =>
    cases e
    rw [first_quote, quoted_append noQuote]
  | whole areDigits =>
    cases e
    obtain ⟨isDigit, areDigits⟩ := List.forall_mem_cons.mp areDigits
    rw [first_of_isDigit isDigit]
    simp [number, List.takeWhile_eq_self_iff.mpr areDigits, List.dropWhile_eq_nil_iff.mpr areDigits,
      fraction?]
  | @decimal d d' digits fraction areDigits areDigits' =>
    cases e
    obtain ⟨isDigit, areDigits⟩ := List.forall_mem_cons.mp areDigits
    obtain ⟨isDigit', areDigits'⟩ := List.forall_mem_cons.mp areDigits'
    obtain ⟨taken, dropped⟩ := takeWhile_isDigit_point areDigits (d' :: fraction)
    rw [first_of_isDigit isDigit]
    simp [number, taken, dropped, fraction?, isDigit', List.takeWhile_eq_self_iff.mpr areDigits',
      List.dropWhile_eq_nil_iff.mpr areDigits']
  | keyword k =>
    obtain ⟨c', cs', text, starts, continues⟩ := keyword_text_cons k
    have kind := wordKind_keyword k
    rw [text] at e kind ⊢
    cases e
    rw [first_of_startsWord starts, word_alone continues, kind]
  | identifier starts continues noKeyword =>
    cases e
    rw [first_of_startsWord (startsWord_iff.mpr starts),
      word_alone fun d inside => continuesWord_iff.mpr (continues d inside),
      wordKind_of_ne noKeyword]

end Piece

namespace TokenText

theorem ne_nil {kind : TokenKind} {text : List Char} (h : TokenText kind text) : text ≠ [] := by
  cases h with
  | symbol s => cases s <;> decide
  | keyword k => cases k <;> decide
  | string | whole | decimal | identifier => exact nofun

/-- The text of a token determines what kind of token it is. -/
theorem unique {kind kind' : TokenKind} {text : List Char} (h : TokenText kind text)
    (h' : TokenText kind' text) : kind = kind' := by
  obtain ⟨c, cs, rfl⟩ := List.exists_cons_of_ne_nil h.ne_nil
  have same := (Piece.first_of_tokenText h).symm.trans (Piece.first_of_tokenText h')
  simpa using same

end TokenText

end Lox
