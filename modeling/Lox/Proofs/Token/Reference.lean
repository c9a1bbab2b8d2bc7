import Lox.Proofs.Token.Longest

/-!
# What a source is read as

`Reads` says what the items of a text are without saying how they are found: blanks and comments
are skipped, the longest token text is a token, and what begins no token is an error. The items that
scanning finds are these and no others (`reads_iff_scan`).
-/

namespace Lox

/-- The line on which a text ends. -/
def lineAfter (text : List Char) : Nat :=
  1 + text.count '\n'

/-- Where `text` is followed by `rest`, no longer token text begins. -/
def IsLongest (text rest : List Char) : Prop :=
  ∀ kind other after, TokenText kind other → other ++ after = text ++ rest →
    other.length ≤ text.length

/-- After `before`, the rest of the text consists of the items. -/
inductive Reads : List Char → List Char → List Item → Prop
  | done (before : List Char) : Reads before [] [.token ⟨.eof, "", lineAfter before⟩]
  | blank {before rest : List Char} {items : List Item} {c : Char}
    (isBlank : c ∈ [' ', '\r', '\t', '\n']) (next : Reads (before ++ [c]) rest items) :
    Reads before (c :: rest) items
  | comment {before text rest : List Char} {items : List Item} (sameLine : '\n' ∉ text)
    (ends : ∀ c ∈ rest.head?, c = '\n') (next : Reads (before ++ '/' :: '/' :: text) rest items) :
    Reads before ('/' :: '/' :: (text ++ rest)) items
  | token {before text rest : List Char} {items : List Item} {kind : TokenKind}
    (noComment : ∀ after, text ++ rest ≠ '/' :: '/' :: after) (isToken : TokenText kind text)
    (longest : IsLongest text rest) (next : Reads (before ++ text) rest items) :
    Reads before (text ++ rest)
      (.token ⟨kind, String.ofList text, lineAfter (before ++ text)⟩ :: items)
  | unterminated {before rest : List Char} {items : List Item} (noQuote : '"' ∉ rest)
    (next : Reads (before ++ '"' :: rest) [] items) :
    Reads before ('"' :: rest)
      (.error ⟨.unterminatedString, lineAfter (before ++ '"' :: rest)⟩ :: items)
  | unexpected {before rest : List Char} {items : List Item} {c : Char}
    (noBlank : c ∉ [' ', '\r', '\t', '\n']) (noQuote : c ≠ '"')
    (noToken : ∀ kind text after, TokenText kind text → text ++ after ≠ c :: rest)
    (next : Reads (before ++ [c]) rest items) :
    Reads before (c :: rest) (.error ⟨.unexpected c, lineAfter (before ++ [c])⟩ :: items)

theorem lineAfter_append (text more : List Char) :
    lineAfter (text ++ more) = lineAfter text + more.count '\n' := by
  simp only [lineAfter, List.count_append]
  omega

namespace Piece

theorem isBlank_iff {c : Char} : isBlank c ↔ c ∈ [' ', '\r', '\t', '\n'] := by
  simp [isBlank, or_assoc]

/-! ## Scanning finds what is there -/

variable {c : Char} {cs before rest : List Char} {items : List Item} {p : Piece}

/-- A piece that is a token. -/
theorem reads_token {kind : TokenKind} (e : first c cs = (p, rest)) (isKind : p.kind = .token kind)
    (noComment : ¬ (c = '/' ∧ cs.head? = some '/')) (next : Reads (before ++ p.text) rest items) :
    Reads before (c :: cs) ((p.item? (lineAfter (before ++ p.text))).toList ++ items) := by
  have whole : p.text ++ rest = c :: cs := by
    have := first_text_append c cs
    rwa [e] at this
  have isToken : TokenText kind p.text := by
    have isKind' : (first c cs).1.kind = .token kind := by rw [e, isKind]
    have := tokenText_first isKind'
    rwa [e] at this
  simp only [item?, isKind, Option.toList_some, List.singleton_append]
  rw [← whole]
  refine .token (fun after e => noComment ?_) isToken (fun kind' other after h e' => ?_) next
  · rw [whole] at e
    cases e
    exact ⟨rfl, rfl⟩
  · have := (length_le_of_tokenText h (e'.trans whole) noComment).2
    rwa [e] at this

/-- A string, with or without its closing quote. -/
theorem reads_quoted (e : quoted cs = (p, rest)) (next : Reads (before ++ p.text) rest items) :
    Reads before ('"' :: cs) ((p.item? (lineAfter (before ++ p.text))).toList ++ items) := by
  by_cases closes : '"' ∈ cs
  · obtain ⟨contents, rest', rfl, noQuote⟩ := List.eq_append_cons_of_mem closes
    rw [quoted_append noQuote] at e
    cases e
    exact reads_token ((first_quote _).trans (quoted_append noQuote rest)) rfl nofun next
  · rw [quoted_of_not_mem closes] at e
    cases e
    exact .unterminated closes next

/-- The text up to the end of the line. -/
theorem reads_comment (next : Reads (before ++ '/' :: '/' :: cs.takeWhile (· ≠ '\n'))
      (cs.dropWhile (· ≠ '\n')) items) : Reads before ('/' :: '/' :: cs) items := by
  rw [← List.takeWhile_append_dropWhile (p := (· ≠ '\n')) (l := cs)]
  refine .comment (fun inside => ?_) (fun c first => ?_) next
  · simpa using List.mem_takeWhile_imp inside
  · have := List.head?_dropWhile_not (p := (· ≠ '\n')) cs
    rw [first] at this
    simpa using this

/-- A character with which no token text begins. -/
theorem noToken_of_single? (noWord : ¬ startsWord c) (noDigit : ¬ c.isDigit) (noQuote : c ≠ '"')
    (noSymbol : single? c = none) {kind : TokenKind} {text after : List Char}
    (h : TokenText kind text) : text ++ after ≠ c :: cs := by
  intro e
  cases h with
  | symbol s =>
    obtain ⟨c', cs', t, text, single, -⟩ := symbol_text_cons s
    rw [text] at e
    cases e
    rw [noSymbol] at single
    cases single
  | string =>
    cases e
    exact noQuote rfl
  | whole areDigits =>
    cases e
    exact noDigit (areDigits _ List.mem_cons_self)
  | decimal areDigits =>
    cases e
    exact noDigit (areDigits _ List.mem_cons_self)
  | keyword k =>
    obtain ⟨c', cs', text, starts, -⟩ := keyword_text_cons k
    rw [text] at e
    cases e
    exact noWord starts
  | identifier starts =>
    cases e
    exact noWord (startsWord_iff.mpr starts)

/-- What the first piece of a text is, and what comes after it. -/
theorem reads_first (e : first c cs = (p, rest)) (next : Reads (before ++ p.text) rest items) :
    Reads before (c :: cs) ((p.item? (lineAfter (before ++ p.text))).toList ++ items) := by
  obtain ⟨blank, e'⟩ | ⟨starts, e'⟩ | ⟨digit, e'⟩ | ⟨rfl, e'⟩ | ⟨⟨rfl, opens⟩, e'⟩ |
    ⟨⟨noBlank, noWord, noDigit, noQuote, noComment⟩, e'⟩ := first_cases c cs
  · rw [e'] at e
    cases e
    exact .blank (isBlank_iff.mp blank) next
  · have kind : p.kind = .token (wordKind p.text) := by
      rw [e'] at e
      cases e
      rfl
    refine reads_token e kind ?_ next
    rintro ⟨rfl, -⟩
    cases starts
  · obtain ⟨x, kind, -⟩ := tokenText_number digit cs
    rw [← e', e] at kind
    refine reads_token e kind ?_ next
    rintro ⟨rfl, -⟩
    cases digit
  · exact reads_quoted (e'.symm.trans e) next
  · obtain ⟨cs', rfl⟩ := List.head?_eq_some_iff.mp opens
    rw [e'] at e
    cases e
    exact reads_comment next
  · cases single : single? c with
    | none =>
      rw [e'] at e
      simp only [symbol, single] at e
      cases e
      refine .unexpected (fun blank => noBlank (isBlank_iff.mpr blank)) noQuote ?_ next
      exact fun kind text after => noToken_of_single? noWord noDigit noQuote single
    | some s =>
      obtain ⟨t, kind, -⟩ := tokenText_symbol single cs
      rw [← e', e] at kind
      exact reads_token e kind noComment next

end Piece

theorem reads_itemsFrom (cs before : List Char) :
    Reads before cs (itemsFrom (lineAfter before) (pieces cs)) := by
  fun_induction pieces cs generalizing before with
  | case1 => exact .done before
  | case2 c cs ih =>
    have next := ih (before ++ (Piece.first c cs).1.text)
    have found := Piece.reads_first (Prod.eta (Piece.first c cs)).symm next
    rw [lineAfter_append] at found
    exact found

/-! ## What is there is found -/

theorem itemsFrom_first {c : Char} {cs rest : List Char} {p : Piece}
    (e : Piece.first c cs = (p, rest)) (before : List Char) :
    itemsFrom (lineAfter before) (pieces (c :: cs)) =
      (p.item? (lineAfter (before ++ p.text))).toList ++
        itemsFrom (lineAfter (before ++ p.text)) (pieces rest) := by
  rw [pieces, itemsFrom, e, lineAfter_append]

/-- The longest token text is what scanning finds. -/
theorem first_of_longest {kind : TokenKind} {c : Char} {cs text rest : List Char}
    (whole : text ++ rest = c :: cs) (noComment : ∀ after, text ++ rest ≠ '/' :: '/' :: after)
    (isToken : TokenText kind text) (longest : IsLongest text rest) :
    Piece.first c cs = (⟨.token kind, text⟩, rest) := by
  have noComment' : ¬ (c = '/' ∧ cs.head? = some '/') := by
    rintro ⟨rfl, opens⟩
    obtain ⟨cs', rfl⟩ := List.head?_eq_some_iff.mp opens
    exact noComment cs' whole
  obtain ⟨⟨kind', isKind⟩, le⟩ := Piece.length_le_of_tokenText isToken whole noComment'
  have isToken' := Piece.tokenText_first isKind
  have whole' := Piece.first_text_append c cs
  have ge := longest kind' _ _ isToken' (whole'.trans whole.symm)
  generalize Piece.first c cs = found at *
  obtain ⟨⟨kind'', text'⟩, rest'⟩ := found
  dsimp only at isKind isToken' whole' le ge
  subst isKind
  obtain ⟨rfl, rfl⟩ := List.append_inj (whole'.trans whole.symm) (Nat.le_antisymm ge le)
  rw [isToken'.unique isToken]

theorem comment_append {text rest : List Char} (sameLine : '\n' ∉ text)
    (ends : ∀ c ∈ rest.head?, c = '\n') :
    Piece.comment '/' ('/' :: (text ++ rest)) = (⟨.skipped, '/' :: '/' :: text⟩, rest) := by
  have inside : ∀ c ∈ '/' :: text, decide (c ≠ '\n') = true := by
    rintro c (_ | ⟨_, inside⟩)
    · decide
    · exact decide_eq_true fun e => sameLine (e ▸ inside)
  have stops : rest.takeWhile (fun c => decide (c ≠ '\n')) = [] ∧
      rest.dropWhile (fun c => decide (c ≠ '\n')) = rest := by
    cases rest with
    | nil => exact ⟨rfl, rfl⟩
    | cons c rest =>
      obtain rfl := ends c rfl
      exact ⟨rfl, rfl⟩
  rw [Piece.comment, ← List.cons_append, List.takeWhile_append_of_pos inside,
    List.dropWhile_append_of_pos inside, stops.1, stops.2, List.append_nil]

/-- A character with which nothing begins. -/
theorem first_of_noToken {c : Char} {cs : List Char} (noBlank : c ∉ [' ', '\r', '\t', '\n'])
    (noQuote : c ≠ '"')
    (noToken : ∀ kind text after, TokenText kind text → text ++ after ≠ c :: cs) :
    Piece.first c cs = (⟨.unexpected c, [c]⟩, cs) := by
  have whole := Piece.first_text_append c cs
  have noKind : ∀ kind, (Piece.first c cs).1.kind ≠ .token kind := fun kind isKind =>
    noToken kind _ _ (Piece.tokenText_first isKind) whole
  obtain ⟨blank, -⟩ | ⟨-, e⟩ | ⟨digit, e⟩ | ⟨quote, -⟩ | ⟨⟨slash, -⟩, -⟩ | ⟨-, e⟩ :=
    Piece.first_cases c cs
  · exact absurd (Piece.isBlank_iff.mp blank) noBlank
  · exact absurd (by rw [e]; rfl) (noKind (Piece.wordKind (c :: cs.takeWhile Piece.continuesWord)))
  · obtain ⟨x, isKind, -⟩ := Piece.tokenText_number digit cs
    exact absurd (by rw [e, isKind]) (noKind (.number x))
  · exact absurd quote noQuote
  · exact absurd (by rw [slash]; rfl) (noToken _ _ cs (.symbol .slash))
  · cases single : Piece.single? c with
    | none =>
      rw [e]
      simp only [Piece.symbol, single]
    | some s =>
      obtain ⟨t, isKind, -⟩ := Piece.tokenText_symbol single cs
      exact absurd (by rw [e, isKind]) (noKind (.symbol t))

theorem Reads.eq_itemsFrom {before cs : List Char} {items : List Item}
    (h : Reads before cs items) : items = itemsFrom (lineAfter before) (pieces cs) := by
  induction h with
  | done => rw [pieces, itemsFrom]
  | blank isBlank _ ih =>
    rw [itemsFrom_first (Piece.first_of_isBlank (Piece.isBlank_iff.mpr isBlank) _), ih]
    rfl
  | comment sameLine ends _ ih =>
    rw [itemsFrom_first ((Piece.first_comment _).trans (comment_append sameLine ends)), ih]
    rfl
  | @token _ text rest _ _ noComment isToken longest _ ih =>
    obtain ⟨c, cs, whole⟩ := List.exists_cons_of_ne_nil
      (List.append_ne_nil_of_left_ne_nil isToken.ne_nil rest)
    rw [whole, itemsFrom_first (first_of_longest whole noComment isToken longest), ih]
    rfl
  | unterminated noQuote _ ih =>
    rw [itemsFrom_first ((Piece.first_quote _).trans (Piece.quoted_of_not_mem noQuote)), ih]
    rfl
  | unexpected noBlank noQuote noToken _ ih =>
    rw [itemsFrom_first (first_of_noToken noBlank noQuote noToken), ih]
    rfl

/-- Scanning gives the items that are there, and nothing else: blanks and comments are skipped, the
longest token text is a token, and what begins no token is an error. -/
theorem reads_iff_scan (source : String) (items : List Item) :
    Reads [] source.toList items ↔ scan source = items :=
  ⟨fun h => h.eq_itemsFrom.symm, fun e => e ▸ reads_itemsFrom source.toList []⟩

example : (tokensOf "!==ifs//=").map Token.lexeme = ["!=", "=", "ifs", ""] := by
  cbv

end Lox
