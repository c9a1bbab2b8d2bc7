import Lox.Proofs.Token.Lines

/-!
# Lexemes with blanks between them

A blank ends every token, so a token text before a blank is read as the token
(`Piece.first_before_blank`). So the lexemes of any tokens, put one after the other with a blank
between two of them, are scanned as tokens with these lexemes again (`items_spaced`), and the tokens
of a source without lexical errors are scanned as the same tokens (`lexemes_are_scanned_back`).
-/

namespace Lox

/-- The lexemes of tokens with a blank between two of them. -/
def spaced (tokens : List Token) : String :=
  " ".intercalate (tokens.map Token.lexeme)

/-- The kind of a token, whatever the value of a number is. -/
def TokenKind.sort : TokenKind → TokenKind
  | number _ => number 0
  | kind => kind

/-- The lexeme is one that tokens of this kind have. -/
def Token.Valid (t : Token) : Prop :=
  ∃ kind, TokenText kind t.lexeme.toList ∧ kind.sort = t.kind.sort

/-! ## Tokens before blanks -/

/-- A token text before a blank is read as the token. -/
theorem Piece.first_before_blank {kind : TokenKind} {c : Char} {cs : List Char}
    (h : TokenText kind (c :: cs)) (more : List Char) :
    first c (cs ++ ' ' :: more) = (⟨.token kind, c :: cs⟩, ' ' :: more) := by
  have alone := first_of_tokenText h
  have noComment : ¬ (c = '/' ∧ cs.head? = some '/') := by
    rintro ⟨rfl, slash⟩
    obtain ⟨cs, rfl⟩ := List.head?_eq_some_iff.mp slash
    rw [first_comment] at alone
    cases alone
  rw [first_append_blank rfl (by rw [alone]; nofun) (fun c' slash => (noComment ⟨c', slash⟩).elim),
    alone]
  rfl

theorem pieces_blank (cs : List Char) : pieces (' ' :: cs) = ⟨.skipped, [' ']⟩ :: pieces cs := by
  rw [pieces]
  rfl

theorem pieces_of_tokenText {kind : TokenKind} {text : List Char} (h : TokenText kind text) :
    pieces text = [⟨.token kind, text⟩] := by
  obtain ⟨c, cs, rfl⟩ := List.exists_cons_of_ne_nil h.ne_nil
  rw [pieces, Piece.first_of_tokenText h, pieces]

theorem pieces_before_blank {kind : TokenKind} {text : List Char} (h : TokenText kind text)
    (more : List Char) :
    pieces (text ++ ' ' :: more) = ⟨.token kind, text⟩ :: ⟨.skipped, [' ']⟩ :: pieces more := by
  obtain ⟨c, cs, rfl⟩ := List.exists_cons_of_ne_nil h.ne_nil
  rw [List.cons_append, pieces, Piece.first_before_blank h, pieces_blank]

/-! ## Lists of tokens -/

/-- The second token is what the lexeme of the first is read as. -/
def Token.ReadAs (t t' : Token) : Prop :=
  TokenText t'.kind t.lexeme.toList ∧ t'.lexeme = t.lexeme

/-- The lexemes of tokens are scanned as tokens with these lexemes. There may be a blank behind
them, before the end of the input. -/
theorem items_spaced {tokens : List Token}
    (texts : ∀ t ∈ tokens, ∃ kind, TokenText kind t.lexeme.toList) {ending : List Token}
    (ends : ending = [] ∨ ∃ t, ending = [t] ∧ t.lexeme = "") (line : Nat) :
    ∃ found line', itemsFrom line (pieces (spaced (tokens ++ ending)).toList) =
      found.map .token ++ [.token ⟨.eof, "", line'⟩] ∧ List.Forall₂ Token.ReadAs tokens found := by
  induction tokens generalizing line with
  | nil =>
    refine ⟨[], line, ?_, .nil⟩
    obtain rfl | ⟨t, rfl, e⟩ := ends
    · rw [spaced, List.nil_append, List.map_nil, String.intercalate_nil, String.toList_empty,
        pieces]
      rfl
    · rw [spaced, List.nil_append, List.map_singleton, String.intercalate_singleton, e,
        String.toList_empty, pieces]
      rfl
  | cons t tokens ih =>
    rw [List.forall_mem_cons] at texts
    obtain ⟨⟨kind, text⟩, texts⟩ := texts
    let next := line + t.lexeme.toList.count '\n'
    have isRead : t.ReadAs ⟨kind, t.lexeme, next⟩ := ⟨text, rfl⟩
    have item : Piece.item? ⟨.token kind, t.lexeme.toList⟩ next =
        some (.token ⟨kind, t.lexeme, next⟩) := by
      rw [Piece.item?, String.ofList_toList]
    by_cases last : tokens ++ ending = []
    · obtain ⟨rfl, rfl⟩ := List.append_eq_nil_iff.mp last
      refine ⟨[⟨kind, t.lexeme, next⟩], next, ?_, .cons isRead .nil⟩
      rw [spaced, List.append_nil, List.map_singleton, String.intercalate_singleton,
        pieces_of_tokenText text, itemsFrom, item]
      rfl
    · obtain ⟨found, line', whole, found_read⟩ := ih texts next
      refine ⟨⟨kind, t.lexeme, next⟩ :: found, line', ?_, .cons isRead found_read⟩
      have joined : (spaced (t :: (tokens ++ ending))).toList =
          t.lexeme.toList ++ ' ' :: (spaced (tokens ++ ending)).toList := by
        rw [spaced, List.map_cons, String.intercalate_cons_of_ne_nil (by simpa using last),
          String.toList_append, String.toList_append, List.append_assoc]
        rfl
      rw [List.cons_append, joined, pieces_before_blank text, itemsFrom, itemsFrom]
      dsimp only
      rw [item, show List.count '\n' [' '] = 0 from rfl, Nat.add_zero, whole]
      rfl

/-- The lexemes are scanned without errors, and as what each of them is read as. -/
theorem tokensOf_spaced {tokens : List Token}
    (texts : ∀ t ∈ tokens, ∃ kind, TokenText kind t.lexeme.toList) {ending : List Token}
    (ends : ending = [] ∨ ∃ t, ending = [t] ∧ t.lexeme = "") :
    lexicalErrorsOf (spaced (tokens ++ ending)) = [] ∧
      ∃ found line, tokensOf (spaced (tokens ++ ending)) = found ++ [⟨.eof, "", line⟩] ∧
        List.Forall₂ Token.ReadAs tokens found := by
  obtain ⟨found, line, whole, isRead⟩ := items_spaced texts ends 1
  have errors : (found.map Item.token).filterMap Item.error? = [] := by
    rw [List.filterMap_map]
    exact List.filterMap_eq_nil_iff.mpr fun _ _ => rfl
  have kept : (found.map Item.token).filterMap Item.token? = found := by
    rw [List.filterMap_map]
    exact List.filterMap_some
  refine ⟨?_, found, line, ?_, isRead⟩
  · rw [lexicalErrorsOf, scan, whole, List.filterMap_append, errors]
    rfl
  · rw [tokensOf, scan, whole, List.filterMap_append, kept]
    rfl

theorem map_eq_of_readAs {α : Type} {f : Token → α} {tokens found : List Token}
    (isRead : List.Forall₂ Token.ReadAs tokens found)
    (same : ∀ t ∈ tokens, ∀ t', t.ReadAs t' → f t' = f t) : found.map f = tokens.map f := by
  induction isRead with
  | nil => rfl
  | cons first _ ih =>
    rw [List.forall_mem_cons] at same
    rw [List.map_cons, List.map_cons, same.1 _ first, ih same.2]

/-- The lexemes of any tokens, with a blank between two of them, are scanned without errors as
tokens of the same kinds with the same lexemes, and strings have the same contents. If they are the
tokens of a source without lexical errors, with the end of the input or without it, numbers have the
same values too. -/
theorem lexemes_are_scanned_back :
    (∀ tokens : List Token, (∀ t ∈ tokens, t.Valid) →
      lexicalErrorsOf (spaced tokens) = [] ∧
        (tokensOf (spaced tokens)).map (fun t => (t.kind.sort, t.lexeme)) =
          tokens.map (fun t => (t.kind.sort, t.lexeme)) ++ [(.eof, "")]) ∧
    ∀ source, lexicalErrorsOf source = [] →
      ∀ tokens ∈ [tokensOf source, (tokensOf source).dropLast],
        lexicalErrorsOf (spaced tokens) = [] ∧
          (tokensOf (spaced tokens)).map (fun t => (t.kind, t.lexeme)) =
            (tokensOf source).map (fun t => (t.kind, t.lexeme)) := by
  refine ⟨fun tokens valid => ?_, fun source lexical tokens which => ?_⟩
  · have texts : ∀ t ∈ tokens, ∃ kind, TokenText kind t.lexeme.toList := fun t inside =>
      (valid t inside).imp fun _ => And.left
    obtain ⟨errors, found, line, whole, isRead⟩ := tokensOf_spaced texts (.inl rfl)
    rw [List.append_nil] at errors whole
    refine ⟨errors, ?_⟩
    rw [whole, List.map_append, map_eq_of_readAs isRead fun t inside t' ⟨text, same⟩ => ?_]
    · rfl
    · obtain ⟨kind, text', sort⟩ := valid t inside
      rw [same, text.unique text', sort]
  · obtain ⟨before, line, noEnd, ended, -⟩ := tokensOf_append_line lexical
    have texts : ∀ t ∈ before, TokenText t.kind t.lexeme.toList := fun t inside =>
      (tokenText_of_mem_tokensOf (ended ▸ List.mem_append_left _ inside)).resolve_left
        fun isEnd => noEnd t inside isEnd.1
    obtain ⟨ending, ends, rfl⟩ : ∃ ending : List Token,
        (ending = [] ∨ ∃ t, ending = [t] ∧ t.lexeme = "") ∧ tokens = before ++ ending := by
      rw [ended, List.dropLast_concat] at which
      obtain rfl | which := List.mem_cons.mp which
      · exact ⟨[⟨.eof, "", line⟩], .inr ⟨_, rfl, rfl⟩, rfl⟩
      · obtain rfl := List.mem_singleton.mp which
        exact ⟨[], .inl rfl, (List.append_nil _).symm⟩
    obtain ⟨errors, found, line', whole, isRead⟩ := tokensOf_spaced
      (fun t inside => ⟨t.kind, texts t inside⟩) ends
    refine ⟨errors, ?_⟩
    rw [whole, ended, List.map_append, List.map_append,
      map_eq_of_readAs isRead fun t inside t' ⟨text, same⟩ => ?_]
    · rfl
    · rw [same, text.unique (texts t inside)]

/-- Lexemes that would be other tokens, or a comment, without the blanks, and a source. -/
theorem slashes_are_scanned_apart :
    let tokens : List Token := [⟨.symbol .slash, "/", 0⟩, ⟨.symbol .slash, "/", 0⟩,
      ⟨.string "// \n", "\"// \n\"", 0⟩, ⟨.number 0, "15", 0⟩, ⟨.symbol .dot, ".", 0⟩,
      ⟨.identifier, "an", 0⟩, ⟨.keyword .and, "and", 0⟩]
    spaced tokens = "/ / \"// \n\" 15 . an and" ∧ (∀ t ∈ tokens, t.Valid) ∧
      lexicalErrorsOf (spaced tokens) = [] ∧
      lexicalErrorsOf "a/b//c" = [] ∧ spaced (tokensOf "a/b//c").dropLast = "a / b" ∧
      (tokensOf "a / b").map (fun t => (t.kind, t.lexeme)) =
        [(.identifier, "a"), (.symbol .slash, "/"), (.identifier, "b"), (.eof, "")] := by
  intro tokens
  have valid : ∀ t ∈ tokens, t.Valid := by
    have comment : TokenText (.string "// \n") ['"', '/', '/', ' ', '\n', '"'] :=
      .string (by decide : '"' ∉ ['/', '/', ' ', '\n'])
    have number : TokenText (.number (Number.ofDigits ['1', '5'] [])) ['1', '5'] :=
      .whole (by simp [Char.isDigit])
    have name : TokenText .identifier ['a', 'n'] :=
      .identifier (.inl rfl) (by simp [Char.isAlphanum, Char.isAlpha, Char.isLower]) fun k => by
        cases k <;> decide
    simp only [tokens, List.forall_mem_cons]
    exact ⟨⟨_, .symbol .slash, rfl⟩, ⟨_, .symbol .slash, rfl⟩, ⟨_, comment, rfl⟩,
      ⟨_, number, rfl⟩, ⟨_, .symbol .dot, rfl⟩, ⟨_, name, rfl⟩, ⟨_, .keyword .and, rfl⟩,
      List.forall_mem_nil _⟩
  have errors : lexicalErrorsOf "a/b//c" = [] := by cbv
  have text : spaced (tokensOf "a/b//c").dropLast = "a / b" := by cbv
  have found : (tokensOf "a/b//c").map (fun t => (t.kind, t.lexeme)) =
      [(.identifier, "a"), (.symbol .slash, "/"), (.identifier, "b"), (.eof, "")] := by cbv
  have scanned := (lexemes_are_scanned_back.2 _ errors _ (.tail _ (.head _))).2
  rw [text, found] at scanned
  exact ⟨rfl, valid, (lexemes_are_scanned_back.1 tokens valid).1, errors, text, scanned⟩

end Lox
