import Lox.Token.Scan

/-!
# Words

A word is a keyword if it is spelt like one, and an identifier otherwise. So each token of a source
is `Spelt` as its kind demands (`spelt_of_mem_tokensOf`): the lexeme of a keyword is its spelling,
and that of an identifier is no keyword's.
-/

namespace Lox

/-- The lexeme is the keyword's spelling, or, for an identifier, no keyword's. -/
def Token.Spelt (t : Token) : Prop :=
  match t.kind with
  | .keyword k => t.lexeme = k.text
  | .identifier => ∀ k : Keyword, t.lexeme ≠ k.text
  | _ => True

theorem Keyword.mem_all (k : Keyword) : k ∈ all := by
  cases k <;> decide

theorem Keyword.text_of_ofText? {s : String} {k : Keyword} (h : ofText? s = some k) :
    k.text = s := by
  simpa using List.find?_some h

theorem Keyword.ne_text_of_ofText? {s : String} (h : ofText? s = none) (k : Keyword) :
    s ≠ k.text := by
  have := List.find?_eq_none.mp h k k.mem_all
  simp only [beq_iff_eq] at this
  exact Ne.symm this

namespace Piece

/-- The kind of a piece that is a token suits its text. -/
def Spelt (p : Piece) : Prop :=
  ∀ kind line, p.kind = .token kind → Token.Spelt ⟨kind, String.ofList p.text, line⟩

theorem spelt_of_not_word {p : Piece}
    (h : ∀ kind, p.kind = .token kind → (∀ k, kind ≠ .keyword k) ∧ kind ≠ .identifier) :
    p.Spelt := by
  intro kind line e
  obtain ⟨noKeyword, noIdentifier⟩ := h kind e
  unfold Token.Spelt
  split
  · rename_i k e
    exact absurd e (noKeyword k)
  · rename_i e
    exact absurd e noIdentifier
  · trivial

theorem spelt_word (c : Char) (cs : List Char) : (word c cs).1.Spelt := by
  intro kind line e
  simp only [word, PieceKind.token.injEq] at e ⊢
  subst e
  unfold wordKind
  cases h : Keyword.ofText? (String.ofList (c :: cs.takeWhile continuesWord)) with
  | some k => exact (Keyword.text_of_ofText? h).symm
  | none => exact Keyword.ne_text_of_ofText? h

theorem spelt_number (c : Char) (cs : List Char) : (number c cs).1.Spelt := by
  refine spelt_of_not_word fun kind e => ?_
  simp only [number] at e
  split at e <;> cases e <;> simp

theorem spelt_quoted (cs : List Char) : (quoted cs).1.Spelt := by
  refine spelt_of_not_word fun kind e => ?_
  simp only [quoted] at e
  split at e <;> cases e
  exact ⟨nofun, nofun⟩

theorem spelt_symbol (c : Char) (cs : List Char) : (symbol c cs).1.Spelt := by
  refine spelt_of_not_word fun kind e => ?_
  unfold symbol at e
  split at e
  · cases e
  · split at e <;> cases e <;> exact ⟨nofun, nofun⟩

theorem spelt_first (c : Char) (cs : List Char) : (first c cs).1.Spelt := by
  have skipped (text : List Char) : Spelt ⟨.skipped, text⟩ := fun _ _ e => nomatch e
  unfold first
  split
  · exact skipped [c]
  split
  · exact spelt_word c cs
  split
  · exact spelt_number c cs
  split
  · exact spelt_quoted cs
  split
  · exact skipped _
  · exact spelt_symbol c cs

end Piece

theorem spelt_of_mem_pieces {cs : List Char} {p : Piece} (h : p ∈ pieces cs) : p.Spelt := by
  fun_induction pieces cs with
  | case1 => cases h
  | case2 c cs ih =>
    rcases List.mem_cons.mp h with rfl | h
    · exact Piece.spelt_first c cs
    · exact ih h

theorem spelt_of_mem_itemsFrom {ps : List Piece} (hps : ∀ p ∈ ps, p.Spelt) {line : Nat} {t : Token}
    (h : .token t ∈ itemsFrom line ps) : t.Spelt := by
  induction ps generalizing line with
  | nil =>
    simp only [itemsFrom, List.mem_singleton, Item.token.injEq] at h
    subst h
    trivial
  | cons p ps ih =>
    simp only [itemsFrom, List.mem_append, Option.mem_toList] at h
    rcases h with h | h
    · unfold Piece.item? at h
      split at h <;> simp only [Option.some.injEq, Item.token.injEq, reduceCtorEq] at h
      rename_i kind e
      subst h
      exact hps p List.mem_cons_self kind _ e
    · exact ih (fun q hq => hps q (List.mem_cons_of_mem p hq)) h

/-- Every token of a source is spelt as its kind demands. -/
theorem spelt_of_mem_tokensOf {source : String} {t : Token} (h : t ∈ tokensOf source) :
    t.Spelt := by
  simp only [tokensOf, List.mem_filterMap] at h
  obtain ⟨item, inside, e⟩ := h
  cases item with
  | token t' =>
    cases e
    exact spelt_of_mem_itemsFrom (fun _ => spelt_of_mem_pieces) inside
  | error => cases e

end Lox
