/-!
# One computation after another

The rules of the grammar and the computations on the machine are sequenced in the same way. Either
the first gives something, and the second goes on from there, or the first ends both.
-/

namespace Lox

variable {ε σ α β : Type} {x : EStateM ε σ α} {f : α → EStateM ε σ β} {m m₁ m' : σ} {a : α} {b : β}
  {s : ε}

theorem bind_of_ok (h : x m = .ok a m₁) : (x >>= f) m = f a m₁ := by
  show EStateM.bind x f m = _
  simp only [EStateM.bind, h]

theorem bind_of_error (h : x m = .error s m₁) : (x >>= f) m = .error s m₁ := by
  show EStateM.bind x f m = _
  simp only [EStateM.bind, h]

theorem bind_eq_ok :
    (x >>= f) m = .ok b m' ↔ ∃ a m₁, x m = .ok a m₁ ∧ f a m₁ = .ok b m' := by
  cases h : x m with
  | ok a m₁ =>
    rw [bind_of_ok h]
    exact ⟨fun h' => ⟨a, m₁, rfl, h'⟩, fun ⟨_, _, e, h'⟩ => by cases e; exact h'⟩
  | error s m₁ =>
    rw [bind_of_error h]
    exact ⟨nofun, fun ⟨_, _, e, _⟩ => nomatch e⟩

theorem bind_eq_error :
    (x >>= f) m = .error s m' ↔
      x m = .error s m' ∨ ∃ a m₁, x m = .ok a m₁ ∧ f a m₁ = .error s m' := by
  cases h : x m with
  | ok a m₁ =>
    rw [bind_of_ok h]
    refine ⟨fun h' => .inr ⟨a, m₁, rfl, h'⟩, ?_⟩
    rintro (e | ⟨_, _, e, h'⟩)
    · nomatch e
    · cases e
      exact h'
  | error s' m₁ =>
    rw [bind_of_error h]
    constructor
    · rintro ⟨⟩
      exact .inl rfl
    · rintro (e | ⟨_, _, e, _⟩)
      · cases e
        rfl
      · nomatch e

end Lox
