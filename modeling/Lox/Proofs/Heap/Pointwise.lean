import Lox.Heap.Lemmas

/-!
# Walks on heaps with the same links

Walks outward depend on the links of a heap and on which names its frames bind, and on nothing else
(`ancestor_congr`, `holder?_congr`).
-/

namespace Option.Rel

variable {α β : Type} {r r' : α → β → Prop} {a : Option α} {b : Option β}

theorem imp (h : Option.Rel r a b) (sub : ∀ x y, r x y → r' x y) : Option.Rel r' a b := by
  cases h with
  | none => exact .none
  | some h => exact .some (sub _ _ h)

theorem isSome_eq (h : Option.Rel r a b) : b.isSome = a.isSome := by
  cases h <;> rfl

theorem getD (h : Option.Rel r a b) {x : α} {y : β} (otherwise : r x y) :
    r (a.getD x) (b.getD y) := by
  cases h with
  | none => exact otherwise
  | some h => exact h

end Option.Rel

namespace Lox.Heap

variable {h h' : Heap}

/-- Walks outward depend on the links only. -/
theorem ancestor_congr (link : ∀ f, h'.enclosing? f = h.enclosing? f) (f : FrameId)
    (distance : Nat) : h'.ancestor f distance = h.ancestor f distance := by
  induction distance generalizing f with
  | zero => rfl
  | succ distance ih =>
    rw [ancestor, ancestor, link]
    split
    · exact ih _
    · rfl

/-- One step of the search for a name. -/
theorem holder?_eq (h : Heap) (f : FrameId) (name : String) :
    h.holder? f name =
      if (h.lookup? f name).isSome then some f
      else (h.enclosing? f).bind fun outer => if outer < f then h.holder? outer name else none := by
  rw [holder?, lookup?, enclosing?]
  cases h.frames[f]? with
  | none => rfl
  | some frame =>
    simp only [Option.bind_some, Std.TreeMap.isSome_getElem?_eq_contains]
    split
    · rfl
    · cases frame.enclosing <;> rfl

/-- The search for a name depends on the links, and on where it is bound. -/
theorem holder?_congr {name : String} (link : ∀ f, h'.enclosing? f = h.enclosing? f)
    (bound : ∀ f, (h'.lookup? f name).isSome = (h.lookup? f name).isSome) (f : FrameId) :
    h'.holder? f name = h.holder? f name := by
  induction f using Nat.strongRecOn with
  | ind f ih =>
    rw [holder?_eq, holder?_eq, link, bound]
    cases h.enclosing? f with
    | none => rfl
    | some outer =>
      dsimp only [Option.bind_some]
      split
      · rfl
      · split
        · exact ih outer ‹_›
        · rfl

end Lox.Heap
