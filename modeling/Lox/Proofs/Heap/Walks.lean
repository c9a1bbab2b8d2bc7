import Lox.Proofs.Heap.Registry

/-!
# Walks

The walks that follow links until there is none, and how they end. On a rooted heap the chain from
every frame ends at the global frame (`Rooted.outward?_globals`); the search for a name, which knows
no bound, ends (`Rooted.searches`), and the walk to a distance stops early only at the global frame
(`Rooted.ancestor_eq`). The search for a method goes through the classes of a finite list
(`Class.lineage`), each of which was made before the one below it (`Registry.Sound.lineage`).
-/

namespace Lox

namespace Heap

/-- The search for a name from a frame outward, along links of which nothing is known, ends with the
frame that binds it, or without one. -/
inductive Searches (h : Heap) (name : String) : FrameId → Option FrameId → Prop
  | here {f : FrameId} (bound : (h.lookup? f name).isSome) : Searches h name f (some f)
  | outward {f g : FrameId} {found : Option FrameId} (free : h.lookup? f name = none)
    (link : h.enclosing? f = some g) (rest : Searches h name g found) : Searches h name f found
  | nowhere {f : FrameId} (free : h.lookup? f name = none) (outermost : h.enclosing? f = none) :
    Searches h name f none

/-- A search ends in one way. -/
theorem Searches.unique {h : Heap} {name : String} {f : FrameId} {a b : Option FrameId}
    (s : h.Searches name f a) (t : h.Searches name f b) : a = b := by
  induction s with
  | here bound =>
    cases t with
    | here => rfl
    | outward free | nowhere free =>
      rw [free] at bound
      cases bound
  | outward free link _ ih =>
    cases t with
    | here bound =>
      rw [free] at bound
      cases bound
    | outward _ link' rest' =>
      cases link.symm.trans link'
      exact ih rest'
    | nowhere _ outermost => cases link.symm.trans outermost
  | nowhere free outermost =>
    cases t with
    | here bound =>
      rw [free] at bound
      cases bound
    | outward _ link => cases link.symm.trans outermost
    | nowhere => rfl

namespace Rooted

variable {h : Heap}

/-- The chain from every frame ends at the global frame. -/
theorem outward?_globals (r : h.Rooted) {f : FrameId} (made : f < h.frames.size) :
    ∃ distance, h.outward? f distance = some 0 := by
  induction f using Nat.strongRecOn with
  | ind f ih =>
    cases link : h.enclosing? f with
    | none =>
      cases (r.alone f made).mp link
      exact ⟨0, rfl⟩
    | some g =>
      have earlier := r.earlier f g link
      obtain ⟨distance, e⟩ := ih g earlier (Nat.lt_trans earlier made)
      refine ⟨distance + 1, ?_⟩
      rw [outward?, link]
      exact e

/-- The search for a name ends. -/
theorem searches (r : h.Rooted) {f : FrameId} (made : f < h.frames.size) (name : String) :
    h.Searches name f (h.holder? f name) := by
  fun_induction h.holder? f name with
  | case1 f missing =>
    rw [Array.getElem?_eq_getElem made] at missing
    cases missing
  | case2 f frame there bound =>
    refine .here ?_
    rw [lookup?, there]
    exact (Std.TreeMap.isSome_getElem?_eq_contains ..).trans bound
  | case3 f frame there free outermost =>
    refine .nowhere ?_ ?_
    · rw [lookup?, there]
      exact Std.TreeMap.getElem?_eq_none_of_contains_eq_false (Bool.eq_false_iff.mpr free)
    · rw [enclosing?, there]
      exact outermost
  | case4 f frame there free outer link earlier ih =>
    refine .outward ?_ ?_ (ih (Nat.lt_trans earlier made))
    · rw [lookup?, there]
      exact Std.TreeMap.getElem?_eq_none_of_contains_eq_false (Bool.eq_false_iff.mpr free)
    · rw [enclosing?, there]
      exact link
  | case5 f frame there free outer link late =>
    refine absurd (r.earlier f outer ?_) late
    rw [enclosing?, there]
    exact link

/-- The walk to a distance stops early only at the global frame. -/
theorem ancestor_eq (r : h.Rooted) {f : FrameId} (made : f < h.frames.size) (distance : Nat) :
    h.ancestor f distance = (h.outward? f distance).getD 0 := by
  induction distance generalizing f with
  | zero => rfl
  | succ distance ih =>
    rw [ancestor, outward?]
    cases link : h.enclosing? f with
    | none => exact (r.alone f made).mp link
    | some g => exact ih (Nat.lt_trans (r.earlier f g link) made)

end Rooted

end Heap

namespace Class

/-- The class, its superclass, the superclass of that, and so on. -/
def lineage : Class → List Class
  | ⟨identity, name, superclass, methods⟩ =>
    ⟨identity, name, superclass, methods⟩ ::
      match superclass with
      | some c => c.lineage
      | none => []

/-- The search for a method goes through the lineage in order. -/
theorem method?_eq (name : String) :
    (c : Class) → c.method? name = c.lineage.findSome? (·.methods[name]?)
  | ⟨identity, className, superclass, methods⟩ => by
    unfold method? lineage
    rw [List.findSome?_cons]
    cases methods[name]? with
    | some f => rfl
    | none =>
      cases superclass with
      | some c => exact method?_eq name c
      | none => rfl

end Class

namespace Registry

variable {N : String → Prop} {r : Registry}

/-- The classes of a lineage are known, and none was made after the first. -/
theorem Sound.mem_lineage (s : r.Sound N) :
    (c : Class) → r.Knows (.class c) → ∀ d ∈ c.lineage, r.Knows (.class d) ∧
      d.identity ≤ c.identity
  | ⟨identity, name, superclass, methods⟩, known, d, inside => by
    unfold Class.lineage at inside
    rcases List.mem_cons.mp inside with rfl | inside
    · exact ⟨known, Nat.le_refl _⟩
    · cases superclass with
      | none => cases inside
      | some c =>
        obtain ⟨known', earlier⟩ := (s.objects _ _ known).2.2 c rfl
        obtain ⟨known, le⟩ := s.mem_lineage c known' d inside
        exact ⟨known, Nat.le_of_lt (Nat.lt_of_le_of_lt le earlier)⟩

/-- Along a lineage each class was made before the one below it. -/
theorem Sound.lineage (s : r.Sound N) :
    (c : Class) → r.Knows (.class c) → c.lineage.Pairwise (·.identity > ·.identity)
  | ⟨identity, name, superclass, methods⟩, known => by
    unfold Class.lineage
    cases superclass with
    | none => exact List.pairwise_singleton _ _
    | some c =>
      obtain ⟨known', earlier⟩ := (s.objects _ _ known).2.2 c rfl
      refine List.pairwise_cons.mpr ⟨fun d inside => ?_, s.lineage c known'⟩
      exact Nat.lt_of_le_of_lt (s.mem_lineage c known' d inside).2 earlier

end Registry

end Lox
