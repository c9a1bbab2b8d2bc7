import Lox.Heap

/-!
# What the operations on the heap change

A frame is seen through `lookup?` and `enclosing?`, an instance through `field?`. Each operation is
described by what it does to these: a link never changes (`enclosing?_define`), one name in one
frame is bound (`lookup?_define`), and one field of one instance is set (`field?_setField`).
-/

namespace Lox.Heap

/-! ## Frames -/

@[simp] theorem size_push (h : Heap) (outer : Option FrameId) :
    (h.push outer).frames.size = h.frames.size + 1 := by
  simp [push]

@[simp] theorem size_define (h : Heap) (f : FrameId) (name : String) (v : Value) :
    (h.define f name v).frames.size = h.frames.size := by
  simp [define]

@[simp] theorem size_declare (h : Heap) (f : FrameId) (name : String) :
    (h.declare f name).frames.size = h.frames.size := by
  simp [declare]

/-- A new frame lies inside `outer`, and the others lie where they did. -/
theorem enclosing?_push (h : Heap) (outer : Option FrameId) (g : FrameId) :
    (h.push outer).enclosing? g = if g = h.frames.size then outer else h.enclosing? g := by
  unfold enclosing? push
  rw [Array.getElem?_push]
  split <;> rfl

/-- Nothing is bound in a new frame. -/
theorem lookup?_push (h : Heap) (outer : Option FrameId) (g : FrameId) (m : String) :
    (h.push outer).lookup? g m = h.lookup? g m := by
  unfold lookup? push
  rw [Array.getElem?_push]
  split
  · rename_i e
    subst e
    simp
  · rfl

theorem enclosing?_define (h : Heap) (f : FrameId) (name : String) (v : Value) (g : FrameId) :
    (h.define f name v).enclosing? g = h.enclosing? g := by
  unfold enclosing? define
  rw [Array.getElem?_modify]
  split
  · cases h.frames[g]? <;> rfl
  · rfl

theorem enclosing?_declare (h : Heap) (f : FrameId) (name : String) (g : FrameId) :
    (h.declare f name).enclosing? g = h.enclosing? g := by
  unfold enclosing? declare
  rw [Array.getElem?_modify]
  split
  · cases h.frames[g]? <;> rfl
  · rfl

/-- Defining a name binds it in one frame, and changes no other name and no other frame. -/
theorem lookup?_define (h : Heap) (f : FrameId) (name : String) (v : Value) (g : FrameId)
    (m : String) :
    (h.define f name v).lookup? g m =
      if g = f ∧ f < h.frames.size ∧ m = name then some v else h.lookup? g m := by
  unfold lookup? define
  rw [Array.getElem?_modify]
  by_cases e : f = g
  · subst e
    by_cases inside : f < h.frames.size
    · simp only [inside, Array.getElem?_eq_getElem, Option.map_some, Option.bind_some,
        Std.TreeMap.getElem?_insert, Std.LawfulEqCmp.compare_eq_iff_eq, true_and, if_true,
        eq_comm (a := name)]
    · simp [inside]
  · rw [if_neg e, if_neg fun c => e c.1.symm]

/-- Declaring a name binds it in one frame, unless it is bound there, and changes no other name and
no other frame. -/
theorem lookup?_declare (h : Heap) (f : FrameId) (name : String) (g : FrameId) (m : String) :
    (h.declare f name).lookup? g m =
      if g = f ∧ f < h.frames.size ∧ m = name then some ((h.lookup? f name).getD .nil)
      else h.lookup? g m := by
  unfold lookup? declare
  rw [Array.getElem?_modify]
  by_cases e : f = g
  · subst e
    by_cases inside : f < h.frames.size
    · simp only [inside, Array.getElem?_eq_getElem, Option.map_some, Option.bind_some,
        Std.TreeMap.getElem?_insertIfNew, Std.LawfulEqCmp.compare_eq_iff_eq, true_and, if_true,
        eq_comm (a := name)]
      by_cases same : m = name
      · subst same
        by_cases bound : m ∈ h.frames[f].bindings
        · simp [bound]
        · simp [bound]
      · simp [same]
    · simp [inside]
  · rw [if_neg e, if_neg fun c => e c.1.symm]

/-- A frame that binds a name is the nearest one that does. -/
theorem holder?_of_bound {h : Heap} {f : FrameId} {name : String}
    (bound : (h.lookup? f name).isSome) : h.holder? f name = some f := by
  unfold lookup? at bound
  unfold holder?
  cases e : h.frames[f]? with
  | none =>
    rw [e] at bound
    cases bound
  | some frame =>
    rw [e, Option.bind_some] at bound
    dsimp only
    rw [if_pos]
    rwa [Std.TreeMap.contains_eq_isSome_getElem?]

/-! ## Instances -/

/-- A new instance has no fields. -/
theorem field?_pushInstance (h : Heap) (o : InstanceId) (m : String) :
    h.pushInstance.field? o m = h.field? o m := by
  unfold field? pushInstance
  rw [Array.getElem?_push]
  split
  · rename_i e
    subst e
    simp
  · rfl

/-- Setting a field changes no other field and no other instance. -/
theorem field?_setField (h : Heap) (o : InstanceId) (name : String) (v : Value) (p : InstanceId)
    (m : String) :
    (h.setField o name v).field? p m =
      if p = o ∧ o < h.fields.size ∧ m = name then some v else h.field? p m := by
  unfold field? setField
  rw [Array.getElem?_modify]
  by_cases e : o = p
  · subst e
    by_cases inside : o < h.fields.size
    · simp only [inside, Array.getElem?_eq_getElem, Option.map_some, Option.bind_some,
        Std.TreeMap.getElem?_insert, Std.LawfulEqCmp.compare_eq_iff_eq, true_and, if_true,
        eq_comm (a := name)]
    · simp [inside]
  · rw [if_neg e, if_neg fun c => e c.1.symm]

end Lox.Heap
