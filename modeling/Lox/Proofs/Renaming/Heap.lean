import Lox.Proofs.Heap.Chains
import Lox.Proofs.Heap.Pointwise
import Lox.Proofs.Eval.Similar
import Lox.Proofs.Renaming.Rename

/-!
# Renamed heaps

The frames of a run are marked as the scopes are that they were made for (`Marking`), so that the
chain of frames at a place of the program shows the marks around that place (`Marking.Chain`). The
heap of a renamed program binds the same names as that of the program, but renamed in the marked
frames, and to values that differ only in the bodies of their functions (`Marking.Renames`,
`Value.Renamed`). A name that is renamed with the frame in which it lies is found there, or missed
there, in both (`Marking.Renames.getAt`).
-/

namespace Lox

/-! ## Where a walk outward ends -/

namespace Heap

variable {h : Heap} {f : FrameId} {name : String}

theorem holder?_of_outermost (outermost : h.enclosing? f = none) (free : h.lookup? f name = none) :
    h.holder? f name = none := by
  unfold lookup? at free
  unfold enclosing? at outermost
  unfold holder?
  cases e : h.frames[f]? with
  | none => rfl
  | some frame =>
    rw [e, Option.bind_some] at outermost free
    dsimp only
    rw [outermost, if_neg]
    rw [Std.TreeMap.contains_eq_isSome_getElem?, free]
    exact Bool.false_ne_true

theorem get?_of_outermost (outermost : h.enclosing? f = none) :
    h.get? f name = h.lookup? f name := by
  unfold get?
  cases e : h.lookup? f name with
  | none => rw [holder?_of_outermost outermost e, Option.bind_none]
  | some v => rw [holder?_of_bound (e ▸ rfl), Option.bind_some, e]

theorem lookup?_of_size_le (outside : h.frames.size ≤ f) : h.lookup? f name = none := by
  rw [lookup?, Array.getElem?_eq_none outside, Option.bind_none]

/-- A search that ends in the frame where it begins. -/
theorem holder?_of_ends (ends : (h.lookup? f name).isSome ∨ h.enclosing? f = none) :
    h.holder? f name = if (h.lookup? f name).isSome then some f else none := by
  by_cases bound : (h.lookup? f name).isSome
  · rw [if_pos bound, holder?_of_bound bound]
  · rw [if_neg bound]
    exact holder?_of_outermost (ends.resolve_left bound) (Option.not_isSome_iff_eq_none.mp bound)

end Heap

/-! ## Marked frames -/

/-- A heap, its global frame, and which of its frames hold renamed names. -/
structure Marking where
  heap : Heap
  globals : FrameId
  marked : FrameId → Bool

namespace Marking

/-- From `f` outward the frames have the marks, and then comes the global one. -/
inductive Chain (K : Marking) : List Bool → FrameId → Prop
  | nil : Chain K [] K.globals
  | cons {marks : List Bool} {f g : FrameId} (link : K.heap.enclosing? f = some g)
    (outer : Chain K marks g) : Chain K (K.marked f :: marks) f

/-- `K'` extends `K`, and the frames of `K` keep their marks. -/
structure Extends (K K' : Marking) : Prop where
  heap : K.heap.Extends K'.heap
  globals : K'.globals = K.globals
  marked : ∀ f < K.heap.frames.size, K'.marked f = K.marked f

/-- A new frame inside `outer`, with the mark `here`. -/
def enter (K : Marking) (outer : FrameId) (here : Bool) : Marking where
  heap := K.heap.push (some outer)
  globals := K.globals
  marked f := if f = K.heap.frames.size then here else K.marked f

namespace Extends

theorem refl (K : Marking) : K.Extends K :=
  ⟨.refl _, rfl, fun _ _ => rfl⟩

theorem trans {K₁ K₂ K₃ : Marking} (h : K₁.Extends K₂) (h' : K₂.Extends K₃) : K₁.Extends K₃ where
  heap := h.heap.trans h'.heap
  globals := h'.globals.trans h.globals
  marked f inside :=
    (h'.marked f (Nat.lt_of_lt_of_le inside h.heap.size)).trans (h.marked f inside)

/-- A heap that extends another, with the same marks. -/
theorem ofHeap {K : Marking} {h : Heap} (extends' : K.heap.Extends h) :
    K.Extends { K with heap := h } :=
  ⟨extends', rfl, fun _ _ => rfl⟩

theorem enter (K : Marking) (outer : FrameId) (here : Bool) : K.Extends (K.enter outer here) :=
  ⟨.push _ _, rfl, fun _ inside => if_neg (Nat.ne_of_lt inside)⟩

end Extends

namespace Chain

variable {K : Marking} {marks : List Bool} {f : FrameId}

theorem mono {K' : Marking} (h : K.Chain marks f) (grown : K.Extends K') : K'.Chain marks f := by
  induction h with
  | nil =>
    rw [← grown.globals]
    exact .nil
  | @cons marks f g link _ ih =>
    have inside := Heap.lt_size_of_enclosing? link
    rw [← grown.marked f inside]
    exact .cons ((grown.heap.link f inside).trans link) ih

theorem lt_size (h : K.Chain marks f) (inside : K.globals < K.heap.frames.size) :
    f < K.heap.frames.size := by
  cases h with
  | nil => exact inside
  | cons link _ => exact Heap.lt_size_of_enclosing? link

/-- The frame any number of links out has the mark at that distance. -/
theorem ancestor (h : K.Chain marks f) (outermost : K.heap.enclosing? K.globals = none)
    (unmarked : K.marked K.globals = false) (distance : Nat) :
    K.marked (K.heap.ancestor f distance) = marks.getD distance false := by
  induction h generalizing distance with
  | nil =>
    have stays : K.heap.ancestor K.globals distance = K.globals := by
      cases distance with
      | zero => rfl
      | succ distance => rw [Heap.ancestor, outermost]
    rw [stays, unmarked, List.getD_nil]
  | cons link _ ih =>
    cases distance with
    | zero => rfl
    | succ distance =>
      rw [Heap.ancestor, link]
      exact ih distance

theorem headD (h : K.Chain marks f) (unmarked : K.marked K.globals = false) :
    marks.headD false = K.marked f := by
  cases h with
  | nil => exact unmarked.symm
  | cons _ _ => rfl

theorem enter (h : K.Chain marks f) (here : Bool) :
    (K.enter f here).Chain (here :: marks) K.heap.frames.size := by
  have outer := h.mono (.enter K f here)
  have link : (K.enter f here).heap.enclosing? K.heap.frames.size = some f := by
    rw [Marking.enter, Heap.enclosing?_push, if_pos rfl]
  have mark : (K.enter f here).marked K.heap.frames.size = here := if_pos rfl
  have chain := Chain.cons link outer
  rwa [mark] at chain

end Chain

end Marking

/-! ## Renamed values -/

section
variable (R : Renaming) (K : Marking)

/-- The functions differ in their declarations only, and these in that names are renamed in the
marked scopes around them: those of the closure, and inside it `inner`. -/
structure Function.Renamed (inner : List Bool) (f f' : Function) : Prop where
  same : f' = { f with decl := f'.decl }
  decl : ∃ marks, K.Chain marks f.closure ∧ f.decl.Renamed R (inner ++ marks) f'.decl

/-- The methods of the classes differ in that names are renamed. They will be bound in a frame of
their own. -/
structure Class.Renamed (c c' : Class) : Prop where
  identity : c'.identity = c.identity
  name : c'.name = c.name
  methods : ∀ name, Option.Rel (Function.Renamed R K [false]) (c.method? name) (c'.method? name)

/-- The instances are of classes that differ in that names are renamed. -/
structure Instance.Renamed (o o' : Instance) : Prop where
  identity : o'.identity = o.identity
  ofClass : o.ofClass.Renamed R K o'.ofClass

/-- The values differ only in that names are renamed in their functions. -/
inductive Value.Renamed : Value → Value → Prop
  | plain {v : Value} (h : v.IsPlain) : Value.Renamed v v
  | function {f f' : Function} (h : f.Renamed R K [] f') :
    Value.Renamed (.function f) (.function f')
  | class {c c' : Class} (h : c.Renamed R K c') : Value.Renamed (.class c) (.class c')
  | instance {o o' : Instance} (h : o.Renamed R K o') :
    Value.Renamed (.instance o) (.instance o')

end

section
variable {R : Renaming} {K K' : Marking}

theorem Function.Renamed.mono {inner : List Bool} {f f' : Function} (h : f.Renamed R K inner f')
    (grown : K.Extends K') : f.Renamed R K' inner f' := by
  obtain ⟨same, marks, chain, decl⟩ := h
  exact ⟨same, marks, chain.mono grown, decl⟩

theorem Class.Renamed.mono {c c' : Class} (h : c.Renamed R K c') (grown : K.Extends K') :
    c.Renamed R K' c' :=
  ⟨h.identity, h.name, fun name => (h.methods name).imp fun _ _ h => h.mono grown⟩

theorem Instance.Renamed.mono {o o' : Instance} (h : o.Renamed R K o') (grown : K.Extends K') :
    o.Renamed R K' o' :=
  ⟨h.identity, h.ofClass.mono grown⟩

theorem Value.Renamed.mono {v v' : Value} (h : v.Renamed R K v') (grown : K.Extends K') :
    v.Renamed R K' v' := by
  cases h with
  | plain h => exact .plain h
  | function h => exact .function (h.mono grown)
  | «class» h => exact .class (h.mono grown)
  | «instance» h => exact .instance (h.mono grown)

theorem Value.Renamed.similar {v v' : Value} (h : v.Renamed R K v') : v.Similar v' := by
  cases h with
  | plain h => exact .plain h
  | function h =>
    obtain ⟨marks, _, decl⟩ := h.decl
    exact .function (by rw [h.same]) (by rw [decl.name_eq])
  | «class» h => exact .class h.identity h.name
  | «instance» h => exact .instance h.identity h.ofClass.name

/-! ## Renamed heaps -/

/-- `h'` is the heap of `K`, but with the names of the marked frames renamed. The global names are
not. -/
structure Marking.Renames (R : Renaming) (K : Marking) (h' : Heap) : Prop where
  inside : K.globals < K.heap.frames.size
  outermost : K.heap.enclosing? K.globals = none
  unmarked : K.marked K.globals = false
  size : h'.frames.size = K.heap.frames.size
  link : ∀ f, h'.enclosing? f = K.heap.enclosing? f
  bindings : ∀ f name, Option.Rel (Value.Renamed R K) (K.heap.lookup? f name)
    (h'.lookup? f (R.swap (K.marked f) name))
  instances : h'.fields.size = K.heap.fields.size
  fields : ∀ o name, Option.Rel (Value.Renamed R K) (K.heap.field? o name) (h'.field? o name)

namespace Marking.Renames

variable {h' : Heap} {f : FrameId} {name : String} {v v' : Value}

/-- The values in the frames that a name is renamed with. -/
theorem getAt (h : K.Renames R h') {marks : List Bool} (chain : K.Chain marks f) (distance : Nat)
    (name : String) : (K.heap.getAt f distance name).Renamed R K
      (h'.getAt f distance (R.swap (marks.getD distance false) name)) := by
  unfold Heap.getAt
  rw [Heap.ancestor_congr h.link, ← chain.ancestor h.outermost h.unmarked distance]
  exact (h.bindings (K.heap.ancestor f distance) name).getD (.plain trivial)

/-- A name is bound in both heaps, renamed with the frame. -/
theorem bind (h : K.Renames R h') (hv : v.Renamed R K v') {H H' : Heap}
    (b : K.heap.Binds f name v H) (b' : h'.Binds f (R.swap (K.marked f) name) v' H') :
    Renames R { K with heap := H } H' where
  inside := by rw [b.size]; exact h.inside
  outermost := by rw [b.link]; exact h.outermost
  unmarked := h.unmarked
  size := by rw [b.size, b'.size, h.size]
  link g := by rw [b.link, b'.link, h.link]
  bindings g other := by
    have grown : K.Extends { K with heap := H } := .ofHeap b.isExtension
    rw [b.lookup, b'.lookup, h.size]
    by_cases here : g = f ∧ f < K.heap.frames.size ∧ other = name
    · obtain ⟨rfl, inside, rfl⟩ := here
      rw [if_pos ⟨rfl, inside, rfl⟩, if_pos ⟨rfl, inside, rfl⟩]
      exact .some (hv.mono grown)
    · rw [if_neg here, if_neg]
      · exact (h.bindings g other).imp fun _ _ h => h.mono grown
      · rintro ⟨rfl, inside, e⟩
        exact here ⟨rfl, inside, (R.swap _).injective e⟩
  instances := by rw [b.fields, b'.fields, h.instances]
  fields o other := by
    unfold Heap.field?
    rw [b.fields, b'.fields]
    exact (h.fields o other).imp fun _ _ h => h.mono (.ofHeap b.isExtension)

theorem define (h : K.Renames R h') (hv : v.Renamed R K v') (f : FrameId) (name : String) :
    Renames R { K with heap := K.heap.define f name v }
      (h'.define f (R.swap (K.marked f) name) v') :=
  h.bind hv (Heap.binds_define ..) (Heap.binds_define ..)

theorem declare (h : K.Renames R h') (f : FrameId) (name : String) :
    Renames R { K with heap := K.heap.declare f name }
      (h'.declare f (R.swap (K.marked f) name)) :=
  h.bind ((h.bindings f name).getD (.plain (v := .nil) trivial)) (Heap.binds_declare ..)
    (Heap.binds_declare ..)

theorem enter (h : K.Renames R h') (outer : FrameId) (here : Bool) :
    (K.enter outer here).Renames R (h'.push (some outer)) where
  inside := Nat.lt_of_lt_of_le h.inside (Heap.Extends.push _ _).size
  outermost := ((Heap.Extends.push _ _).link _ h.inside).trans h.outermost
  unmarked := (if_neg (Nat.ne_of_lt h.inside)).trans h.unmarked
  size := by rw [Marking.enter, Heap.size_push, Heap.size_push, h.size]
  link g := by rw [Marking.enter, Heap.enclosing?_push, Heap.enclosing?_push, h.size, h.link]
  bindings g other := by
    have grown : K.Extends (K.enter outer here) := .enter K outer here
    rw [Marking.enter, Heap.lookup?_push, Heap.lookup?_push]
    by_cases inside : g < K.heap.frames.size
    · have mark := grown.marked g inside
      rw [Marking.enter] at mark
      rw [mark]
      exact (h.bindings g other).imp fun _ _ h => h.mono grown
    · rw [Heap.lookup?_of_size_le (Nat.le_of_not_lt inside),
        Heap.lookup?_of_size_le (h.size ▸ Nat.le_of_not_lt inside)]
      exact .none
  instances := h.instances
  fields o other := (h.fields o other).imp fun _ _ h => h.mono (.enter K outer here)

theorem pushInstance (h : K.Renames R h') :
    Renames R { K with heap := K.heap.pushInstance } h'.pushInstance where
  inside := h.inside
  outermost := h.outermost
  unmarked := h.unmarked
  size := h.size
  link := h.link
  bindings f other := (h.bindings f other).imp fun _ _ h => h.mono (.ofHeap (.pushInstance _))
  instances := by simp [Heap.pushInstance, h.instances]
  fields o other := by
    rw [Heap.field?_pushInstance, Heap.field?_pushInstance]
    exact (h.fields o other).imp fun _ _ h => h.mono (.ofHeap (.pushInstance _))

theorem setField (h : K.Renames R h') (hv : v.Renamed R K v') (o : InstanceId) (name : String) :
    Renames R { K with heap := K.heap.setField o name v } (h'.setField o name v') where
  inside := h.inside
  outermost := h.outermost
  unmarked := h.unmarked
  size := h.size
  link := h.link
  bindings f other := (h.bindings f other).imp fun _ _ h => h.mono (.ofHeap (.setField ..))
  instances := by simp [Heap.setField, h.instances]
  fields p other := by
    have grown : K.Extends { K with heap := K.heap.setField o name v } := .ofHeap (.setField ..)
    rw [Heap.field?_setField, Heap.field?_setField, h.instances]
    split
    · exact .some (hv.mono grown)
    · exact (h.fields p other).imp fun _ _ h => h.mono grown

end Marking.Renames

end

end Lox
