import Mathlib.Order.Defs.PartialOrder
import Lox.Proofs.Syntax.Written
import Lox.Proofs.Heap.Chains

/-!
# What was made

A registry has the heap, the functions and classes that were made, in the order of their identities,
and the class of each instance. It is sound if every value on the heap is one of those that were
made (`Registry.Knows`), if every link and every superclass leads to something made earlier, and if
the global frame alone has no link (`Registry.Sound`). What was made stays as it was made
(`Registry.Precedes`).
-/

namespace Lox

namespace Heap

/-! ## Links -/

/-- The frame `0` is the only one without a link; the links of the others lead to frames made
earlier. -/
structure Rooted (h : Heap) : Prop where
  root : 0 < h.frames.size
  alone : ∀ f < h.frames.size, h.enclosing? f = none ↔ f = 0
  earlier : ∀ f g, h.enclosing? f = some g → g < f

theorem Rooted.push {h : Heap} (r : h.Rooted) {outer : FrameId} (inside : outer < h.frames.size) :
    (h.push (some outer)).Rooted where
  root := by
    rw [size_push]
    exact Nat.succ_pos _
  alone f made := by
    rw [size_push] at made
    rw [enclosing?_push]
    split
    · rename_i new
      exact iff_of_false nofun fun e => Nat.lt_irrefl 0 (by rw [e] at new; exact new ▸ r.root)
    · rename_i old
      exact r.alone f (Nat.lt_of_le_of_ne (Nat.le_of_lt_succ made) old)
  earlier f g e := by
    rw [enclosing?_push] at e
    split at e
    · rename_i new
      cases e
      exact new ▸ inside
    · exact r.earlier f g e

theorem Rooted.binds {h h' : Heap} {f : FrameId} {n : String} {v : Value} (r : h.Rooted)
    (b : h.Binds f n v h') : h'.Rooted where
  root := b.size.symm ▸ r.root
  alone f made := (b.link f).symm ▸ r.alone f (b.size ▸ made)
  earlier f g e := r.earlier f g ((b.link f).symm.trans e)

/-! ## Contents -/

/-- Every value on the heap is in `K`. -/
structure Within (K : Value → Prop) (h : Heap) : Prop where
  binding : ∀ f n v, h.lookup? f n = some v → K v
  field : ∀ o n v, h.field? o n = some v → K v

namespace Within

variable {K L : Value → Prop} {h : Heap}

theorem mono (w : h.Within K) (le : ∀ v, K v → L v) : h.Within L :=
  ⟨fun f n v e => le v (w.binding f n v e), fun o n v e => le v (w.field o n v e)⟩

theorem push (w : h.Within K) (outer : Option FrameId) : (h.push outer).Within K :=
  ⟨fun f n v e => w.binding f n v ((lookup?_push ..).symm.trans e), w.field⟩

theorem pushInstance (w : h.Within K) : h.pushInstance.Within K :=
  ⟨w.binding, fun o n v e => w.field o n v ((field?_pushInstance ..).symm.trans e)⟩

theorem binds (w : h.Within K) {h' : Heap} {f : FrameId} {n : String} {v : Value}
    (b : h.Binds f n v h') (hv : K v) : h'.Within K where
  binding g other u e := by
    rw [b.lookup] at e
    split at e
    · cases e
      exact hv
    · exact w.binding g other u e
  field o other u e := by
    rw [field?, b.fields] at e
    exact w.field o other u e

theorem declare (w : h.Within K) (nil : K .nil) (f : FrameId) (n : String) :
    (h.declare f n).Within K := by
  refine w.binds (binds_declare h f n) ?_
  cases e : h.lookup? f n with
  | none => exact nil
  | some v => exact w.binding f n v e

theorem getAt (w : h.Within K) (nil : K .nil) (f : FrameId) (distance : Nat) (n : String) :
    K (h.getAt f distance n) := by
  rw [Heap.getAt]
  cases e : h.lookup? (h.ancestor f distance) n with
  | none => exact nil
  | some v => exact w.binding _ n v e

/-- On the heap of a machine that has run nothing there is only the clock. -/
theorem start (host : Host) (clock : K (.native .clock)) : (Machine.start host).heap.Within K := by
  have empty : (Heap.empty.push none).Within K :=
    ⟨fun f n v e => (nomatch (lookup?_push ..).symm.trans e), nofun⟩
  exact empty.binds (binds_define (Heap.empty.push none) 0 Native.clock.name _) clock

theorem setField (w : h.Within K) (o : InstanceId) (n : String) {v : Value} (hv : K v) :
    (h.setField o n v).Within K where
  binding := w.binding
  field p other u e := by
    rw [field?_setField] at e
    split at e
    · cases e
      exact hv
    · exact w.field p other u e

end Within

/-- The value is on the heap or among `vs`, or it is part of such a value. -/
inductive Holds (h : Heap) (vs : List Value) : Value → Prop
  | atHand {v : Value} (inside : v ∈ vs) : Holds h vs v
  | binding {f : FrameId} {n : String} {v : Value} (e : h.lookup? f n = some v) : Holds h vs v
  | field {o : InstanceId} {n : String} {v : Value} (e : h.field? o n = some v) : Holds h vs v
  | ownMethod {c : Class} {n : String} {f : Function} (holds : Holds h vs (.class c))
    (e : c.methods[n]? = some f) : Holds h vs (.function f)
  | superclass {c s : Class} (holds : Holds h vs (.class c)) (e : c.superclass = some s) :
    Holds h vs (.class s)
  | ofClass {o : Instance} (holds : Holds h vs (.instance o)) : Holds h vs (.class o.ofClass)

/-- What is held is in `K` if all values on the heap and at hand are, and if `K` has the parts of
what it has. -/
theorem Within.holds {K : Value → Prop} {h : Heap} (w : h.Within K) {vs : List Value}
    (atHand : ∀ v ∈ vs, K v)
    (ownMethod : ∀ (c : Class) (n : String) (f : Function), K (.class c) →
      c.methods[n]? = some f → K (.function f))
    (superclass : ∀ c s, K (.class c) → c.superclass = some s → K (.class s))
    (ofClass : ∀ o, K (.instance o) → K (.class o.ofClass)) {v : Value} (holds : h.Holds vs v) :
    K v := by
  induction holds with
  | atHand inside => exact atHand _ inside
  | binding e => exact w.binding _ _ _ e
  | field e => exact w.field _ _ _ e
  | ownMethod _ e known => exact ownMethod _ _ _ known e
  | superclass _ e known => exact superclass _ _ known e
  | ofClass _ known => exact ofClass _ known

/-! ## Evolution -/

/-- `h'` keeps the frames of `h`, their links and the names that they bind, and the instances of `h`
and the names of their fields. -/
structure Evolves (h h' : Heap) : Prop extends Extends h h' where
  fields : h.fields.size ≤ h'.fields.size
  field : ∀ o n, (h.field? o n).isSome → (h'.field? o n).isSome

/-- `h'` keeps what the frames of `h` bind to the names that are not in `N`. -/
structure Preserves (N : String → Prop) (h h' : Heap) : Prop extends Evolves h h' where
  kept : ∀ f < h.frames.size, ∀ n, ¬ N n → h'.lookup? f n = h.lookup? f n

theorem Evolves.trans {h₁ h₂ h₃ : Heap} (a : h₁.Evolves h₂) (b : h₂.Evolves h₃) :
    h₁.Evolves h₃ where
  toExtends := a.toExtends.trans b.toExtends
  fields := Nat.le_trans a.fields b.fields
  field o n e := b.field o n (a.field o n e)

namespace Preserves

variable {N : String → Prop} {h h' : Heap}

theorem refl (N : String → Prop) (h : Heap) : h.Preserves N h :=
  ⟨⟨.refl h, Nat.le_refl _, fun _ _ => id⟩, fun _ _ _ _ => rfl⟩

theorem trans {h₁ h₂ h₃ : Heap} (a : h₁.Preserves N h₂) (b : h₂.Preserves N h₃) :
    h₁.Preserves N h₃ where
  toEvolves := a.toEvolves.trans b.toEvolves
  kept f inside n other :=
    (b.kept f (Nat.lt_of_lt_of_le inside a.size) n other).trans (a.kept f inside n other)

theorem push (p : h.Preserves N h') (outer : Option FrameId) : h.Preserves N (h'.push outer) where
  toExtends := p.toExtends.trans (.push h' outer)
  fields := p.fields
  field := p.field
  kept f inside n other := (lookup?_push ..).trans (p.kept f inside n other)

/-- A binding keeps the heap if it is of a name in `N` or in a frame that the heap does not have. -/
theorem binds (p : h.Preserves N h') {h'' : Heap} {f : FrameId} {n : String} {v : Value}
    (b : h'.Binds f n v h'') (apart : N n ∨ h.frames.size ≤ f) : h.Preserves N h'' where
  toExtends := p.toExtends.trans b.isExtension
  fields := by rw [b.fields]; exact p.fields
  field o m e := by
    rw [field?, b.fields]
    exact p.field o m e
  kept g inside m other := by
    rw [b.lookup, if_neg, p.kept g inside m other]
    rintro ⟨rfl, -, rfl⟩
    rcases apart with named | new
    · exact other named
    · exact absurd inside (Nat.not_lt.mpr new)

theorem pushInstance (N : String → Prop) (h : Heap) : h.Preserves N h.pushInstance where
  toExtends := .pushInstance h
  fields := by
    rw [Heap.pushInstance, Array.size_push]
    exact Nat.le_succ _
  field o n e := by rwa [field?_pushInstance]
  kept _ _ _ _ := rfl

theorem setField (N : String → Prop) (h : Heap) (o : InstanceId) (n : String) (v : Value) :
    h.Preserves N (h.setField o n v) where
  toExtends := .setField h o n v
  fields := Nat.le_of_eq (by rw [Heap.setField, Array.size_modify])
  field p m e := by
    rw [field?_setField]
    split
    · rfl
    · exact e
  kept _ _ _ _ := rfl

end Preserves

end Heap

/-! ## Registries -/

/-- A function or a class. -/
inductive Object
  | function (f : Function)
  | «class» (c : Class)

/-- A heap, the functions and classes that were made, each at its identity, and the class of each
instance. -/
structure Registry where
  heap : Heap
  objects : List Object
  classes : List Class

/-- What stands at a place of a list stands there in every list that goes on from it. -/
theorem getElem?_of_prefix {α : Type} {l l' : List α} (h : l <+: l') {i : Nat} {a : α}
    (e : l[i]? = some a) : l'[i]? = some a := by
  obtain ⟨inside, rfl⟩ := List.getElem?_eq_some_iff.mp e
  exact List.prefix_iff_getElem?.mp h i inside

namespace Registry

/-- A function, class or instance is known if it was made, and as it was made. -/
def Knows (r : Registry) : Value → Prop
  | .function f => r.objects[f.identity]? = some (.function f)
  | .class c => r.objects[c.identity]? = some (.class c)
  | .instance o => r.classes[o.identity]? = some o.ofClass
  | _ => True

theorem knows_plain {r : Registry} {v : Value} (plain : v.IsPlain) : r.Knows v := by
  cases v <;> trivial

/-- What may stand at an identity: a function whose closure was made and whose code binds names in
`N`, or a class whose methods are known and whose superclass was made earlier. -/
def Fits (N : String → Prop) (r : Registry) (i : Identity) : Object → Prop
  | .function f => f.identity = i ∧ f.closure < r.heap.frames.size ∧ ∀ n ∈ f.decl.written, N n
  | .class c => c.identity = i ∧
    (∀ (n : String) (f : Function), c.methods[n]? = some f → r.Knows (.function f)) ∧
    ∀ s, c.superclass = some s → r.Knows (.class s) ∧ s.identity < i

/-- Everything in the registry leads to what was made before it. -/
structure Sound (N : String → Prop) (r : Registry) : Prop where
  rooted : r.heap.Rooted
  within : r.heap.Within r.Knows
  objects : ∀ i o, r.objects[i]? = some o → r.Fits N i o
  instances : r.classes.length = r.heap.fields.size
  classes : ∀ c ∈ r.classes, r.Knows (.class c)

/-- What was made stays as it was made. -/
structure Precedes (N : String → Prop) (r r' : Registry) : Prop where
  heap : r.heap.Preserves N r'.heap
  objects : r.objects <+: r'.objects
  classes : r.classes <+: r'.classes

namespace Precedes

variable {N : String → Prop} {r r' r'' : Registry}

theorem refl (N : String → Prop) (r : Registry) : r.Precedes N r :=
  ⟨.refl N r.heap, List.prefix_refl _, List.prefix_refl _⟩

theorem trans (a : r.Precedes N r') (b : r'.Precedes N r'') : r.Precedes N r'' :=
  ⟨a.heap.trans b.heap, a.objects.trans b.objects, a.classes.trans b.classes⟩

theorem ofHeap (r : Registry) {h' : Heap} (p : r.heap.Preserves N h') :
    r.Precedes N { r with heap := h' } :=
  ⟨p, List.prefix_refl _, List.prefix_refl _⟩

theorem knows (le : r.Precedes N r') {v : Value} (h : r.Knows v) : r'.Knows v := by
  cases v with
  | function f => exact getElem?_of_prefix le.objects h
  | «class» c => exact getElem?_of_prefix le.objects h
  | «instance» o => exact getElem?_of_prefix le.classes h
  | nil | bool | number | string | native => trivial

theorem fits (le : r.Precedes N r') {i : Identity} {o : Object} (h : r.Fits N i o) :
    r'.Fits N i o := by
  cases o with
  | function f => exact ⟨h.1, Nat.lt_of_lt_of_le h.2.1 le.heap.size, h.2.2⟩
  | «class» c =>
    obtain ⟨identity, methods, superclass⟩ := h
    exact ⟨identity, fun n f e => le.knows (methods n f e), fun s e =>
      (superclass s e).imp_left le.knows⟩

end Precedes

namespace Sound

variable {N : String → Prop} {r : Registry}

/-- Everything that is held is known. -/
theorem knows (s : r.Sound N) {vs : List Value} (atHand : ∀ v ∈ vs, r.Knows v) {v : Value}
    (holds : r.heap.Holds vs v) : r.Knows v :=
  s.within.holds atHand (fun c n f known e => (s.objects c.identity _ known).2.1 n f e)
    (fun c d known e => ((s.objects c.identity _ known).2.2 d e).1)
    (fun o known => s.classes o.ofClass (List.mem_of_getElem? known)) holds

/-- The heap may change to one that keeps what was made and has only known values. -/
theorem setHeap (s : r.Sound N) {h' : Heap} (p : r.heap.Preserves N h') (rooted : h'.Rooted)
    (within : h'.Within r.Knows) (same : h'.fields.size = r.heap.fields.size) :
    ({ r with heap := h' } : Registry).Sound N where
  rooted := rooted
  within := within
  objects i o e := (Precedes.ofHeap r p).fits (s.objects i o e)
  instances := s.instances.trans same.symm
  classes := s.classes

/-- A function or class that fits may be added. -/
theorem addObject (s : r.Sound N) {o : Object} (fits : r.Fits N r.objects.length o) :
    ({ r with objects := r.objects ++ [o] } : Registry).Sound N := by
  have le : r.Precedes N { r with objects := r.objects ++ [o] } :=
    ⟨.refl N r.heap, List.prefix_append _ _, List.prefix_refl _⟩
  refine ⟨s.rooted, s.within.mono fun _ => le.knows, fun i p e => le.fits ?_, s.instances,
    fun c inside => le.knows (s.classes c inside)⟩
  rcases Nat.lt_trichotomy i r.objects.length with old | rfl | beyond
  · rw [List.getElem?_append_left old] at e
    exact s.objects i p e
  · rw [List.getElem?_concat_length] at e
    cases e
    exact fits
  · rw [List.getElem?_eq_none (by simpa using Nat.succ_le_of_lt beyond)] at e
    cases e

/-- An instance of a known class may be added. -/
theorem addInstance (s : r.Sound N) {c : Class} (known : r.Knows (.class c)) :
    ({ r with heap := r.heap.pushInstance, classes := r.classes ++ [c] } : Registry).Sound N := by
  have le : r.Precedes N { r with heap := r.heap.pushInstance, classes := r.classes ++ [c] } :=
    ⟨.pushInstance N r.heap, List.prefix_refl _, List.prefix_append _ _⟩
  refine ⟨⟨s.rooted.root, s.rooted.alone, s.rooted.earlier⟩,
    s.within.pushInstance.mono fun _ => le.knows, fun i o e => le.fits (s.objects i o e), ?_, ?_⟩
  · simp [Heap.pushInstance, s.instances]
  · refine List.forall_mem_append.mpr ⟨fun d inside => le.knows (s.classes d inside), ?_⟩
    exact List.forall_mem_singleton.mpr (le.knows known)

end Sound

end Registry

end Lox
