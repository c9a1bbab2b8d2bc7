import Mathlib.Logic.Relation
import Lox.Heap.Lemmas
import Lox.Proofs.Eval.Laws

/-!
# What can be reached on a heap

The heap consists of frames and of the fields of instances (`Node`). A node points to those that the
values in it mention, and a frame to the frame around it (`Heap.Points`). A function mentions its
closure, a class the closures of its methods and whatever its superclass mentions, an instance its
fields and whatever its class mentions (`Value.Mentions`). What is reached from a set of nodes stays
within any set that contains them and is closed under pointing (`Heap.Reaches.mem`).
-/

namespace Lox

/-- A part of the heap that changes: a frame, or the fields of an instance. -/
inductive Node
  | frame (f : FrameId)
  | «instance» (o : InstanceId)

/-- The value leads to the node without the help of the heap. -/
inductive Value.Mentions : Value → Node → Prop
  | closure {f : Function} : Mentions (.function f) (.frame f.closure)
  | method {c : Class} {n : String} {f : Function} (h : c.methods[n]? = some f) :
    Mentions (.class c) (.frame f.closure)
  | superclass {c s : Class} {node : Node} (h : c.superclass = some s)
    (inside : Mentions (.class s) node) : Mentions (.class c) node
  | fields {o : Instance} : Mentions (.instance o) (.instance o.identity)
  | ofClass {o : Instance} {node : Node} (inside : Mentions (.class o.ofClass) node) :
    Mentions (.instance o) node

theorem Value.IsPlain.not_mentions {v : Value} (h : v.IsPlain) {node : Node} :
    ¬ v.Mentions node := by
  rintro (_ | _ | _ | _ | _) <;> exact h

namespace Node

/-- The node was made. -/
def Exists (h : Heap) : Node → Prop
  | frame f => f < h.frames.size
  | .instance o => o < h.fields.size

/-- The node holds the same in both heaps: a frame its bindings and its link, an instance its
fields. -/
def SameIn (h h' : Heap) : Node → Prop
  | frame f => h'.frames[f]? = h.frames[f]?
  | .instance o => h'.fields[o]? = h.fields[o]?

theorem SameIn.trans {h h' h'' : Heap} {node : Node} (e : node.SameIn h h')
    (e' : node.SameIn h' h'') : node.SameIn h h'' := by
  cases node <;> exact Eq.trans e' e

theorem SameIn.exists {h h' : Heap} {node : Node} (e : node.SameIn h h') (made : node.Exists h) :
    node.Exists h' := by
  cases node with
  | frame f => exact (Array.getElem?_eq_some_iff.mp (Eq.trans e (Array.getElem?_eq_getElem made))).1
  | «instance» o =>
    exact (Array.getElem?_eq_some_iff.mp (Eq.trans e (Array.getElem?_eq_getElem made))).1

end Node

namespace Heap

/-- The first node points to the second. -/
inductive Points (h : Heap) : Node → Node → Prop
  | link {f g : FrameId} (e : h.enclosing? f = some g) : Points h (.frame f) (.frame g)
  | binding {f : FrameId} {n : String} {v : Value} {node : Node} (e : h.lookup? f n = some v)
    (inside : v.Mentions node) : Points h (.frame f) node
  | field {o : InstanceId} {n : String} {v : Value} {node : Node} (e : h.field? o n = some v)
    (inside : v.Mentions node) : Points h (.instance o) node

/-- The first node leads to the second. -/
abbrev Reaches (h : Heap) : Node → Node → Prop :=
  Relation.ReflTransGen h.Points

theorem Points.exists {h : Heap} {a b : Node} (e : h.Points a b) : a.Exists h := by
  cases e with
  | link e | binding e =>
    obtain ⟨frame, e, -⟩ := Option.bind_eq_some_iff.mp e
    exact (Array.getElem?_eq_some_iff.mp e).1
  | field e =>
    obtain ⟨fields, e, -⟩ := Option.bind_eq_some_iff.mp e
    exact (Array.getElem?_eq_some_iff.mp e).1

/-- What is reached from inside a set that is closed under pointing is inside it. -/
theorem Reaches.mem {h : Heap} {S : Node → Prop} (closed : ∀ a b, S a → h.Points a b → S b)
    {a b : Node} (path : h.Reaches a b) (inside : S a) : S b := by
  induction path with
  | refl => exact inside
  | tail _ points ih => exact closed _ _ ih points

/-! ## Operations -/

variable {h : Heap} {f : FrameId} {n : String} {v : Value} {outer : FrameId}

theorem points_define {a b : Node} (e : (h.define f n v).Points a b) :
    h.Points a b ∨ a = .frame f ∧ v.Mentions b := by
  cases e with
  | link e => exact .inl (.link ((enclosing?_define ..).symm.trans e))
  | binding e inside =>
    rw [lookup?_define] at e
    split at e
    · rename_i here
      cases e
      exact .inr ⟨congrArg Node.frame here.1, inside⟩
    · exact .inl (.binding e inside)
  | field e inside => exact .inl (.field e inside)

theorem points_declare {a b : Node} (e : (h.declare f n).Points a b) : h.Points a b := by
  cases e with
  | link e => exact .link ((enclosing?_declare ..).symm.trans e)
  | @binding g other _ _ e inside =>
    rw [lookup?_declare] at e
    split at e
    · rename_i here
      obtain ⟨rfl, -, rfl⟩ := here
      cases before : h.lookup? g other with
      | none =>
        rw [before] at e
        cases e
        cases inside
      | some w =>
        rw [before] at e
        cases e
        exact .binding before inside
    · exact .binding e inside
  | field e inside => exact .field e inside

theorem points_push {a b : Node} (e : (h.push (some outer)).Points a b) :
    h.Points a b ∨ a = .frame h.frames.size ∧ b = .frame outer := by
  cases e with
  | link e =>
    rw [enclosing?_push] at e
    split at e
    · rename_i here
      cases e
      exact .inr ⟨congrArg Node.frame here, rfl⟩
    · exact .inl (.link e)
  | binding e inside => exact .inl (.binding ((lookup?_push ..).symm.trans e) inside)
  | field e inside => exact .inl (.field e inside)

theorem points_pushInstance {a b : Node} (e : h.pushInstance.Points a b) : h.Points a b := by
  cases e with
  | link e => exact .link e
  | binding e inside => exact .binding e inside
  | field e inside => exact .field ((field?_pushInstance ..).symm.trans e) inside

theorem points_setField {o : InstanceId} {a b : Node} (e : (h.setField o n v).Points a b) :
    h.Points a b ∨ a = .instance o ∧ v.Mentions b := by
  cases e with
  | link e => exact .inl (.link e)
  | binding e inside => exact .inl (.binding e inside)
  | field e inside =>
    rw [field?_setField] at e
    split at e
    · rename_i here
      cases e
      exact .inr ⟨congrArg Node.instance here.1, inside⟩
    · exact .inl (.field e inside)

theorem sameIn_define {node : Node} (apart : node ≠ .frame f) :
    node.SameIn h (h.define f n v) := by
  cases node with
  | frame g =>
    have : f ≠ g := fun e => apart (congrArg Node.frame e.symm)
    simp only [Node.SameIn, define, Array.getElem?_modify, if_neg this]
  | «instance» o => rfl

theorem sameIn_declare {node : Node} (apart : node ≠ .frame f) :
    node.SameIn h (h.declare f n) := by
  cases node with
  | frame g =>
    have : f ≠ g := fun e => apart (congrArg Node.frame e.symm)
    simp only [Node.SameIn, declare, Array.getElem?_modify, if_neg this]
  | «instance» o => rfl

theorem sameIn_push {node : Node} (made : node.Exists h) : node.SameIn h (h.push (some outer)) := by
  cases node with
  | frame g =>
    have : g ≠ h.frames.size := Nat.ne_of_lt made
    simp only [Node.SameIn, push, Array.getElem?_push, if_neg this]
  | «instance» o => rfl

theorem sameIn_pushInstance {node : Node} (made : node.Exists h) :
    node.SameIn h h.pushInstance := by
  cases node with
  | frame g => rfl
  | «instance» o =>
    have : o ≠ h.fields.size := Nat.ne_of_lt made
    simp only [Node.SameIn, pushInstance, Array.getElem?_push, if_neg this]

theorem sameIn_setField {o : InstanceId} {node : Node} (apart : node ≠ .instance o) :
    node.SameIn h (h.setField o n v) := by
  cases node with
  | frame g => rfl
  | «instance» p =>
    have : o ≠ p := fun e => apart (congrArg Node.instance e.symm)
    simp only [Node.SameIn, setField, Array.getElem?_modify, if_neg this]

end Heap

end Lox
