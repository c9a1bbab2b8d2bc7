import Lox.Proofs.Heap.Chains
import Lox.Proofs.Heap.Pointwise
import Lox.Proofs.Eval.Similar
import Lox.Proofs.Syntax.Relabel

/-!
# Machines with other labels

Two machines are compared that run the same code with different labels. Not all code need have got
its labels in the same way: each function on one machine is a function on the other with other
labels, and what the one machine knows about the nodes of this function the other knows by their
other numbers (`Comparison.Fits`). All else is the same (`Machine.Relabelled`). What is stored on
the heap keeps it so.
-/

namespace Lox

/-- How two machines are compared. -/
structure Comparison where
  /-- The ways in which the labels of code may differ. -/
  relabels : Relabelling → Prop
  /-- The distances that the first machine knows. -/
  distances : Distances
  /-- The distances that the second machine knows. -/
  distances' : Distances
  /-- May the second machine have more fuel? -/
  moreFuel : Prop

namespace Comparison

/-- The code on both machines has the same labels. -/
def same (distances distances' : Distances) (moreFuel : Prop) : Comparison :=
  ⟨(· = .same), distances, distances', moreFuel⟩

/-- Code with these nodes may be labelled otherwise by `R`: its nodes have the distances that they
had. -/
structure Fits (C : Comparison) (R : Relabelling) (ids : List ExprId) : Prop where
  relabels : C.relabels R
  kept : ∀ id ∈ ids, C.distances'[R.id id]? = C.distances[id]?

/-- The second machine may have the fuel `n'` where the first has the fuel `n`. -/
def Fuels (C : Comparison) (n n' : Nat) : Prop :=
  n' = n ∨ C.moreFuel ∧ n ≤ n'

namespace Fits

variable {C : Comparison} {R : Relabelling} {ids ids' : List ExprId}

theorem append (h : C.Fits R (ids ++ ids')) : C.Fits R ids ∧ C.Fits R ids' :=
  ⟨⟨h.relabels, (List.forall_mem_append.mp h.kept).1⟩,
    ⟨h.relabels, (List.forall_mem_append.mp h.kept).2⟩⟩

theorem head {id : ExprId} (h : C.Fits R (id :: ids)) :
    C.distances'[R.id id]? = C.distances[id]? :=
  h.kept id List.mem_cons_self

end Fits

/-- Less fuel on the first machine is less fuel on the second. -/
theorem Fuels.pred {C : Comparison} {n n' : Nat} (h : C.Fuels (n + 1) n') :
    ∃ m, n' = m + 1 ∧ C.Fuels n m := by
  obtain rfl | ⟨more, le⟩ := h
  · exact ⟨n, rfl, .inl rfl⟩
  · exact ⟨n' - 1, by omega, .inr ⟨more, by omega⟩⟩

end Comparison

section
variable (C : Comparison)

/-- The functions differ in the labels of their code. -/
inductive Function.Relabelled : Function → Function → Prop
  | intro {R : Relabelling} (f : Function) (fits : C.Fits R f.decl.ids) :
    Function.Relabelled f { f with decl := f.decl.relabel R }

/-- The methods of the classes differ in the labels of their code. -/
structure Class.Relabelled (c c' : Class) : Prop where
  identity : c'.identity = c.identity
  name : c'.name = c.name
  methods : ∀ name, Option.Rel (Function.Relabelled C) (c.method? name) (c'.method? name)

/-- The instances are of classes that differ in their labels. -/
structure Instance.Relabelled (o o' : Instance) : Prop where
  identity : o'.identity = o.identity
  ofClass : o.ofClass.Relabelled C o'.ofClass

/-- The values differ in the labels of their code. -/
inductive Value.Relabelled : Value → Value → Prop
  | plain {v : Value} (h : v.IsPlain) : Value.Relabelled v v
  | function {f f' : Function} (h : f.Relabelled C f') :
    Value.Relabelled (.function f) (.function f')
  | class {c c' : Class} (h : c.Relabelled C c') : Value.Relabelled (.class c) (.class c')
  | instance {o o' : Instance} (h : o.Relabelled C o') :
    Value.Relabelled (.instance o) (.instance o')

/-- The heaps hold values that differ in their labels. -/
structure Heap.Relabelled (h h' : Heap) : Prop where
  size : h'.frames.size = h.frames.size
  link : ∀ f, h'.enclosing? f = h.enclosing? f
  bindings : ∀ f name, Option.Rel (Value.Relabelled C) (h.lookup? f name) (h'.lookup? f name)
  instances : h'.fields.size = h.fields.size
  fields : ∀ o name, Option.Rel (Value.Relabelled C) (h.field? o name) (h'.field? o name)

/-- The machines hold values that differ in their labels, and know the distances that they are
compared by. -/
inductive Machine.Relabelled (m : Machine) : Machine → Prop
  | intro {h' : Heap} (heap : m.heap.Relabelled C h') (distances : m.distances = C.distances) :
    Machine.Relabelled m { m with heap := h', distances := C.distances' }

/-- The failures are the same, but a runtime error may be blamed on another line. -/
inductive Failure.Relabelled : Failure → Failure → Prop
  | runtime {R : Relabelling} (relabels : C.relabels R) (e : RuntimeError) :
    Failure.Relabelled (.runtime e) (.runtime { e with line := R.line e.line })
  | io (e : IoError) : Failure.Relabelled (.io e) (.io e)

end

/-! ## Code -/

section
variable (R : Relabelling)

theorem FunctionDecl.name_relabel (decl : FunctionDecl) :
    (decl.relabel R).name = decl.name.relabel R := by
  cases decl
  rfl

theorem FunctionDecl.params_relabel (decl : FunctionDecl) :
    (decl.relabel R).params = decl.params.map (Lexeme.relabel R) := by
  cases decl
  rfl

theorem FunctionDecl.body_relabel (decl : FunctionDecl) :
    (decl.relabel R).body = Stmt.relabelList R decl.body := by
  cases decl
  rfl

theorem FunctionDecl.ids_eq (decl : FunctionDecl) : decl.ids = Stmt.idsList decl.body := by
  cases decl
  rfl

end

section
variable {C : Comparison}

theorem Function.Relabelled.arity_eq {f f' : Function} (h : f.Relabelled C f') :
    f'.arity = f.arity := by
  obtain ⟨f, fits⟩ := h
  rw [arity, FunctionDecl.params_relabel, List.length_map, arity]

theorem Class.Relabelled.arity_eq {c c' : Class} (h : c.Relabelled C c') : c'.arity = c.arity := by
  have initializer : Option.Rel (Function.Relabelled C) c.initializer? c'.initializer? :=
    h.methods initializerName
  unfold arity
  generalize c.initializer? = f at initializer
  generalize c'.initializer? = f' at initializer
  cases initializer with
  | none => rfl
  | some h => exact h.arity_eq

/-! ## Values -/

theorem Value.Relabelled.similar {v v' : Value} (h : v.Relabelled C v') : v.Similar v' := by
  cases h with
  | plain h => exact .plain h
  | function h =>
    obtain ⟨f, -⟩ := h
    refine .function rfl ?_
    dsimp only
    rw [FunctionDecl.name_relabel, Lexeme.text_relabel]
  | «class» h => exact .class h.identity h.name
  | «instance» h => exact .instance h.identity h.ofClass.name

/-! ## Heaps -/

namespace Heap.Relabelled

variable {h h' : Heap} {v v' : Value}

theorem getAt (hh : h.Relabelled C h') (f : FrameId) (distance : Nat) (name : String) :
    (h.getAt f distance name).Relabelled C (h'.getAt f distance name) := by
  unfold Heap.getAt
  rw [Heap.ancestor_congr hh.link]
  exact (hh.bindings _ name).getD (.plain trivial)

theorem holder?_eq (hh : h.Relabelled C h') (f : FrameId) (name : String) :
    h'.holder? f name = h.holder? f name :=
  Heap.holder?_congr hh.link (fun f => (hh.bindings f name).isSome_eq) f

theorem get? (hh : h.Relabelled C h') (f : FrameId) (name : String) :
    Option.Rel (Value.Relabelled C) (h.get? f name) (h'.get? f name) := by
  unfold Heap.get?
  rw [hh.holder?_eq]
  cases h.holder? f name with
  | none => exact .none
  | some holder => exact hh.bindings holder name

theorem bind (hh : h.Relabelled C h') (hv : v.Relabelled C v') {f : FrameId} {name : String}
    {H H' : Heap} (b : h.Binds f name v H) (b' : h'.Binds f name v' H') : H.Relabelled C H' where
  size := by rw [b.size, b'.size, hh.size]
  link g := by rw [b.link, b'.link, hh.link]
  bindings g other := by
    rw [b.lookup, b'.lookup, hh.size]
    split
    · exact .some hv
    · exact hh.bindings g other
  instances := by rw [b.fields, b'.fields, hh.instances]
  fields o other := by
    unfold Heap.field?
    rw [b.fields, b'.fields]
    exact hh.fields o other

theorem define (hh : h.Relabelled C h') (hv : v.Relabelled C v') (f : FrameId) (name : String) :
    (h.define f name v).Relabelled C (h'.define f name v') :=
  hh.bind hv (Heap.binds_define ..) (Heap.binds_define ..)

theorem declare (hh : h.Relabelled C h') (f : FrameId) (name : String) :
    (h.declare f name).Relabelled C (h'.declare f name) :=
  hh.bind ((hh.bindings f name).getD (.plain (v := .nil) trivial)) (Heap.binds_declare ..)
    (Heap.binds_declare ..)

theorem push (hh : h.Relabelled C h') (outer : Option FrameId) :
    (h.push outer).Relabelled C (h'.push outer) where
  size := by rw [Heap.size_push, Heap.size_push, hh.size]
  link g := by rw [Heap.enclosing?_push, Heap.enclosing?_push, hh.size, hh.link]
  bindings g other := by
    rw [Heap.lookup?_push, Heap.lookup?_push]
    exact hh.bindings g other
  instances := hh.instances
  fields := hh.fields

theorem pushInstance (hh : h.Relabelled C h') : h.pushInstance.Relabelled C h'.pushInstance where
  size := hh.size
  link := hh.link
  bindings := hh.bindings
  instances := by simp [Heap.pushInstance, hh.instances]
  fields o other := by
    rw [Heap.field?_pushInstance, Heap.field?_pushInstance]
    exact hh.fields o other

theorem setField (hh : h.Relabelled C h') (hv : v.Relabelled C v') (o : InstanceId)
    (name : String) : (h.setField o name v).Relabelled C (h'.setField o name v') where
  size := hh.size
  link := hh.link
  bindings := hh.bindings
  instances := by simp [Heap.setField, hh.instances]
  fields p other := by
    rw [Heap.field?_setField, Heap.field?_setField, hh.instances]
    split
    · exact .some hv
    · exact hh.fields p other

end Heap.Relabelled

/-! ## Machines -/

theorem Machine.Relabelled.inFrame {m m' : Machine} (h : m.Relabelled C m') (frame : FrameId) :
    ({ m with current := frame } : Machine).Relabelled C { m' with current := frame } := by
  obtain ⟨heap, distances⟩ := h
  exact .intro heap distances

theorem Machine.Relabelled.field {m m' : Machine} (h : m.Relabelled C m') (o : InstanceId)
    (name : String) :
    Option.Rel (Value.Relabelled C) (m.heap.field? o name) (m'.heap.field? o name) := by
  obtain ⟨heap, -⟩ := h
  exact heap.fields o name

theorem Machine.Relabelled.distances_eq {m m' : Machine} (h : m.Relabelled C m') :
    m.distances = C.distances ∧ m'.distances = C.distances' := by
  obtain ⟨-, distances⟩ := h
  exact ⟨distances, rfl⟩

theorem Machine.Relabelled.printed_eq {m m' : Machine} (h : m.Relabelled C m') :
    m'.printed = m.printed := by
  obtain ⟨-, -⟩ := h
  rfl

/-- New machines have nothing with labels. -/
theorem Machine.Relabelled.start (C : Comparison) (host : Host) :
    ({ Machine.start host with distances := C.distances } : Machine).Relabelled C
      { Machine.start host with distances := C.distances' } := by
  have heap : (Machine.start host).heap.Relabelled C (Machine.start host).heap :=
    { size := rfl
      link := fun _ => rfl
      bindings := fun f name => by
        cases e : (Machine.start host).heap.lookup? f name with
        | none => exact .none
        | some v => exact .some (.plain (Machine.isPlain_of_start e))
      instances := rfl
      fields := fun _ _ => .none }
  exact .intro heap rfl

end

end Lox
