import Mathlib
import Lox.Proofs.Heap.Walks
import Lox.Proofs.Eval.Ready
import Lox.Proofs.Eval.Discipline.Tasks

/-!
# Where functions come from

In a run, a method is made where the class is declared that it is a method of (`DeclaresMethod`),
and it is bound to an instance where a property is got, where `super` is, and where an instance is
made (`BindsMethod`). Every function that is called was declared as a function, or is a method that
was bound (`Reached.called_cases`): methods that are not bound are in the tables of classes only.
This is a discipline that allows the points of the run (`traced`).
-/

namespace Lox

section
variable (p : Checked) (host : Host) (fuel : Nat)

/-- In the run of `p` a class declaration is executed, whose superclass, if it names one, is then
the class `superclass`, and which makes the method `f`. -/
inductive DeclaresMethod : Option Class → Function → Prop
  | intro {x : Point} {superclass : Option Class} {table : Std.TreeMap String Function} {n : String}
    {f : Function} (reached : Reached p host fuel x) (declares : x.DeclaresMethods superclass table)
    (own : table[n]? = some f) : DeclaresMethod superclass f

/-- In the run of `p` the method `f` is bound to the instance `o`, which makes a new function. -/
inductive BindsMethod (f : Function) (o : Instance) : Function → Prop
  | intro {x : Point} {m : Machine} (reached : Reached p host fuel x)
    (binds : x.BindsMethod f o m) : BindsMethod f o (f.boundBy m)

/-- The methods of the class and of those above it were declared. -/
def Class.Traced (c : Class) : Prop :=
  ∀ d ∈ c.lineage, ∀ (n : String) (f : Function), d.methods[n]? = some f →
    ∃ superclass, DeclaresMethod p host fuel superclass f

/-- The functions in the value come from where functions are made: one that may be called was
declared as a function, or is a method that was declared and bound. -/
def Value.Traced : Value → Prop
  | .function f => (∃ x, Reached p host fuel x ∧ x.DeclaresFunction f) ∨
    ∃ superclass g o, DeclaresMethod p host fuel superclass g ∧ BindsMethod p host fuel g o f
  | .class c => c.Traced p host fuel
  | .instance o => o.ofClass.Traced p host fuel
  | _ => True

end

section
variable {p : Checked} {host : Host} {fuel : Nat}

theorem Value.IsPlain.traced {v : Value} (plain : v.IsPlain) : v.Traced p host fuel := by
  cases v <;> trivial

theorem Class.Traced.superclass {c s : Class} (h : c.Traced p host fuel)
    (e : c.superclass = some s) : s.Traced p host fuel := by
  obtain ⟨identity, name, superclass, methods⟩ := c
  cases e
  refine fun d inside => h d ?_
  rw [Class.lineage]
  exact List.mem_cons_of_mem _ inside

/-- The method that is found in a class was declared. -/
theorem Class.Traced.method {c : Class} (h : c.Traced p host fuel) {n : String} {f : Function}
    (found : c.method? n = some f) : ∃ superclass, DeclaresMethod p host fuel superclass f := by
  rw [c.method?_eq] at found
  obtain ⟨d, inside, own⟩ := List.exists_of_findSome?_eq_some found
  exact h d inside n f own

/-- A method that is bound was declared. -/
theorem Point.BindsMethod.declared {x : Point} {f : Function} {o : Instance} {m : Machine}
    (binds : x.BindsMethod f o m) (within : m.heap.Within (Value.Traced p host fuel))
    (ho : o.ofClass.Traced p host fuel) :
    ∃ superclass, DeclaresMethod p host fuel superclass f := by
  cases binds with
  | property _ _ found => exact ho.method found
  | @super _ _ _ _ _ distance _ _ _ _ superclass _ found =>
    have traced := within.getAt trivial m.current (distance + 1) "super"
    rw [superclass] at traced
    exact Class.Traced.method traced found
  | initializer found made =>
    cases made
    exact ho.method found

end

/-- Only values whose functions come from the run of `p` are used. -/
def traced (p : Checked) (host : Host) (fuel : Nat) : Discipline Unit where
  fits _ m := m.heap.Within (Value.Traced p host fuel)
  frame _ _ := True
  function _ _ := True
  value _ v := v.Traced p host fuel
  name _ := True
  visits := Reached p host fuel
  fits_congr w e _ _ := e ▸ w
  calls reached calls := reached.calls calls
  frame_mono _ := id
  function_mono _ := id
  value_mono _ := id
  plain := Value.IsPlain.traced
  closure _ := trivial
  code _ _ _ := trivial
  called _ := trivial
  ownMethod _ _ := trivial
  superclass h e := Class.Traced.superclass h e
  ofClass h := h
  globals _ := trivial
  link _ _ _ := trivial
  binding w _ e := w.binding _ _ _ e
  field w _ e := w.field _ _ _ e
  defined {_ m f n v} w _ _ hv := ⟨(), le_refl _, w.binds (Heap.binds_define m.heap f n v) hv⟩
  declared w _ _ := ⟨(), le_refl _, w.declare trivial _ _⟩
  fieldSet w _ hv := ⟨(), le_refl _, w.setField _ _ hv⟩
  frameMade w _ := ⟨(), le_refl _, w.push _, trivial⟩
  superFrameMade w _ hc := ⟨(), le_refl _, (w.push _).binds (Heap.binds_define ..) hc, trivial⟩
  methodBound reached binds w _ ho := by
    obtain ⟨superclass, declares⟩ := binds.declared w ho
    exact ⟨(), le_refl _, (w.push _).binds (Heap.binds_define ..) ho,
      .inr ⟨superclass, _, _, declares, .intro reached binds⟩⟩
  instanceMade w hc := ⟨(), le_refl _, w.pushInstance, hc⟩
  functionMade w _ _ := ⟨(), le_refl _, w, trivial⟩
  functionDeclared reached declares _ := .inl ⟨_, reached, declares⟩
  classMade {_ _ _ _ superclass _} reached declares w hs _ := by
    refine ⟨(), le_refl _, w, fun d inside n f own => ?_⟩
    unfold Class.lineage at inside
    rcases List.mem_cons.mp inside with rfl | above
    · exact ⟨superclass, .intro reached declares own⟩
    · cases superclass with
      | none => cases above
      | some s => exact hs s rfl d above n f own

/-- A function that is called was declared as a function, or is a method that was declared and
bound. -/
theorem Reached.called_cases {p : Checked} {host : Host} {fuel n : Nat} {f : Function}
    {vs : List Value} {m : Machine} (reached : Reached p host fuel ⟨n, .call f vs, m⟩) :
    (∃ x, Reached p host fuel x ∧ x.DeclaresFunction f) ∨ ∃ superclass g o,
      DeclaresMethod p host fuel superclass g ∧ BindsMethod p host fuel g o f := by
  have start : (traced p host fuel).Ready () (Machine.start host) := ⟨.start host trivial, trivial⟩
  obtain ⟨_, -, -, covers, -⟩ := Discipline.leads_program (D := traced p host fuel) fuel p.distances
    (fun y ⟨s, m, starts, e⟩ => ⟨s, m, starts, e ▸ .refl⟩) (fun _ _ => trivial) start
  obtain ⟨s, m₀, starts, path⟩ := reached
  obtain ⟨_, _, -, -, -, -, admitted, -⟩ := covers _ ⟨s, m₀, starts, rfl⟩ _ path
  exact admitted.1

end Lox
