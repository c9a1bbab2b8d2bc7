import Mathlib.Order.Defs.PartialOrder
import Lox.Proofs.Syntax.Written
import Lox.Proofs.Eval.CurrentFrame

/-!
# Disciplines

A discipline says, at each stage of what is known about a heap, which machines fit, and which
frames, functions and values a computation may use (`Discipline`). What it asks for concerns the
operations of the machine, one at a time: reading gives values that may be used, and writing and
making lead to a machine that fits at a later stage. The functions in the table of a class are not
yet values; they become values when they are bound, and so a discipline can tell them apart. Where
something is made may depend on which points a run visits. A computation leads on if it comes to a
machine that fits however it ends (`Discipline.Leads`), and a point lies between two stages if all
points that it comes to start and end there (`Discipline.Covers`).
-/

namespace Lox

/-- What may be used, and what it leads to, at each of the stages `R`. -/
structure Discipline (R : Type) [Preorder R] where
  /-- The heap, the globals and the identities of the machine are as the stage says. -/
  fits : R → Machine → Prop
  /-- The frame may be used. -/
  frame : R → FrameId → Prop
  /-- The function may be bound or called. -/
  function : R → Function → Prop
  /-- The value may be used. -/
  value : R → Value → Prop
  /-- The name may be bound. -/
  name : String → Prop
  /-- The point may be performed. -/
  visits : Point → Prop
  fits_congr {r : R} {m m' : Machine} : fits r m → m'.heap = m.heap → m'.globals = m.globals →
    m'.nextIdentity = m.nextIdentity → fits r m'
  calls {x y : Point} : visits x → x.Calls y → visits y
  frame_mono {r r' : R} {f : FrameId} : r ≤ r' → frame r f → frame r' f
  function_mono {r r' : R} {f : Function} : r ≤ r' → function r f → function r' f
  value_mono {r r' : R} {v : Value} : r ≤ r' → value r v → value r' v
  plain {r : R} {v : Value} : v.IsPlain → value r v
  closure {r : R} {f : Function} : function r f → frame r f.closure
  code {r : R} {f : Function} : function r f → ∀ n ∈ f.decl.written, name n
  called {r : R} {f : Function} : value r (.function f) → function r f
  ownMethod {r : R} {c : Class} {n : String} {f : Function} : value r (.class c) →
    c.methods[n]? = some f → function r f
  superclass {r : R} {c s : Class} : value r (.class c) → c.superclass = some s →
    value r (.class s)
  ofClass {r : R} {o : Instance} : value r (.instance o) → value r (.class o.ofClass)
  globals {r : R} {m : Machine} : fits r m → frame r m.globals
  link {r : R} {m : Machine} {f g : FrameId} : fits r m → frame r f →
    m.heap.enclosing? f = some g → frame r g
  binding {r : R} {m : Machine} {f : FrameId} {n : String} {v : Value} : fits r m → frame r f →
    m.heap.lookup? f n = some v → value r v
  field {r : R} {m : Machine} {o : Instance} {n : String} {v : Value} : fits r m →
    value r (.instance o) → m.heap.field? o.identity n = some v → value r v
  defined {r : R} {m : Machine} {f : FrameId} {n : String} {v : Value} : fits r m → frame r f →
    name n → value r v → ∃ r', r ≤ r' ∧ fits r' { m with heap := m.heap.define f n v }
  declared {r : R} {m : Machine} {f : FrameId} {n : String} : fits r m → frame r f → name n →
    ∃ r', r ≤ r' ∧ fits r' { m with heap := m.heap.declare f n }
  fieldSet {r : R} {m : Machine} {o : Instance} {n : String} {v : Value} : fits r m →
    value r (.instance o) → value r v →
    ∃ r', r ≤ r' ∧ fits r' { m with heap := m.heap.setField o.identity n v }
  frameMade {r : R} {m : Machine} {outer : FrameId} : fits r m → frame r outer →
    ∃ r', r ≤ r' ∧ fits r' { m with heap := m.heap.push (some outer) } ∧
      frame r' m.heap.frames.size
  superFrameMade {r : R} {m : Machine} {outer : FrameId} {c : Class} : fits r m → frame r outer →
    value r (.class c) → ∃ r', r ≤ r' ∧
      fits r' { m with
        heap := (m.heap.push (some outer)).define m.heap.frames.size "super" (.class c) } ∧
      frame r' m.heap.frames.size
  methodBound {r : R} {x : Point} {m : Machine} {f : Function} {o : Instance} : visits x →
    x.BindsMethod f o m → fits r m → function r f → value r (.instance o) →
    ∃ r', r ≤ r' ∧ fits r' (m.afterBinding f o) ∧ value r' (.function (f.boundBy m))
  instanceMade {r : R} {m : Machine} {c : Class} : fits r m → value r (.class c) →
    ∃ r', r ≤ r' ∧ fits r' { m with heap := m.heap.pushInstance } ∧
      value r' (.instance ⟨m.heap.fields.size, c⟩)
  functionMade {r : R} {m : Machine} {decl : FunctionDecl} {closure : FrameId} {b : Bool} :
    fits r m → frame r closure → (∀ n ∈ decl.written, name n) →
    ∃ r', r ≤ r' ∧ fits r' { m with nextIdentity := m.nextIdentity + 1 } ∧
      function r' ⟨m.nextIdentity, decl, closure, b⟩
  functionDeclared {r : R} {x : Point} {f : Function} : visits x → x.DeclaresFunction f →
    function r f → value r (.function f)
  classMade {r : R} {x : Point} {m : Machine} {n : String} {superclass : Option Class}
    {methods : Std.TreeMap String Function} : visits x → x.DeclaresMethods superclass methods →
    fits r m → (∀ c ∈ superclass, value r (.class c)) →
    (∀ (n : String) (f : Function), methods[n]? = some f → function r f) →
    ∃ r', r ≤ r' ∧ fits r' { m with nextIdentity := m.nextIdentity + 1 } ∧
      value r' (.class ⟨m.nextIdentity, n, superclass, methods⟩)

namespace Discipline

open Eval

variable {R : Type} [Preorder R] {α β : Type}

/-- The machine fits, and its current frame may be used. -/
structure Ready (D : Discipline R) (r : R) (m : Machine) : Prop where
  fits : D.fits r m
  current : D.frame r m.current

/-- The values of the task may be used, and its code binds only names that may be bound. -/
def admits (D : Discipline R) (r : R) : Task → Prop
  | .expr e => ∀ n ∈ e.written, D.name n
  | .exprs es => ∀ n ∈ Expr.writtenList es, D.name n
  | .apply f _ vs => D.value r f ∧ ∀ v ∈ vs, D.value r v
  | .call f vs => D.value r (.function f) ∧ ∀ v ∈ vs, D.value r v
  | .make c vs => D.value r (.class c) ∧ ∀ v ∈ vs, D.value r v
  | .stmt s => ∀ n ∈ s.written, D.name n
  | .stmts ss => ∀ n ∈ Stmt.writtenList ss, D.name n
  | .loop condition body => (∀ n ∈ condition.written, D.name n) ∧ ∀ n ∈ body.written, D.name n

/-- The value that a statement returns, if it returns, may be used. -/
def flow (D : Discipline R) (r : R) : Flow → Prop
  | .normal => True
  | .returned v => D.value r v

/-- The answer of the task may be used. -/
def gives (D : Discipline R) (r : R) : (t : Task) → t.Answer → Prop
  | .expr _, v | .apply .., v | .call .., v | .make .., v => D.value r v
  | .exprs _, vs => ∀ v ∈ vs, D.value r v
  | .stmt _, flow | .stmts _, flow | .loop .., flow => D.flow r flow

theorem admits_of_values {D : Discipline R} {r : R} {t : Task} (all : ∀ n, D.name n)
    (values : ∀ v ∈ t.values, D.value r v) : D.admits r t := by
  cases t with
  | apply _ _ _ | call _ _ | make _ _ => exact List.forall_mem_cons.mp values
  | loop _ _ => exact ⟨fun n _ => all n, fun n _ => all n⟩
  | expr _ | exprs _ | stmt _ | stmts _ => exact fun n _ => all n

theorem value_of_admits {D : Discipline R} {r : R} {t : Task} (h : D.admits r t) :
    ∀ v ∈ t.values, D.value r v := by
  cases t with
  | apply _ _ _ | call _ _ | make _ _ => exact List.forall_mem_cons.mpr h
  | expr _ | exprs _ | stmt _ | stmts _ | loop _ _ => exact nofun

theorem value_of_gives {D : Discipline R} {r : R} {t : Task} {a : t.Answer} (h : D.gives r t a) :
    ∀ v ∈ t.given a, D.value r v := by
  cases t with
  | expr _ | apply _ _ _ | call _ _ | make _ _ => exact List.forall_mem_singleton.mpr h
  | exprs _ => exact h
  | stmt _ | stmts _ | loop _ _ =>
    cases a with
    | normal => exact nofun
    | returned v => exact List.forall_mem_singleton.mpr h

/-- Every point that `x` comes to starts and ends between the stages. -/
def Covers (D : Discipline R) (r : R) (x : Point) (r' : R) : Prop :=
  ∀ y, x.Reaches y → ∃ r₁ r₂, r ≤ r₁ ∧ r₁ ≤ r₂ ∧ r₂ ≤ r' ∧ D.Ready r₁ y.machine ∧
    D.admits r₁ y.task ∧ D.Ready r₂ (machineOf (y.task.run y.fuel y.machine)) ∧
    ∀ a m', y.task.run y.fuel y.machine = .ok a m' → D.gives r₂ y.task a

/-- From a machine that is ready at the stage `r`, however the computation ends, it leads to one
that is ready at a later stage; the points in `Z` lie between the stages, and `P` is true of what it
gives. -/
def Leads (D : Discipline R) (r : R) (m : Machine) (x : Eval α) (Z : Point → Prop)
    (P : R → α → Prop) : Prop :=
  D.Ready r m → ∃ r', r ≤ r' ∧ D.Ready r' (machineOf (x m)) ∧ (∀ y, Z y → D.Covers r y r') ∧
    ∀ a m', x m = .ok a m' → P r' a

/-- No points. -/
abbrev Nowhere : Point → Prop :=
  fun _ => False

section
variable {D : Discipline R} {r r' : R} {m : Machine}

theorem Ready.next (h : D.Ready r m) {m' : Machine} (le : r ≤ r') (fits : D.fits r' m')
    (current : m'.current = m.current) : D.Ready r' m' :=
  ⟨fits, current ▸ D.frame_mono le h.current⟩

theorem Covers.mono {x : Point} {r₀ r₁ : R} (h : D.Covers r x r') (le : r₀ ≤ r) (le' : r' ≤ r₁) :
    D.Covers r₀ x r₁ := by
  intro y path
  obtain ⟨s, s', a, b, c, rest⟩ := h y path
  exact ⟨s, s', le_trans le a, b, le_trans c le', rest⟩

theorem function_method (D : Discipline R) {n : String} {f : Function} :
    (c : Class) → D.value r (.class c) → c.method? n = some f → D.function r f
  | ⟨identity, name, superclass, methods⟩, h, e => by
    unfold Class.method? at e
    split at e
    · cases e
      exact D.ownMethod h ‹_›
    · cases superclass with
      | none => cases e
      | some s => exact function_method D s (D.superclass h rfl) e

theorem frame_ancestor (D : Discipline R) (fits : D.fits r m) {f : FrameId} (distance : Nat)
    (h : D.frame r f) : D.frame r (m.heap.ancestor f distance) := by
  induction distance generalizing f with
  | zero => exact h
  | succ distance ih =>
    rw [Heap.ancestor]
    split
    · rename_i outer link
      exact ih (D.link fits h link)
    · exact h

theorem value_getAt (D : Discipline R) (fits : D.fits r m) {f : FrameId} (distance : Nat)
    (name : String) (h : D.frame r f) : D.value r (m.heap.getAt f distance name) := by
  rw [Heap.getAt]
  cases bound : m.heap.lookup? (m.heap.ancestor f distance) name with
  | none => exact D.plain trivial
  | some v => exact D.binding fits (D.frame_ancestor fits distance h) bound

theorem frame_holder (D : Discipline R) (fits : D.fits r m) {f g : FrameId} {name : String}
    (h : D.frame r f) (e : m.heap.holder? f name = some g) : D.frame r g := by
  fun_induction m.heap.holder? f name with
  | case1 => cases e
  | case2 =>
    cases e
    exact h
  | case3 => cases e
  | case4 f frame there _ outer link _ ih =>
    refine ih (D.link fits h ?_) e
    rw [Heap.enclosing?, there]
    exact link
  | case5 => cases e

theorem value_get? (D : Discipline R) (fits : D.fits r m) {f : FrameId} {name : String} {v : Value}
    (h : D.frame r f) (e : m.heap.get? f name = some v) : D.value r v := by
  obtain ⟨holder, found, bound⟩ := Option.bind_eq_some_iff.mp e
  exact D.binding fits (D.frame_holder fits h found) bound

/-! ## Sequencing -/

theorem leads_pure {a : α} {P : R → α → Prop} (h : P r a) : D.Leads r m (pure a) Nowhere P := by
  refine fun ready => ⟨r, le_refl r, ready, nofun, fun b m' e => ?_⟩
  obtain ⟨rfl, rfl⟩ := pure_eq_ok.mp e
  exact h

theorem leads_throw {s : Stop} {P : R → α → Prop} : D.Leads r m (throw s) Nowhere P :=
  fun ready => ⟨r, le_refl r, ready, nofun, nofun⟩

theorem leads_fail {blamed : Lexeme} {cause : RuntimeCause} {P : R → α → Prop} :
    D.Leads r m (fail blamed cause) Nowhere P :=
  leads_throw

/-- Whether a computation leads on matters only where it can start. -/
theorem leads_of_ready {x : Eval α} {Z : Point → Prop} {P : R → α → Prop}
    (h : D.Ready r m → D.Leads r m x Z P) : D.Leads r m x Z P :=
  fun ready => h ready ready

/-- What is read first is given, and the machine is as it was. -/
theorem leads_read {x : Eval α} {f : α → Eval β} {a : α} {Z : Point → Prop} {P : R → β → Prop}
    (e : x m = .ok a m) (h : D.Leads r m (f a) Z P) : D.Leads r m (x >>= f) Z P := by
  unfold Leads
  rw [bind_of_ok e]
  exact h

/-- A step that comes to no points. -/
theorem leads_step {x : Eval α} {P : R → α → Prop} (keeps : Keeps x)
    (h : D.Ready r m → ∃ r', r ≤ r' ∧ D.fits r' (machineOf (x m)) ∧
      ∀ a m', x m = .ok a m' → P r' a) : D.Leads r m x Nowhere P := by
  intro ready
  obtain ⟨r', le, fits, holds⟩ := h ready
  exact ⟨r', le, ready.next le fits (keeps m).current, nofun, holds⟩

theorem leads_bind {x : Eval α} {f : α → Eval β} {Z : Point → Prop}
    {Y : α → Machine → Point → Prop} {P : R → α → Prop} {Q : R → β → Prop}
    (hx : D.Leads r m x Z P)
    (hf : ∀ r₁ a m₁, r ≤ r₁ → x m = .ok a m₁ → P r₁ a → D.Leads r₁ m₁ (f a) (Y a m₁) Q) :
    D.Leads r m (x >>= f) (fun y => Z y ∨ ∃ a m₁, x m = .ok a m₁ ∧ Y a m₁ y) Q := by
  intro ready
  obtain ⟨r₁, le, ready₁, covers, holds⟩ := hx ready
  cases e : x m with
  | error s m₁ =>
    rw [e] at ready₁
    rw [bind_of_error e]
    refine ⟨r₁, le, ready₁, fun y hy => ?_, nofun⟩
    rcases hy with hy | ⟨_, _, ⟨⟩, _⟩
    exact covers y hy
  | ok a m₁ =>
    rw [e] at ready₁
    rw [bind_of_ok e]
    obtain ⟨r₂, le', ready₂, covers', holds'⟩ := hf r₁ a m₁ le e (holds a m₁ e) ready₁
    refine ⟨r₂, le_trans le le', ready₂, fun y hy => ?_, holds'⟩
    rcases hy with hy | ⟨_, _, ⟨⟩, hy⟩
    · exact (covers y hy).mono (le_refl r) le'
    · exact (covers' y hy).mono le (le_refl r₂)

theorem leads_calls {x : Eval α} {Z Y : Point → Prop} {P : R → α → Prop} (h : D.Leads r m x Z P)
    (points : ∀ y, Y y → Z y) : D.Leads r m x Y P := by
  intro ready
  obtain ⟨r', le, ready', covers, holds⟩ := h ready
  exact ⟨r', le, ready', fun y hy => covers y (points y hy), holds⟩

/-- What a computation does before anything else, given by the machine that it leads to. -/
theorem leads_from {x y : Eval α} {Z : Point → Prop} {P : R → α → Prop} {r₁ : R} {m₁ : Machine}
    (le : r ≤ r₁) (fits : D.fits r₁ m₁) (current : m₁.current = m.current) (e : x m = y m₁)
    (h : D.Leads r₁ m₁ y Z P) : D.Leads r m x Z P := by
  intro ready
  obtain ⟨r', le', ready', covers, holds⟩ := h (ready.next le fits current)
  rw [e]
  exact ⟨r', le_trans le le', ready', fun y hy => (covers y hy).mono le (le_refl r'), holds⟩

/-- What follows the computation comes to no further points. -/
theorem leads_finish {x : Eval α} {f : α → Eval β} {Z : Point → Prop} {P : R → α → Prop}
    {Q : R → β → Prop} (hx : D.Leads r m x Z P)
    (hf : ∀ r₁ a m₁, r ≤ r₁ → x m = .ok a m₁ → P r₁ a → D.Leads r₁ m₁ (f a) Nowhere Q) :
    D.Leads r m (x >>= f) Z Q :=
  leads_calls (leads_bind hx hf) fun _ => .inl

/-- The body starts in the new frame, and what was the current frame may be used after it. -/
theorem leads_within {frame : FrameId} {body : Eval α} {Z : Point → Prop} {P : R → α → Prop}
    (h : D.Leads r { m with current := frame } body Z P) (inside : D.frame r frame) :
    D.Leads r m (within frame body) Z P := by
  intro ready
  obtain ⟨r', le, ready', covers, holds⟩ := h ⟨D.fits_congr ready.fits rfl rfl rfl, inside⟩
  refine ⟨r', le, ⟨?_, ?_⟩, covers, fun a m' e => ?_⟩
  · have fits := ready'.fits
    unfold within
    split <;> rename_i e <;> rw [e] at fits <;> exact D.fits_congr fits rfl rfl rfl
  · have back : (machineOf (within frame body m)).current = m.current := by
      unfold within
      split <;> rfl
    rw [back]
    exact D.frame_mono le ready.current
  · obtain ⟨m₁, e, -⟩ := within_eq_ok.mp e
    exact holds a m₁ e

end

end Discipline

end Lox
