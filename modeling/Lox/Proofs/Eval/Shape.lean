import Mathlib
import Lox.Proofs.Heap.Walks
import Lox.Proofs.Eval.Discipline.Sessions

/-!
# The shape of the heap

Every computation keeps a registry of what it makes, whatever it runs and at whatever distances:
that is a discipline whose stages are the sound registries (`shaped`). So at every moment of a
session the heap is well shaped (`Machine.WellShaped`), what was made stays as it was made, and the
walks along links and superclasses end (`session_keeps_shape`).
-/

namespace Lox

/-- The registry is that of the machine. -/
structure Registry.Describes (r : Registry) (m : Machine) : Prop where
  heap : m.heap = r.heap
  next : m.nextIdentity = r.objects.length
  globals : m.globals = 0

/-- A sound registry. -/
structure Shape (N : String → Prop) extends Registry where
  sound : toRegistry.Sound N

instance (N : String → Prop) : Preorder (Shape N) where
  le r r' := r.toRegistry.Precedes N r'.toRegistry
  le_refl r := .refl N r.toRegistry
  le_trans _ _ _ := .trans

namespace Shape

variable {N : String → Prop} {r : Shape N} {m : Machine}

theorem rooted (d : r.Describes m) : m.heap.Rooted :=
  d.heap ▸ r.sound.rooted

theorem within (d : r.Describes m) : m.heap.Within r.Knows :=
  d.heap ▸ r.sound.within

/-- What is known of a function. -/
theorem fits_function {f : Function} (known : r.Knows (.function f)) :
    f.closure < r.heap.frames.size ∧ ∀ n ∈ f.decl.written, N n :=
  (r.sound.objects _ _ known).2

/-- What is known of a class. -/
theorem fits_class {c : Class} (known : r.Knows (.class c)) :
    (∀ (n : String) (f : Function), c.methods[n]? = some f → r.Knows (.function f)) ∧
      ∀ s, c.superclass = some s → r.Knows (.class s) ∧ s.identity < c.identity :=
  (r.sound.objects _ _ known).2

/-! ## Operations -/

theorem setHeap (d : r.Describes m) {h' : Heap} (p : m.heap.Preserves N h') (rooted : h'.Rooted)
    (within : h'.Within r.Knows) (same : h'.fields.size = m.heap.fields.size) :
    ∃ r' : Shape N, r ≤ r' ∧ r'.Describes { m with heap := h' } :=
  ⟨⟨_, r.sound.setHeap (d.heap ▸ p) rooted within (d.heap ▸ same)⟩, .ofHeap _ (d.heap ▸ p),
    rfl, d.next, d.globals⟩

theorem addObject (d : r.Describes m) {o : Object} (fits : r.Fits N m.nextIdentity o) :
    ∃ r' : Shape N, r ≤ r' ∧ r'.Describes { m with nextIdentity := m.nextIdentity + 1 } ∧
      r'.objects[m.nextIdentity]? = some o := by
  refine ⟨⟨_, r.sound.addObject (d.next ▸ fits)⟩, ?_, ⟨d.heap, ?_, d.globals⟩, ?_⟩
  · exact ⟨.refl N _, List.prefix_append _ _, List.prefix_refl _⟩
  · rw [List.length_append, List.length_singleton, ← d.next]
  · show (r.objects ++ [o])[m.nextIdentity]? = some o
    rw [d.next, List.getElem?_concat_length]

theorem addInstance (d : r.Describes m) {c : Class} (known : r.Knows (.class c)) :
    ∃ r' : Shape N, r ≤ r' ∧ r'.Describes { m with heap := m.heap.pushInstance } ∧
      r'.Knows (.instance ⟨m.heap.fields.size, c⟩) := by
  refine ⟨⟨_, r.sound.addInstance known⟩, ?_, ⟨?_, d.next, d.globals⟩, ?_⟩
  · exact ⟨.pushInstance N _, List.prefix_refl _, List.prefix_append _ _⟩
  · exact congrArg Heap.pushInstance d.heap
  · show (r.classes ++ [c])[m.heap.fields.size]? = some c
    rw [d.heap, ← r.sound.instances, List.getElem?_concat_length]

/-- A new frame, in which a name is bound. -/
theorem pushFrame (d : r.Describes m) {outer : FrameId} (inside : outer < r.heap.frames.size)
    (n : String) {v : Value} (known : r.Knows v) :
    ∃ r' : Shape N, r ≤ r' ∧
      r'.Describes { m with
        heap := (m.heap.push (some outer)).define m.heap.frames.size n v } ∧
      m.heap.frames.size < r'.heap.frames.size := by
  have bound := Heap.binds_define (m.heap.push (some outer)) m.heap.frames.size n v
  obtain ⟨r', le, d'⟩ := setHeap d
    (((Heap.Preserves.refl N m.heap).push (some outer)).binds bound (.inr (Nat.le_refl _)))
    (((rooted d).push (d.heap ▸ inside)).binds bound)
    (((within d).push (some outer)).binds bound known) rfl
  refine ⟨r', le, d', ?_⟩
  rw [← d'.heap, Heap.size_define, Heap.size_push]
  exact Nat.lt_succ_self _

end Shape

open Shape in
/-- Only frames that were made, and values as they were made, are used; only names in `N` are bound
anew in frames that stand already. -/
def shaped (N : String → Prop) : Discipline (Shape N) where
  fits r m := r.Describes m
  frame r f := f < r.heap.frames.size
  function r f := r.Knows (.function f)
  value r v := r.Knows v
  name := N
  visits _ := True
  calls _ _ := trivial
  fits_congr d e e' e'' := ⟨e.trans d.heap, e''.trans d.next, e'.trans d.globals⟩
  frame_mono le inside := Nat.lt_of_lt_of_le inside le.heap.size
  function_mono le known := le.knows known
  value_mono le known := le.knows known
  plain := Registry.knows_plain
  closure known := (fits_function known).1
  code known := (fits_function known).2
  called known := known
  ownMethod known e := (fits_class known).1 _ _ e
  superclass known e := ((fits_class known).2 _ e).1
  ofClass {r o} known := r.sound.classes o.ofClass (List.mem_of_getElem? known)
  globals {r _} d := d.globals ▸ r.sound.rooted.root
  link {r m f g} d inside e := by
    exact Nat.lt_trans ((rooted d).earlier f g e) inside
  binding d _ e := (within d).binding _ _ _ e
  field d _ e := (within d).field _ _ _ e
  defined {_ m f n v} d _ named known :=
    have bound := Heap.binds_define m.heap f n v
    setHeap d ((Heap.Preserves.refl N m.heap).binds bound (.inl named)) ((rooted d).binds bound)
      ((within d).binds bound known) rfl
  declared {_ m f n} d _ named :=
    have bound := Heap.binds_declare m.heap f n
    setHeap d ((Heap.Preserves.refl N m.heap).binds bound (.inl named)) ((rooted d).binds bound)
      ((within d).declare trivial f n) rfl
  fieldSet {_ m o n v} d _ known :=
    setHeap d (.setField N m.heap o.identity n v)
      ⟨(rooted d).root, (rooted d).alone, (rooted d).earlier⟩
      ((within d).setField o.identity n known) (Array.size_modify ..)
  frameMade {_ m outer} d inside := by
    obtain ⟨r', le, d'⟩ := setHeap d ((Heap.Preserves.refl N m.heap).push (some outer))
      ((rooted d).push (d.heap ▸ inside)) ((within d).push (some outer)) rfl
    refine ⟨r', le, d', ?_⟩
    rw [← d'.heap, Heap.size_push]
    exact Nat.lt_succ_self _
  superFrameMade d inside known := pushFrame d inside "super" known
  methodBound {r _ m f o} _ _ d knownF known := by
    obtain ⟨inside, names⟩ := fits_function knownF
    obtain ⟨r₁, le, d₁, new⟩ := pushFrame d inside "this" known
    obtain ⟨r₂, le', d₂, there⟩ := addObject d₁ (o := .function (f.boundBy m)) ⟨rfl, new, names⟩
    exact ⟨r₂, le.trans le', d₂, there⟩
  instanceMade d known := addInstance d known
  functionMade d inside names := addObject d ⟨rfl, inside, names⟩
  functionDeclared _ _ known := known
  classMade {r _ m n superclass methods} _ _ d known knownMethods := by
    refine addObject d (o := .class ⟨m.nextIdentity, n, superclass, methods⟩)
      ⟨rfl, knownMethods, fun s e => ⟨known s e, ?_⟩⟩
    -- what is known has an identity that was given out
    have there : r.objects[s.identity]? = some (.class s) := known s e
    exact d.next ▸ (List.getElem?_eq_some_iff.mp there).1

/-! ## Sessions -/

/-- The registry of a machine that has run nothing. -/
def Shape.start (N : String → Prop) (host : Host) : Shape N where
  heap := (Machine.start host).heap
  objects := []
  classes := []
  sound := by
    have rooted : (Heap.empty.push none).Rooted := by
      refine ⟨Nat.one_pos, fun f made => ?_, fun f g e => ?_⟩
      · obtain rfl := Nat.lt_one_iff.mp made
        exact iff_of_true rfl rfl
      · rw [Heap.enclosing?_push] at e
        split at e <;> cases e
    have clock := Heap.binds_define (Heap.empty.push none) 0 Native.clock.name (.native .clock)
    exact ⟨rooted.binds clock, .start host trivial, nofun, rfl, nofun⟩

theorem Shape.ready_start (N : String → Prop) (host : Host) :
    (shaped N).Ready (Shape.start N host) (Machine.start host) :=
  ⟨⟨rfl, rfl, rfl⟩, Nat.one_pos⟩

/-- Links lead to frames made earlier, up to the global frame, which alone has none; closures were
made, and superclasses were made before their subclasses. So every chain of frames and every lineage
is finite, and the walks along them end where those do that know no bound. -/
structure Machine.WellShaped (m : Machine) (vs : List Value) : Prop where
  current : m.current < m.heap.frames.size
  globals : m.globals < m.heap.frames.size
  alone : ∀ f < m.heap.frames.size, m.heap.enclosing? f = none ↔ f = m.globals
  earlier : ∀ f g, m.heap.enclosing? f = some g → g < f
  closure : ∀ f, m.heap.Holds vs (.function f) → f.closure < m.heap.frames.size
  identity : ∀ c, m.heap.Holds vs (.class c) → c.identity < m.nextIdentity
  superclass : ∀ c s, m.heap.Holds vs (.class c) → c.superclass = some s → s.identity < c.identity
  chain : ∀ f < m.heap.frames.size, ∃ distance, m.heap.outward? f distance = some m.globals
  search : ∀ f < m.heap.frames.size, ∀ name, m.heap.Searches name f (m.heap.holder? f name)
  ancestor : ∀ f < m.heap.frames.size, ∀ distance,
    m.heap.ancestor f distance = (m.heap.outward? f distance).getD m.globals
  lineage : ∀ c, m.heap.Holds vs (.class c) → c.lineage.Pairwise (·.identity > ·.identity) ∧
    ∀ name, c.method? name = c.lineage.findSome? (·.methods[name]?)

namespace Shape

variable {N : String → Prop} {r r' : Shape N} {m m' : Machine} {vs : List Value} {v w : Value}

theorem wellShaped (ready : (shaped N).Ready r m) (atHand : ∀ v ∈ vs, r.Knows v) :
    m.WellShaped vs := by
  obtain ⟨d, current⟩ := ready
  have rooted := rooted d
  have known {v : Value} (holds : m.heap.Holds vs v) : r.Knows v :=
    r.sound.knows atHand (d.heap ▸ holds)
  exact {
    current := d.heap ▸ current
    globals := d.globals ▸ rooted.root
    alone := d.globals ▸ rooted.alone
    earlier := rooted.earlier
    closure f holds := d.heap ▸ (fits_function (known holds)).1
    identity c holds := d.next ▸ (List.getElem?_eq_some_iff.mp (known holds)).1
    superclass c s holds e := ((fits_class (known holds)).2 s e).2
    chain f made := d.globals ▸ rooted.outward?_globals made
    search f made := rooted.searches made
    ancestor f made := d.globals ▸ rooted.ancestor_eq made
    lineage c holds := ⟨r.sound.lineage c (known holds), fun name => c.method?_eq name⟩ }

/-- Known values that have an identity are told apart by it. -/
theorem eq_of_equals (hv : r.Knows v) (hw : r.Knows w) (object : ¬ v.IsPlain)
    (same : v.equals w = true) : v = w := by
  cases v with
  | function f =>
    cases w with
    | function g =>
      have e : f.identity = g.identity := beq_iff_eq.mp same
      have hv : r.objects[f.identity]? = _ := hv
      cases (e ▸ hv).symm.trans hw
      rfl
    | _ => cases same
  | «class» c =>
    cases w with
    | «class» d =>
      have e : c.identity = d.identity := beq_iff_eq.mp same
      have hv : r.objects[c.identity]? = _ := hv
      cases (e ▸ hv).symm.trans hw
      rfl
    | _ => cases same
  | «instance» o =>
    cases w with
    | «instance» p =>
      have e : o.identity = p.identity := beq_iff_eq.mp same
      have hv : r.classes[o.identity]? = _ := hv
      obtain ⟨identity, ofClass⟩ := o
      obtain ⟨identity', ofClass'⟩ := p
      cases e
      cases hv.symm.trans hw
      rfl
    | _ => cases same
  | nil | bool | number | string | native => exact absurd trivial object

theorem evolves (le : r ≤ r') (ready : (shaped N).Ready r m) (ready' : (shaped N).Ready r' m') :
    m.heap.Evolves m'.heap := by
  rw [ready.fits.heap, ready'.fits.heap]
  exact le.heap.toEvolves

end Shape

/-- In every session, whatever its sources and distances, the heap is well shaped at every moment.
Two functions, classes or instances that are held at two moments and are equal to Lox are the same,
with all that they consist of. A step, and every task in it, keeps the frames that it finds, their
links, the names that they bind and the fields of the instances. -/
theorem session_keeps_shape (fuel : Nat) (host : Host) (ss : List Step) :
    (∀ m vs, Session.Moment fuel (.start host) ss m vs → m.WellShaped vs) ∧
    (∀ m vs m' vs' v w, Session.Moment fuel (.start host) ss m vs →
      Session.Moment fuel (.start host) ss m' vs' → m.heap.Holds vs v → m'.heap.Holds vs' w →
      ¬ v.IsPlain → v.equals w = true → v = w) ∧
    ∀ m s, m = Session.machineAfter fuel (.start host) ss →
      m.heap.Evolves (Session.step fuel m s).2.heap ∧
      ∀ x, Session.Visits fuel m s x → m.heap.Evolves x.machine.heap ∧
        x.after.heap.Evolves (Session.step fuel m s).2.heap ∧
        ∀ y, x.Reaches y → x.machine.heap.Evolves y.machine.heap ∧
          y.machine.heap.Evolves y.after.heap ∧ y.after.heap.Evolves x.after.heap := by
  obtain ⟨r, -, ready, moments⟩ := Discipline.leads_session
    (D := shaped fun _ => True) fuel (fun _ => trivial) (fun _ => trivial)
    (Shape.ready_start _ host) ss
  refine ⟨fun m vs moment => ?_, ?_, ?_⟩
  · obtain ⟨r₁, -, -, ready₁, known⟩ := moments m vs moment
    exact Shape.wellShaped ready₁ known
  · intro m vs m' vs' v w moment moment' holds holds' object same
    have knows {m vs v} (moment : Session.Moment fuel (.start host) ss m vs)
        (holds : m.heap.Holds vs v) : r.Knows v := by
      obtain ⟨r₁, -, le, ready₁, known⟩ := moments m vs moment
      exact le.knows (r₁.sound.knows known (ready₁.fits.heap ▸ holds))
    exact Shape.eq_of_equals (knows moment holds) (knows moment' holds') object same
  · rintro m s rfl
    obtain ⟨r', le, ready', covers⟩ := Discipline.leads_step_of_session fuel
      (fun _ => trivial) (fun _ => trivial) ready s
    refine ⟨Shape.evolves le ready ready', fun x visited => ?_⟩
    obtain ⟨r₁, r₂, a, b, c, start, admitted, atEnd, -⟩ := covers x visited x .refl
    refine ⟨Shape.evolves a ready start, Shape.evolves c atEnd ready', fun y path => ?_⟩
    obtain ⟨r₃, -, atEnd, covers, -⟩ := Discipline.leads_task x.fuel trivial admitted start
    obtain ⟨s₁, s₂, a, b, c, start', -, atEnd', -⟩ := covers x rfl y path
    exact ⟨Shape.evolves a start start', Shape.evolves b start' atEnd',
      Shape.evolves c atEnd' atEnd⟩

/-- In this session `B` is made after its superclass `A`. -/
theorem superclass_is_made_first :
    ∃ m c s, Session.Moment 8 (.start ⟨fun _ => 0, none, false⟩)
        [.run "class A \x7b\x7d", .run "class B < A \x7b\x7d"] m [] ∧
      m.heap.lookup? 0 "B" = some (.class c) ∧ c.superclass = some s ∧ s.identity < c.identity := by
  let host : Host := ⟨fun _ => 0, none, false⟩
  let steps : List Step := [.run "class A \x7b\x7d", .run "class B < A \x7b\x7d"]
  let a : Class := ⟨0, "A", none, ∅⟩
  let b : Class := ⟨1, "B", some a, ∅⟩
  have bound : (Session.machineAfter 8 (.start host) steps).heap.lookup? 0 "B" =
      some (.class b) := by
    cbv
  have moment : Session.Moment 8 (.start host) steps
      (Session.machineAfter 8 (.start host) steps) [] := .later (.later .between)
  have shaped := (session_keeps_shape 8 host steps).1 _ _ moment
  exact ⟨_, b, a, moment, bound, rfl, shaped.superclass b a (.binding bound) rfl⟩
end Lox
