import Mathlib
import Lox.Proofs.Heap.Reachability
import Lox.Proofs.Eval.Discipline.Tasks

/-!
# Locality

Code changes only what it can reach. A set of nodes is out of reach of a machine if they hold what
they held before, nothing outside the set points into it, and the globals are not in it
(`OutOfReach`). A computation that starts outside the set stays outside it: that is a discipline
with a single stage (`avoiding`). So what a statement, an expression or a call cannot reach is the
same after it, and is still out of reach (`unreachable_is_untouched`).
-/

namespace Lox

/-- The nodes in `U`, which were made on the heap `h`, hold what they held there, and nothing
outside `U` points to them. -/
structure OutOfReach (h : Heap) (U : Node → Prop) (m : Machine) : Prop where
  made : ∀ a, U a → a.Exists m.heap
  same : ∀ a, U a → a.SameIn h m.heap
  closed : ∀ a b, ¬ U a → m.heap.Points a b → ¬ U b
  globals : ¬ U (.frame m.globals)

namespace OutOfReach

variable {h : Heap} {U : Node → Prop} {m : Machine}

/-- The operation leaves the nodes in `U` as they were, and makes nothing point to them. -/
theorem next {m' : Machine} (o : OutOfReach h U m)
    (same : ∀ a, U a → a.SameIn m.heap m'.heap)
    (points : ∀ a b, ¬ U a → m'.heap.Points a b → m.heap.Points a b ∨ ¬ U b)
    (globals : m'.globals = m.globals) : OutOfReach h U m' where
  made a ha := (same a ha).exists (o.made a ha)
  same a ha := (o.same a ha).trans (same a ha)
  closed a b ha e := (points a b ha e).elim (o.closed a b ha) id
  globals := globals ▸ o.globals

theorem define (o : OutOfReach h U m) {f : FrameId} {n : String} {v : Value}
    (hf : ¬ U (.frame f)) (hv : ∀ a, v.Mentions a → ¬ U a) :
    OutOfReach h U { m with heap := m.heap.define f n v } := by
  refine o.next (fun a ha => Heap.sameIn_define ?_) (fun a b _ e => ?_) rfl
  · rintro rfl
    exact hf ha
  · exact (Heap.points_define e).imp id fun e => hv b e.2

theorem declare (o : OutOfReach h U m) {f : FrameId} {n : String} (hf : ¬ U (.frame f)) :
    OutOfReach h U { m with heap := m.heap.declare f n } := by
  refine o.next (fun a ha => Heap.sameIn_declare ?_) (fun a b _ e => ?_) rfl
  · rintro rfl
    exact hf ha
  · exact .inl (Heap.points_declare e)

theorem setField (o : OutOfReach h U m) {p : InstanceId} {n : String} {v : Value}
    (hp : ¬ U (.instance p)) (hv : ∀ a, v.Mentions a → ¬ U a) :
    OutOfReach h U { m with heap := m.heap.setField p n v } := by
  refine o.next (fun a ha => Heap.sameIn_setField ?_) (fun a b _ e => ?_) rfl
  · rintro rfl
    exact hp ha
  · exact (Heap.points_setField e).imp id fun e => hv b e.2

theorem push (o : OutOfReach h U m) {outer : FrameId} (ho : ¬ U (.frame outer)) :
    OutOfReach h U { m with heap := m.heap.push (some outer) } ∧
      ¬ U (.frame m.heap.frames.size) := by
  refine ⟨o.next (fun a ha => Heap.sameIn_push (o.made a ha)) (fun a b _ e => ?_) rfl,
    fun new => Nat.lt_irrefl _ (o.made _ new)⟩
  rcases Heap.points_push e with e | ⟨-, rfl⟩
  · exact .inl e
  · exact .inr ho

theorem pushInstance (o : OutOfReach h U m) :
    OutOfReach h U { m with heap := m.heap.pushInstance } ∧
      ¬ U (.instance m.heap.fields.size) :=
  ⟨o.next (fun a ha => Heap.sameIn_pushInstance (o.made a ha))
    (fun _ _ _ e => .inl (Heap.points_pushInstance e)) rfl,
    fun new => Nat.lt_irrefl _ (o.made _ new)⟩

/-- What is reached from a node outside `U` is outside `U`. -/
theorem not_mem (o : OutOfReach h U m) {a b : Node} (path : m.heap.Reaches a b) (ha : ¬ U a) :
    ¬ U b :=
  path.mem o.closed ha

end OutOfReach

/-- Only what is outside `U` is used. -/
def avoiding (h : Heap) (U : Node → Prop) : Discipline Unit where
  fits _ := OutOfReach h U
  frame _ f := ¬ U (.frame f)
  function _ f := ¬ U (.frame f.closure)
  value _ v := ∀ a, v.Mentions a → ¬ U a
  name _ := True
  visits _ := True
  calls _ _ := trivial
  fits_congr o e e' _ := o.next (fun a _ => by rw [e]; cases a <;> rfl)
    (fun _ _ _ p => .inl (e ▸ p)) e'
  frame_mono _ := id
  function_mono _ := id
  value_mono _ := id
  plain plain _ mentions := (plain.not_mentions mentions).elim
  closure hf := hf
  code _ _ _ := trivial
  called hf := hf _ .closure
  ownMethod hc e := hc _ (.method e)
  superclass hc e := fun a mentions => hc a (.superclass e mentions)
  ofClass ho := fun a mentions => ho a (.ofClass mentions)
  globals := OutOfReach.globals
  link o hf e := o.closed _ _ hf (.link e)
  binding o hf e := fun a mentions => o.closed _ a hf (.binding e mentions)
  field o ho e := fun a mentions => o.closed _ a (ho _ .fields) (.field e mentions)
  defined o hf _ hv := ⟨(), le_refl _, o.define hf hv⟩
  declared o hf _ := ⟨(), le_refl _, o.declare hf⟩
  fieldSet o ho hv := ⟨(), le_refl _, o.setField (ho _ .fields) hv⟩
  frameMade o ho := ⟨(), le_refl _, o.push ho⟩
  superFrameMade o ho hc :=
    ⟨(), le_refl _, (o.push ho).1.define (o.push ho).2 hc, (o.push ho).2⟩
  methodBound _ _ o hf ho := by
    obtain ⟨pushed, new⟩ := o.push hf
    refine ⟨(), le_refl _, ?_, fun _ mentions => ?_⟩
    · exact (pushed.define new ho).next (fun a _ => by cases a <;> rfl) (fun _ _ _ => .inl) rfl
    · cases mentions
      exact new
  instanceMade o hc := by
    refine ⟨(), le_refl _, o.pushInstance.1, fun _ mentions => ?_⟩
    cases mentions with
    | fields => exact o.pushInstance.2
    | ofClass inside => exact hc _ inside
  functionMade o hf _ :=
    ⟨(), le_refl _, o.next (fun a _ => by cases a <;> rfl) (fun _ _ _ => .inl) rfl, hf⟩
  functionDeclared _ _ hf := fun _ mentions => by
    cases mentions
    exact hf
  classMade _ _ o hc hm := by
    refine ⟨(), le_refl _, o.next (fun a _ => by cases a <;> rfl) (fun _ _ _ => .inl) rfl,
      fun _ mentions => ?_⟩
    cases mentions with
    | method e => exact hm _ _ e
    | superclass e inside => exact hc _ e _ inside

/-! ## What is out of reach -/

/-- A walk from the current frame or from the globals leads to the node. -/
def Machine.CanReach (m : Machine) (a : Node) : Prop :=
  m.heap.Reaches (.frame m.current) a ∨ m.heap.Reaches (.frame m.globals) a

/-- A walk that starts with the value leads to the node. -/
def Value.CanReach (h : Heap) (v : Value) (a : Node) : Prop :=
  ∃ b, v.Mentions b ∧ h.Reaches b a

/-- The nodes that were made before `t` is performed on `m`, and that it cannot reach. -/
structure Task.Unreached (t : Task) (m : Machine) (a : Node) : Prop where
  made : a.Exists m.heap
  machine : ¬ m.CanReach a
  values : ∀ v ∈ t.values, ¬ v.CanReach m.heap a

section
variable {m : Machine} {t : Task}

/-- What a task cannot reach is out of its reach. -/
theorem OutOfReach.start : OutOfReach m.heap (t.Unreached m) m where
  made _ ha := ha.made
  same a _ := by cases a <;> rfl
  closed a b ha e hb := by
    refine ha ⟨e.exists, fun path => hb.machine (path.imp ?_ ?_), fun v hv path => ?_⟩
    · exact (·.tail e)
    · exact (·.tail e)
    · obtain ⟨c, mentions, path⟩ := path
      exact hb.values v hv ⟨c, mentions, path.tail e⟩
  globals ha := ha.machine (.inr .refl)

end

namespace Eval

/-- What a task cannot reach is as it was when the task has ended, and cannot be reached then. -/
theorem untouched (n : Nat) (t : Task) (m : Machine) {a : Node} (apart : t.Unreached m a) :
    a.SameIn m.heap (machineOf (t.run n m)).heap ∧ ¬ (machineOf (t.run n m)).CanReach a ∧
      ∀ answer m', t.run n m = .ok answer m' → ∀ v ∈ t.given answer, ¬ v.CanReach m'.heap a := by
  have ready : (avoiding m.heap (t.Unreached m)).Ready () m :=
    ⟨.start, fun ha => ha.machine (.inl .refl)⟩
  have admitted : (avoiding m.heap (t.Unreached m)).admits () t :=
    Discipline.admits_of_values (fun _ => trivial) fun v hv b mentions hb =>
      hb.values v hv ⟨b, mentions, .refl⟩
  obtain ⟨_, -, ready', -, gives⟩ := Discipline.leads_task n trivial admitted ready
  refine ⟨ready'.fits.same a apart, ?_, fun answer m' e v hv path => ?_⟩
  · rintro (path | path)
    · exact ready'.fits.not_mem path ready'.current apart
    · exact ready'.fits.not_mem path ready'.fits.globals apart
  · obtain ⟨b, mentions, path⟩ := path
    have avoided := Discipline.value_of_gives (gives answer m' e) v hv b mentions
    rw [e] at ready'
    exact ready'.fits.not_mem path avoided apart

/-! ## Calls -/

/-- The same result, with another frame current. -/
def atFrame {α : Type} (c : FrameId) :
    EStateM.Result Stop Machine α → EStateM.Result Stop Machine α
  | .ok a m => .ok a { m with current := c }
  | .error s m => .error s { m with current := c }

theorem machineOf_atFrame {α : Type} (c : FrameId) (r : EStateM.Result Stop Machine α) :
    machineOf (atFrame c r) = { machineOf r with current := c } := by
  cases r <;> rfl

theorem result_atFrame (f : Function) (flow : Flow) (m : Machine) (c : FrameId) :
    result f flow { m with current := c } = atFrame c (result f flow m) := by
  unfold result
  cases f.isInitializer with
  | true => rfl
  | false => cases flow <;> rfl

/-- A call does the same from every frame. -/
theorem call_atFrame (n : Nat) (f : Function) (vs : List Value) (m : Machine) (c : FrameId) :
    call n f vs { m with current := c } = atFrame c (call n f vs m) := by
  cases n with
  | zero => rfl
  | succ n =>
    rw [call_succ, call_succ]
    cases h : stmts n f.decl.body (m.activate f vs) with
    | error s m₁ =>
      rw [bind_of_error (within_of_error h), bind_of_error (within_of_error h)]
      rfl
    | ok flow m₁ =>
      rw [bind_of_ok (within_of_ok h), bind_of_ok (within_of_ok h)]
      exact result_atFrame f flow { m₁ with current := m.current } c

end Eval

open Eval

/-- However a task ends that cannot reach a frame or an instance, what this holds is the same as
before, and neither the machine nor the answer of the task can reach it. A call does not even reach
what only its caller can reach: what the function, the arguments and the globals do not lead to is
the same after it, and the globals and what the call gives do not lead to it. -/
theorem unreachable_is_untouched (n : Nat) (m : Machine) (a : Node) (made : a.Exists m.heap) :
    (∀ t : Task, ¬ m.CanReach a → (∀ v ∈ t.values, ¬ v.CanReach m.heap a) →
      a.SameIn m.heap (machineOf (t.run n m)).heap ∧ ¬ (machineOf (t.run n m)).CanReach a ∧
        ∀ answer m', t.run n m = .ok answer m' →
          ∀ v ∈ t.given answer, ¬ v.CanReach m'.heap a) ∧
    ∀ f vs, ¬ m.heap.Reaches (.frame m.globals) a → ¬ m.heap.Reaches (.frame f.closure) a →
      (∀ v ∈ vs, ¬ v.CanReach m.heap a) →
      a.SameIn m.heap (machineOf (call n f vs m)).heap ∧
        ¬ (machineOf (call n f vs m)).heap.Reaches (.frame m.globals) a ∧
        ∀ v m', call n f vs m = .ok v m' → ¬ v.CanReach m'.heap a := by
  refine ⟨fun t machine values => untouched n t m ⟨made, machine, values⟩, ?_⟩
  intro f vs globals closure arguments
  have values : ∀ v ∈ (Task.call f vs).values, ¬ v.CanReach m.heap a := by
    refine List.forall_mem_cons.mpr ⟨?_, arguments⟩
    rintro ⟨_, ⟨⟩, path⟩
    exact closure path
  have apart : (Task.call f vs).Unreached { m with current := m.globals } a :=
    ⟨made, not_or_intro globals globals, values⟩
  obtain ⟨same, unreached, given⟩ := untouched n (.call f vs) { m with current := m.globals } apart
  have atGlobals : (Task.call f vs).run n { m with current := m.globals } =
      atFrame m.globals (call n f vs m) := call_atFrame n f vs m m.globals
  rw [atGlobals, machineOf_atFrame] at same unreached
  refine ⟨same, fun path => unreached (.inl path), fun v m' e => ?_⟩
  rw [e] at atGlobals
  exact given v _ atGlobals v (List.mem_singleton.mpr rfl)

/-- Nothing leads anywhere on the heap of a machine that has run nothing. -/
theorem Machine.not_points_start (host : Host) (a b : Node) :
    ¬ (Machine.start host).heap.Points a b := by
  intro e
  rcases Heap.points_define e with points | ⟨-, ⟨⟩⟩
  cases points with
  | link link =>
    rw [Heap.enclosing?_push] at link
    split at link <;> cases link
  | binding bound => cases (Heap.lookup?_push ..).symm.trans bound
  | field bound => cases bound

/-- Two calls of one function have made a counter each, in the frames 1 and 2. -/
def Machine.twoCounters : Machine :=
  let start := Machine.start ⟨fun _ => 0, none, false⟩
  let first := (start.heap.push (some 0)).define 1 "count" (.string "none")
  let second := (first.push (some 0)).define 2 "count" (.string "none")
  { start with heap := second, distances := (∅ : Distances).insert 0 1 }

/-- The step of the first counter. -/
def Function.firstStep : Function where
  identity := 0
  decl := ⟨⟨"step", 1⟩, [], [.expression (.assign 0 ⟨"count", 1⟩ (.literal (.string "one")))]⟩
  closure := 1
  isInitializer := false

/-- A step of the first counter leaves the second as it was. -/
theorem counters_are_independent :
    (machineOf (call 8 .firstStep [] .twoCounters)).heap.lookup? 1 "count" =
        some (.string "one") ∧
      (Node.frame 2).SameIn Machine.twoCounters.heap
        (machineOf (call 8 .firstStep [] .twoCounters)).heap ∧
      ¬ (machineOf (call 8 .firstStep [] .twoCounters)).heap.Reaches (.frame 0) (.frame 2) := by
  have closed : ∀ a b, a = .frame 0 ∨ a = .frame 1 → Machine.twoCounters.heap.Points a b →
      b = .frame 0 ∨ b = .frame 1 := by
    intro a b inside e
    rcases Heap.points_define e with e | ⟨-, ⟨⟩⟩
    rcases Heap.points_push e with e | ⟨-, rfl⟩
    · rcases Heap.points_define e with e | ⟨-, ⟨⟩⟩
      rcases Heap.points_push e with e | ⟨-, rfl⟩
      · exact absurd e (Machine.not_points_start _ a b)
      · exact .inl rfl
    · exact .inl rfl
  have apart (f : FrameId) (inside : f = 0 ∨ f = 1) :
      ¬ Machine.twoCounters.heap.Reaches (.frame f) (.frame 2) := by
    intro path
    have reached := path.mem closed (inside.imp (congrArg _) (congrArg _))
    simp at reached
  have two_lt : (Node.frame 2).Exists Machine.twoCounters.heap := by
    show 2 < 3
    decide
  obtain ⟨same, unreached, -⟩ :=
    (unreachable_is_untouched 8 Machine.twoCounters (.frame 2) two_lt).2 Function.firstStep []
      (apart 0 (.inl rfl)) (apart 1 (.inr rfl)) nofun
  exact ⟨by cbv, same, unreached⟩

end Lox
