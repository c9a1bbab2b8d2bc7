import Mathlib
import Lox.Session
import Lox.Proofs.Heap.Registry
import Lox.Proofs.Eval.Appended

/-!
# One source after another on one machine

A machine that has run a source can run another one. It then knows the distances of the nodes of
the second source only, and the functions that the first one left on the heap run with these,
though their nodes have the numbers that they had in the first source. If these nodes have the same
distances in both, the second source does what it does on the lines after the first
(`reused_machine_runs_joined_source`). If not, a function may read another variable than the one
that it was written to read (`reused_machine_misplaces_parameter`).
-/

namespace Lox

open Eval

/-! ## Other comparisons -/

/-- A method that is found in a class is held with it. -/
theorem Heap.Holds.method {h : Heap} {vs : List Value} {n : String} {f : Function} :
    (c : Class) → h.Holds vs (.class c) → c.method? n = some f → h.Holds vs (.function f)
  | ⟨_, _, above, _⟩, holds, found => by
    unfold Class.method? at found
    split at found
    · rename_i own
      cases found
      exact .ownMethod holds own
    · cases above with
      | none => cases found
      | some s => exact Heap.Holds.method s (.superclass holds rfl) found

section
variable {C C' : Comparison} {h h' : Heap} {vs : List Value}
  (fits : ∀ f R, h.Holds vs (.function f) → C.Fits R f.decl.ids → C'.Fits R f.decl.ids)
include fits

/-- What differs in its labels does so also in another comparison, if the labels of the functions
that are held fit there too. -/
theorem Value.Relabelled.compare {v v' : Value} (hv : v.Relabelled C v') (holds : h.Holds vs v) :
    v.Relabelled C' v' := by
  have «function» {f f' : Function} (held : h.Holds vs (.function f)) (hf : f.Relabelled C f') :
      f.Relabelled C' f' := by
    obtain ⟨f, labels⟩ := hf
    exact .intro f (fits f _ held labels)
  have «class» {c c' : Class} (held : h.Holds vs (.class c)) (hc : c.Relabelled C c') :
      c.Relabelled C' c' := by
    refine ⟨hc.identity, hc.name, fun name => ?_⟩
    have found := hc.methods name
    have method {f : Function} (e : c.method? name = some f) : h.Holds vs (.function f) :=
      Heap.Holds.method c held e
    generalize c.method? name = f at found method ⊢
    generalize c'.method? name = f' at found ⊢
    cases found with
    | none => exact .none
    | some hf => exact .some («function» (method rfl) hf)
  cases hv with
  | plain plain => exact .plain plain
  | function hf => exact .function («function» holds hf)
  | «class» hc => exact .class («class» holds hc)
  | «instance» ho => exact .instance ⟨ho.identity, «class» (.ofClass holds) ho.ofClass⟩

theorem Heap.Relabelled.compare (hh : h.Relabelled C h') : h.Relabelled C' h' where
  size := hh.size
  link := hh.link
  bindings f name := by
    have bound := hh.bindings f name
    have holds {v : Value} (e : h.lookup? f name = some v) : h.Holds vs v := .binding e
    generalize h.lookup? f name = v at bound holds ⊢
    generalize h'.lookup? f name = v' at bound ⊢
    cases bound with
    | none => exact .none
    | some hv => exact .some (hv.compare fits (holds rfl))
  instances := hh.instances
  fields o name := by
    have field := hh.fields o name
    have holds {v : Value} (e : h.field? o name = some v) : h.Holds vs v := .field e
    generalize h.field? o name = v at field holds ⊢
    generalize h'.field? o name = v' at field ⊢
    cases field with
    | none => exact .none
    | some hv => exact .some (hv.compare fits (holds rfl))

end

/-! ## The second program -/

/-- The code of one program has its own labels, and that of the next one is labelled behind it. -/
def Comparison.behind (lines ids : Nat) (distances distances' : Distances) : Comparison :=
  ⟨fun R => R = .same ∨ R = .after lines ids, distances, distances', False⟩

/-- When the program has run, the function is on the heap. -/
def Checked.Leaves (p : Checked) (host : Host) (f : Function) : Prop :=
  ∃ n m, program n p.statements p.distances (Machine.start host) = .ok () m ∧
    m.heap.Holds [] (.function f)

section
variable {p q : Checked} {lines ids : Nat} {distances : Distances}
  (kept : ∀ id ∈ Stmt.idsList p.statements, distances[id]? = p.distances[id]?)
  (kept' : ∀ id, distances[id + ids]? = q.distances[id]?)
include kept kept'

/-- On the machine that a program leaves, another one ends as it does behind this program. -/
theorem Checked.program_behind {n : Nat} {host : Host} {m : Machine}
    (ran : program n p.statements p.distances (Machine.start host) = .ok () m)
    (agree : ∀ f, p.Leaves host f → ∀ id ∈ f.decl.ids, q.distances[id]? = p.distances[id]?) :
    EndsAlike (.behind lines ids q.distances distances) (fun _ _ => True)
      (program n q.statements q.distances m)
      (program n (p.statements ++ Stmt.relabelList (.after lines ids) q.statements) distances
        (Machine.start host)) := by
  have leaves {f : Function} (held : m.heap.Holds [] (.function f)) : p.Leaves host f :=
    ⟨n, m, ran, held⟩
  have alone : program n p.statements p.distances (Machine.start host) =
      (topLevel n p.statements >>= fun _ => flush) (p.start host) := rfl
  have fuels : (Comparison.same p.distances distances False).Fuels n n := .inl rfl
  have alike := Checked.topLevel_alike kept fuels host
  rw [program_append]
  rw [alone] at ran
  generalize e : topLevel n p.statements (p.start host) = r at alike
  generalize e' : topLevel n p.statements _ = r' at alike
  cases alike with
  | failed _ _ | outOfFuel _ =>
    rw [bind_of_error e] at ran
    cases ran
  | ok machines _ =>
    rw [bind_of_ok e, flush] at ran
    split at ran <;> cases ran
    rw [bind_of_ok e']
    obtain ⟨heap, -⟩ := machines
    have left (f : Function) (R : Relabelling) (held : m.heap.Holds [] (.function f))
        (labels : (Comparison.same p.distances distances False).Fits R f.decl.ids) :
        (Comparison.behind lines ids q.distances distances).Fits R f.decl.ids :=
      ⟨.inl labels.relabels, fun id inside =>
        (labels.kept id inside).trans (agree f (leaves held) id inside).symm⟩
    have second : (Comparison.behind lines ids q.distances distances).Fits (.after lines ids)
        (Stmt.idsList q.statements) := ⟨.inr rfl, fun id _ => kept' id⟩
    exact ((Follows.topLevel (.inl rfl) q.statements second).bind fun _ _ _ => Follows.flush)
      { m with distances := q.distances } _ (.intro (heap.compare left) rfl)

end

/-! ## Sessions -/

/-- The ending of a run says what the report of a step says, but that it may blame an error on a
line that is `lines` lines later. -/
inductive Report.Tells (lines : Nat) : Report → Ending → Prop
  | done : Report.Tells lines .done .finished
  | failed (e : Diagnostic) : Report.Tells lines (.failed ⟨.running, [e]⟩) (.aborted e)
  | failedLater (e : RuntimeError) : Report.Tells lines (.failed ⟨.running, [.runtime e]⟩)
    (.aborted (.runtime { e with line := e.line + lines }))

theorem Report.Tells.ending_ne {lines : Nat} {report : Report} {ending : Ending}
    (h : report.Tells lines ending) : ending ≠ .outOfFuel := by
  rintro rfl
  cases h

theorem EndsAlike.tells {lines ids : Nat} {distances distances' : Distances}
    {Q : Unit → Unit → Prop} {r r' : EStateM.Result Stop Machine Unit}
    (alike : EndsAlike (.behind lines ids distances distances') Q r r')
    (ended : (Session.finish (fun _ => .done) r).1 ≠ .outOfFuel ∨
      (Outcome.ofResult r').ending ≠ .outOfFuel) :
    (Session.finish (fun _ => .done) r).1.Tells lines (Outcome.ofResult r').ending ∧
      (Outcome.ofResult r').printed = (machineOf r).printed.toList := by
  rw [Outcome.printed_ofResult]
  cases alike with
  | ok machines _ => exact ⟨.done, congrArg Array.toList machines.printed_eq⟩
  | failed machines failures =>
    refine ⟨?_, congrArg Array.toList machines.printed_eq⟩
    cases failures with
    | io e => exact .failed (.io e)
    | runtime relabels e =>
      obtain rfl | rfl := relabels
      · exact .failed (.runtime e)
      · exact .failedLater e
  | outOfFuel both =>
    obtain ⟨⟨⟩⟩ | ⟨m', rfl⟩ := both
    obtain ended | ended := ended <;> exact absurd rfl ended

/-- A source is accepted stage by stage if it is accepted at all. -/
theorem Source.checked_of_check {source : String} {p : Checked} (h : check source = .ok p) :
    checked source = .ok p := by
  obtain ⟨lexical, noErrors, read, located⟩ := check_eq_ok h
  have statements : statements source = .ok p.statements := by
    simp only [statements, tokens, lexical, Bind.bind, Except.bind, Program.statements?, noErrors,
      read, List.isEmpty_nil, if_true]
  simp only [checked, statements, Bind.bind, Except.bind, located]

theorem Session.step_run {source : String} {p : Checked} (accepted : Source.check source = .ok p)
    (n : Nat) (m : Machine) : step n m (.run source) =
      finish (fun _ => .done) (program n p.statements p.distances m) := by
  rw [step, Source.checked_of_check accepted]
  rfl

theorem run_of_check {source : String} {p : Checked} (accepted : Source.check source = .ok p)
    (n : Nat) (host : Host) : run n host source =
      .ofResult (program n p.statements p.distances (Machine.start host)) := by
  rw [run, accepted]

theorem Outcome.eq_ok_of_finished {r : EStateM.Result Stop Machine Unit}
    (h : (ofResult r).ending = .finished) : ∃ m, r = .ok () m := by
  rcases r with ⟨⟨⟩, m⟩ | ⟨_ | _, m⟩
  · exact ⟨m, rfl⟩
  · cases h
  · cases h

section
variable {first second : String} {p q : Checked} (accepted : Source.check first = .ok p)
  (accepted' : Source.check second = .ok q) {n : Nat} {host : Host} {m : Machine}
  (ran : program n p.statements p.distances (Machine.start host) = .ok () m)
include accepted accepted' ran

/-- A session of two sources, the first of which is done, prints what is printed in the end. -/
theorem Session.steps_of_ran :
    ∃ printed, steps n (Machine.start host) [.run first, .run second] =
        [(.done, m.printed.toList),
          ((finish (fun _ => .done) (program n q.statements q.distances m)).1, printed)] ∧
      m.printed.toList ++ printed =
        (machineOf (program n q.statements q.distances m)).printed.toList := by
  have goesOn : m.printed.toList <+: _ := (keeps_program n q.statements q.distances m).printed
  obtain ⟨printed, whole⟩ := goesOn
  refine ⟨printed, ?_, whole⟩
  have done : step n (Machine.start host) (.run first) = (.done, m) := by
    rw [step_run accepted, ran]
    rfl
  have rest : (m.printed.toList ++ printed).drop m.printed.size = printed := by
    rw [← Array.length_toList, List.drop_left]
  simp only [steps, done, step_run accepted', finish_machine, ← whole, rest]
  rfl

end

/-- If the first of two sources is done, then it ran to its end. -/
theorem Session.ran_of_steps {source : String} {p : Checked}
    (accepted : Source.check source = .ok p) {n : Nat} {host : Host} {s : Step} {a b : List String}
    {report : Report}
    (ended : steps n (Machine.start host) [.run source, s] = [(.done, a), (report, b)]) :
    ∃ m, program n p.statements p.distances (Machine.start host) = .ok () m := by
  simp only [steps, step_run accepted] at ended
  generalize program n p.statements p.distances (Machine.start host) = r at ended ⊢
  rcases r with ⟨⟨⟩, m⟩ | ⟨_ | _, m⟩
  · exact ⟨m, rfl⟩
  · cases ended
  · cases ended

/-- A source is accepted, and the run of it finishes. On the machine that it leaves, another
accepted source prints and says the same as on the lines after the first, if it gives the same
distances to the nodes of the functions that the first leaves on the heap. -/
theorem reused_machine_runs_joined_source {first second : String} {p q : Checked}
    (accepted : Source.check first = .ok p) (accepted' : Source.check second = .ok q) {host : Host}
    (finishes : ∃ printed, RunsTo host first ⟨printed, .finished⟩)
    (agree : ∀ f, p.Leaves host f → ∀ id ∈ f.decl.ids, q.distances[id]? = p.distances[id]?) :
    (∀ n a report b,
      Session.steps n (Machine.start host) [.run first, .run second] = [(.done, a), (report, b)] →
      report ≠ .outOfFuel → ∃ ending, report.Tells (first.toList.count '\n' + 1) ending ∧
        RunsTo host (first ++ "\n" ++ second) ⟨a ++ b, ending⟩) ∧
    ∀ o, RunsTo host (first ++ "\n" ++ second) o → ∃ n a report b,
      Session.steps n (Machine.start host) [.run first, .run second] =
        [(.done, a), (report, b)] ∧
      report.Tells (first.toList.count '\n' + 1) o.ending ∧ o.printed = a ++ b := by
  obtain ⟨ids, distances, joined, kept, kept'⟩ := Source.check_append_line accepted accepted'
  constructor
  · intro n a report b ended some
    obtain ⟨m, ran⟩ := Session.ran_of_steps accepted ended
    obtain ⟨printed, steps, whole⟩ := Session.steps_of_ran accepted accepted' ran
    cases steps.symm.trans ended
    obtain ⟨tells, same⟩ := (Checked.program_behind kept kept' ran agree).tells (.inl some)
    refine ⟨_, tells, n, ?_, tells.ending_ne⟩
    rw [run_of_check joined, whole, ← same]
  · rintro o ⟨n, rfl, ended⟩
    obtain ⟨_, n', finished, -⟩ := finishes
    -- The fuel that suffices for the second run need not be what the first one had.
    let enough := max n n'
    have finished' : (run enough host first).ending = .finished := by
      rw [run_of_le (Nat.le_max_right n n') (by rw [finished]; nofun), finished]
    rw [run_of_check accepted] at finished'
    have longer := run_of_le (Nat.le_max_left n n') ended
    rw [← longer, run_of_check joined] at ended ⊢
    obtain ⟨m, ran⟩ := Outcome.eq_ok_of_finished finished'
    obtain ⟨printed, steps, whole⟩ := Session.steps_of_ran accepted accepted' ran
    obtain ⟨tells, same⟩ := (Checked.program_behind kept kept' ran agree).tells (.inr ended)
    exact ⟨enough, _, _, _, steps, tells, same.trans whole.symm⟩

/-! ## Two sessions -/

/-- Why the computation gave no value. -/
def Eval.stop? {α : Type} : EStateM.Result Stop Machine α → Option Stop
  | .ok _ _ => none
  | .error s _ => some s

theorem Eval.eq_ok_of_stop? {r : EStateM.Result Stop Machine Unit} (h : stop? r = none) :
    r = .ok () (machineOf r) := by
  cases r with
  | ok => rfl
  | error => cases h

theorem Eval.eq_error_of_stop? {r : EStateM.Result Stop Machine Unit} {s : Stop}
    (h : stop? r = some s) : r = .error s (machineOf r) := by
  cases r with
  | ok => cases h
  | error =>
    cases h
    rfl

/-- The function that the first source leaves finds its parameter by the distances of the second,
which has another parameter at the same distance. -/
theorem reused_machine_finds_parameter :
    let host : Host := ⟨fun _ => 0, none, false⟩
    let first := "fun f(x) \x7b print x; \x7d"
    let second := "fun g(y) \x7b print y; \x7d f(\"one\");"
    ∃ p q, Source.check first = .ok p ∧ Source.check second = .ok q ∧
      (∃ printed, RunsTo host first ⟨printed, .finished⟩) ∧
      (∀ f, p.Leaves host f → ∀ id ∈ f.decl.ids, q.distances[id]? = p.distances[id]?) ∧
      RunsTo host (first ++ "\n" ++ second) ⟨["one"], .finished⟩ := by
  intro host first second
  let distances : Distances := (∅ : Distances).insert 0 0
  let f : FunctionDecl := ⟨⟨"f", 1⟩, [⟨"x", 1⟩], [.print (.variable 0 ⟨"x", 1⟩)]⟩
  let g : FunctionDecl := ⟨⟨"g", 1⟩, [⟨"y", 1⟩], [.print (.variable 0 ⟨"y", 1⟩)]⟩
  let call : Expr := .call (.variable 1 ⟨"f", 1⟩) ⟨")", 1⟩ [.literal (.string "one")]
  let p : Checked := ⟨[.function f], distances⟩
  let q : Checked := ⟨[.function g, .expression call], distances⟩
  have accepted : Source.check first = .ok p := by cbv
  have accepted' : Source.check second = .ok q := by cbv
  let r := program 9 p.statements p.distances (Machine.start host)
  let r' := program 9 q.statements q.distances (machineOf r)
  have ran : r = .ok () (machineOf r) := eq_ok_of_stop? (by decide +kernel +zetaReduce)
  have ran' : r' = .ok () (machineOf r') := eq_ok_of_stop? (by decide +kernel +zetaReduce)
  have whole : (machineOf r').printed.toList = ["one"] := by decide +kernel +zetaReduce
  have finishes : ∃ printed, RunsTo host first ⟨printed, .finished⟩ := by
    refine ⟨(machineOf r).printed.toList, 9, ?_, by rintro ⟨⟩⟩
    rw [run_of_check accepted]
    exact congrArg Outcome.ofResult ran
  have agree : ∀ f, p.Leaves host f → ∀ id ∈ f.decl.ids, q.distances[id]? = p.distances[id]? :=
    fun _ _ _ _ => rfl
  obtain ⟨printed, steps, joined⟩ := Session.steps_of_ran accepted accepted' ran
  change _ = [_, ((Session.finish _ r').1, _)] at steps
  change _ = (machineOf r').printed.toList at joined
  rw [ran'] at steps
  obtain ⟨ending, tells, ends⟩ :=
    (reused_machine_runs_joined_source accepted accepted' finishes agree).1 _ _ _ _ steps
      (by rintro ⟨⟩)
  rw [joined, whole] at ends
  cases tells
  exact ⟨p, q, accepted, accepted', finishes, agree, ends⟩

/-- A function that the first source leaves does not find its parameter if the second source has a
global variable where the function has the parameter. -/
theorem reused_machine_misplaces_parameter :
    let host : Host := ⟨fun _ => 0, none, false⟩
    let first := "fun f(x) \x7b return x; \x7d"
    let second := "print f(\"one\");"
    (∃ p, Source.check first = .ok p) ∧ (∃ q, Source.check second = .ok q) ∧
      Session.steps 9 (Machine.start host) [.run first, .run second] =
        [(.done, []), (.failed ⟨.running, [.runtime ⟨.undefinedVariable "x", 1⟩]⟩, [])] ∧
      RunsTo host (first ++ "\n" ++ second) ⟨["one"], .finished⟩ := by
  intro host first second
  let distances : Distances := (∅ : Distances).insert 0 0
  let f : Stmt := .function
    ⟨⟨"f", 1⟩, [⟨"x", 1⟩], [.returning ⟨"return", 1⟩ (some (.variable 0 ⟨"x", 1⟩))]⟩
  let print (id line : Nat) : Stmt :=
    .print (.call (.variable id ⟨"f", line⟩) ⟨")", line⟩ [.literal (.string "one")])
  have accepted : Source.check first = .ok ⟨[f], distances⟩ := by cbv
  have accepted' : Source.check second = .ok ⟨[print 0 1], ∅⟩ := by cbv
  have joined : Source.check (first ++ "\n" ++ second) = .ok ⟨[f, print 1 2], distances⟩ := by cbv
  let r := program 9 [f] distances (Machine.start host)
  let r' := program 9 [print 0 1] ∅ (machineOf r)
  let whole := program 9 [f, print 1 2] distances (Machine.start host)
  have ran : r = .ok () (machineOf r) := eq_ok_of_stop? (by decide +kernel +zetaReduce)
  have fails : r' = .error (.failed (.runtime ⟨.undefinedVariable "x", 1⟩)) (machineOf r') :=
    eq_error_of_stop? (by decide +kernel +zetaReduce)
  have finishes : whole = .ok () (machineOf whole) :=
    eq_ok_of_stop? (by decide +kernel +zetaReduce)
  have silent : (machineOf r).printed = #[] ∧ (machineOf r').printed = #[] := by
    decide +kernel +zetaReduce
  have prints : (machineOf whole).printed.toList = ["one"] := by decide +kernel +zetaReduce
  refine ⟨⟨_, accepted⟩, ⟨_, accepted'⟩, ?_, 9, ?_, by rintro ⟨⟩⟩
  · obtain ⟨printed, steps, rest⟩ := Session.steps_of_ran accepted accepted' ran
    change _ = [_, ((Session.finish _ r').1, _)] at steps
    change _ = (machineOf r').printed.toList at rest
    rw [silent.1, silent.2] at rest
    obtain rfl : printed = [] := rest
    rw [steps, silent.1, fails]
    rfl
  · rw [run_of_check joined, ← prints]
    exact congrArg Outcome.ofResult finishes

end Lox
