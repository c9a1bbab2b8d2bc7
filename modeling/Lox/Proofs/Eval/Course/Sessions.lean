import Mathlib.Data.List.Basic
import Lox.Proofs.Eval.Course.Fields

/-!
# The course of a session

All tasks of a session follow one another, each starting before and ending after those that it
performs itself. The course of a session is the list of these instants, in the order of time
(`Session.course`). What happens between an instant and the next one sets no field of an instance;
where the second one is the end of an assignment to a field, this is the one field that is set
(`Session.passage_course`). So a field stays as it is up to the next assignment to it
(`Session.field_of_unset`), and identities are given out in order (`Session.nextIdentity_le`).
-/

namespace Lox

/-! ## Instants -/

/-- An instant of a session: it rests between two steps, or a task starts or ends. -/
inductive Instant
  | rests (m : Machine)
  | starts (x : Point)
  | ends (x : Point)

namespace Instant

/-- The machine at the instant. -/
def machine : Instant → Machine
  | rests m => m
  | starts x => x.machine
  | ends x => x.after

/-- The field that was set right before the instant. -/
def StoresTo : Instant → InstanceId → String → Prop
  | rests _ | starts _ => NoField
  | ends x => x.StoresTo

/-- The values that are at hand at the instant, next to those that are on the heap. -/
def values : Instant → List Value
  | rests _ => []
  | starts x => x.task.values
  | ends x =>
    match x.task.run x.fuel x.machine with
    | .ok a _ => x.task.given a
    | .error .. => []

end Instant

/-- The instants follow one another on the way from the first machine to the second; each field is
as it was, but at the end of an assignment to it. -/
inductive Passage : Machine → List Instant → Machine → Prop
  | done {m m' : Machine} (h : m.KeepsFields NoField m') : Passage m [] m'
  | next {m m' : Machine} {i : Instant} {is : List Instant}
    (first : m.KeepsFields i.StoresTo i.machine) (rest : Passage i.machine is m') :
    Passage m (i :: is) m'

namespace Passage

variable {m m₁ m' : Machine} {i : Instant} {is js : List Instant}

theorem later (h : Passage m₁ is m') (before : m.KeepsFields NoField m₁) : Passage m is m' := by
  cases h with
  | done h => exact .done (before.trans h)
  | next first rest => exact .next (before.trans first) rest

theorem append (h : Passage m is m₁) (h' : Passage m₁ js m') : Passage m (is ++ js) m' := by
  induction h with
  | done h => exact h'.later h
  | next first _ ih => exact .next first (ih h')

/-- The instants up to one of them, and those after it. -/
theorem split (h : Passage m (is ++ i :: js) m') :
    Passage m (is ++ [i]) i.machine ∧ Passage i.machine js m' := by
  induction is generalizing m with
  | nil =>
    cases h with
    | next first rest => exact ⟨.next first (.done (.refl _)), rest⟩
  | cons _ is ih =>
    cases h with
    | next first rest => exact ⟨.next first (ih rest).1, (ih rest).2⟩

/-- A field stays as it is as long as it is not assigned. -/
theorem field (h : Passage m is m') {o : InstanceId} {name : String}
    (unset : ∀ i ∈ is, ¬ i.StoresTo o name) :
    m'.heap.field? o name = m.heap.field? o name := by
  induction h with
  | done h => exact h.field o name id
  | next first _ ih =>
    obtain ⟨here, later⟩ := List.forall_mem_cons.mp unset
    exact (ih later).trans (first.field o name here)

theorem nextIdentity_le (h : Passage m is m') : m.nextIdentity ≤ m'.nextIdentity := by
  induction h with
  | done h => exact h.next
  | next first _ ih => exact Nat.le_trans first.next ih

end Passage

/-! ## The course of a task -/

namespace Point

/-- The instants from the start to the end of the task, when it and what it performs are `depth`
deep. -/
def courseTo : Nat → Point → List Instant
  | 0, x => [.starts x, .ends x]
  | depth + 1, x => .starts x :: x.calls.flatMap (courseTo depth) ++ [.ends x]

/-- The instants from the start to the end of the task. -/
def course (x : Point) : List Instant :=
  x.courseTo x.fuel

theorem Calls.fuel_eq {x y : Point} (h : x.Calls y) : y.fuel + 1 = x.fuel := by
  cases h <;> rfl

theorem course_eq (x : Point) :
    x.course = .starts x :: x.calls.flatMap course ++ [.ends x] := by
  obtain ⟨_ | n, t, m⟩ := x
  · rfl
  show Instant.starts _ :: (calls _).flatMap (courseTo n) ++ [.ends _] = _
  have same : (calls ⟨n + 1, t, m⟩).flatMap (courseTo n) = (calls ⟨n + 1, t, m⟩).flatMap course :=
    List.flatMap_congr fun y inside => by
      rw [course, Nat.succ.inj (calls_of_mem inside).fuel_eq]
  rw [same]

theorem course_isInfix_flatMap {x : Point} {xs : List Point} (h : x ∈ xs) :
    x.course <:+: xs.flatMap course :=
  List.flatMap_def ▸ List.infix_of_mem_flatten (List.mem_map_of_mem h)

/-- What a point performs is performed between its start and its end. -/
theorem Reaches.course_isInfix {x y : Point} (path : x.Reaches y) : y.course <:+: x.course := by
  induction path with
  | refl => exact List.infix_rfl
  | @tail y z _ calls ih =>
    refine List.IsInfix.trans ?_ ih
    rw [course_eq y]
    have inner := course_isInfix_flatMap calls.mem_calls
    exact (inner.trans (List.infix_cons List.infix_rfl)).trans (List.prefix_append _ _).isInfix

/-- The instants of what a point performs are those of points that it reaches. -/
theorem reaches_of_mem_course {x : Point} {i : Instant} (h : i ∈ x.course) :
    ∃ y, x.Reaches y ∧ (i = .starts y ∨ i = .ends y) := by
  induction e : x.fuel using Nat.strongRecOn generalizing x with
  | ind n ih =>
    subst e
    rw [course_eq, List.mem_append, List.mem_cons, List.mem_singleton, List.mem_flatMap] at h
    obtain (rfl | ⟨y, inside, h⟩) | rfl := h
    · exact ⟨x, .refl, .inl rfl⟩
    · have calls := calls_of_mem inside
      obtain ⟨z, path, here⟩ := ih _ calls.fuel_lt h rfl
      exact ⟨z, .head calls path, here⟩
    · exact ⟨x, .refl, .inr rfl⟩

end Point

/-- What each of the tasks passes through, and at the end one more instant. -/
theorem Eval.Performs.passage {S : InstanceId → String → Prop} {m m' : Machine} {ys : List Point}
    (h : Performs S m ys m') (each : ∀ y ∈ ys, Passage y.machine y.course y.after) :
    ∃ m₁, Passage m (ys.flatMap Point.course) m₁ ∧ m₁.KeepsFields S m' := by
  induction h with
  | rest h => exact ⟨_, .done (.refl _), h⟩
  | next before _ ih =>
    obtain ⟨first, others⟩ := List.forall_mem_cons.mp each
    obtain ⟨m₁, rest, last⟩ := ih others
    exact ⟨m₁, (first.later before).append rest, last⟩

theorem Point.passage_course (x : Point) : Passage x.machine x.course x.after := by
  induction e : x.fuel using Nat.strongRecOn generalizing x with
  | ind n ih =>
    subst e
    obtain ⟨m₁, inner, last⟩ := (Eval.Performs.rule x).passage fun y inside =>
      ih _ (Point.calls_of_mem inside).fuel_lt y rfl
    rw [course_eq]
    exact .next (.refl _) (inner.append (.next last (.done (.refl _))))

/-! ## The course of a session -/

/-- The points at which the statements start, in order. -/
def statementPoints (fuel : Nat) : List Stmt → Machine → List Point
  | [], _ => []
  | s :: ss, m => Point.andThen ⟨fuel, .stmt s, m⟩ fun _ m₁ => statementPoints fuel ss m₁

theorem mem_statementPoints {fuel : Nat} {ss : List Stmt} {m : Machine} {y : Point} :
    y ∈ statementPoints fuel ss m ↔ Starting fuel ss m y := by
  induction ss generalizing m with
  | nil => exact ⟨nofun, fun ⟨_, _, h, _⟩ => nomatch h⟩
  | cons s ss ih =>
    rw [statementPoints, Point.mem_andThen]
    constructor
    · rintro (rfl | ⟨flow, m₁, ran, h⟩)
      · exact ⟨s, m, .first, rfl⟩
      · obtain ⟨s', m', starts, rfl⟩ := ih.mp h
        exact ⟨s', m', .later ran starts, rfl⟩
    · rintro ⟨s', m', starts, rfl⟩
      cases starts with
      | first => exact .inl rfl
      | later ran rest => exact .inr ⟨_, _, ran, ih.mpr ⟨s', m', rest, rfl⟩⟩

theorem Eval.performs_topLevel (fuel : Nat) (ss : List Stmt) (m : Machine) :
    Performs NoField m (statementPoints fuel ss m) (machineOf (topLevel fuel ss m)) := by
  induction ss generalizing m with
  | nil => exact .rest (.refl m)
  | cons s ss ih => exact .andThen (x := ⟨fuel, .stmt s, m⟩) fun _ m₁ _ => ih m₁

theorem Eval.performs_program (fuel : Nat) (ss : List Stmt) (distances : Distances) (m : Machine) :
    Performs NoField m (statementPoints fuel ss { m with distances := distances })
      (machineOf (program fuel ss distances m)) := by
  have ran : program fuel ss distances m =
      (topLevel fuel ss >>= fun _ => flush) { m with distances := distances } := rfl
  have started : m.KeepsFields NoField { m with distances := distances } :=
    .of_fields rfl (Nat.le_refl _)
  have performed := (performs_topLevel fuel ss { m with distances := distances }).later started
  rw [ran]
  exact performed.closed (keepsFields_bind (.refl _) fun _ _ _ => saves_flush)

namespace Session

/-- The points for what a source was read as, if nothing was wrong with it. -/
def pointsOf {α : Type} (points : α → List Point) : Except Fault α → List Point
  | .ok a => points a
  | .error _ => []

/-- The points at which the step of a session starts, in order. -/
def firstPoints (fuel : Nat) (m : Machine) : Step → List Point
  | .evaluate source => pointsOf (fun e => [⟨fuel, .expr e, m⟩]) (Source.expression source)
  | .run source =>
    pointsOf (fun p => statementPoints fuel p.statements { m with distances := p.distances })
      (Source.checked source)
  | .runAt source distances =>
    pointsOf (fun ss => statementPoints fuel ss { m with distances := distances })
      (Source.statements source)

/-- The instants of a session, in order. -/
def course (fuel : Nat) (m : Machine) : List Step → List Instant
  | [] => [.rests m]
  | s :: ss =>
    .rests m :: (firstPoints fuel m s).flatMap Point.course ++ course fuel (step fuel m s).2 ss

section
variable {fuel : Nat} {m : Machine} {s : Step} {ss : List Step} {x y : Point}

theorem mem_pointsOf {α : Type} {points : α → List Point} {read : Except Fault α} :
    y ∈ pointsOf points read ↔ ∃ a, read = .ok a ∧ y ∈ points a := by
  cases read with
  | ok a =>
    refine ⟨fun h => ⟨a, rfl, h⟩, ?_⟩
    rintro ⟨_, ⟨⟩, h⟩
    exact h
  | error fault => exact iff_of_false List.not_mem_nil fun ⟨_, e, _⟩ => nomatch e

theorem mem_firstPoints : y ∈ firstPoints fuel m s ↔ Begins fuel m s y := by
  cases s with
  | evaluate source =>
    exact mem_pointsOf.trans (exists_congr fun e => and_congr_right fun _ => List.mem_singleton)
  | run source | runAt source distances =>
    exact mem_pointsOf.trans (exists_congr fun p => and_congr_right fun _ => mem_statementPoints)

theorem performs_proceed {α β : Type} (report : β → Report) {body : α → Eval β}
    {points : α → List Point} (read : Except Fault α)
    (h : ∀ a, Eval.Performs NoField m (points a) (machineOf (body a m))) :
    Eval.Performs NoField m (pointsOf points read) (proceed report body m read).2 := by
  cases read with
  | ok a =>
    rw [proceed, finish_machine]
    exact h a
  | error fault => exact .rest (.refl m)

theorem performs_step (fuel : Nat) (m : Machine) (s : Step) :
    Eval.Performs NoField m (firstPoints fuel m s) (step fuel m s).2 := by
  cases s with
  | evaluate source => exact performs_proceed _ _ fun e => .task ⟨fuel, .expr e, m⟩
  | run source =>
    exact performs_proceed _ _ fun p => Eval.performs_program fuel p.statements p.distances m
  | runAt source distances =>
    exact performs_proceed _ _ fun ss => Eval.performs_program fuel ss distances m

/-- The instants of a session follow one another. -/
theorem passage_course (fuel : Nat) (m : Machine) (ss : List Step) :
    Passage m (course fuel m ss) (machineAfter fuel m ss) := by
  induction ss generalizing m with
  | nil => exact .next (.refl m) (.done (.refl m))
  | cons s ss ih =>
    obtain ⟨m₁, inside, last⟩ :=
      (performs_step fuel m s).passage fun y _ => y.passage_course
    exact .next (.refl m) (inside.append ((ih _).later last))

theorem course_append (fuel : Nat) (m : Machine) (before ss : List Step) :
    ∃ earlier, course fuel m (before ++ ss) =
      earlier ++ course fuel (machineAfter fuel m before) ss := by
  induction before generalizing m with
  | nil => exact ⟨[], rfl⟩
  | cons s before ih =>
    obtain ⟨earlier, split⟩ := ih (step fuel m s).2
    refine ⟨.rests m :: (firstPoints fuel m s).flatMap Point.course ++ earlier, ?_⟩
    rw [List.cons_append, course, split, List.append_assoc]
    rfl

/-- A task of the session starts, performs others, and ends, at instants of the session. -/
theorem Comes.course_isInfix (comes : Comes fuel m ss x) : x.course <:+: course fuel m ss := by
  obtain ⟨before, s, after, rfl, y, begins, path⟩ := comes
  induction before generalizing m with
  | nil =>
    have inside := path.course_isInfix.trans
      (Point.course_isInfix_flatMap (mem_firstPoints.mpr begins))
    exact (inside.trans (List.infix_cons List.infix_rfl)).trans (List.prefix_append _ _).isInfix
  | cons _ before ih => exact (ih begins).trans (List.suffix_append _ _).isInfix

/-- The instants of a session are moments of it. -/
theorem moment_of_mem_course {i : Instant} (h : i ∈ course fuel m ss) :
    Moment fuel m ss i.machine i.values := by
  induction ss generalizing m with
  | nil =>
    cases List.mem_singleton.mp h
    exact .between
  | cons s ss ih =>
    rw [course, List.mem_append, List.mem_cons, List.mem_flatMap] at h
    obtain (rfl | ⟨y, begins, inside⟩) | h := h
    · exact .between
    · obtain ⟨x, path, here⟩ := Point.reaches_of_mem_course inside
      have visited : Visits fuel m s x := ⟨y, mem_firstPoints.mp begins, path⟩
      obtain rfl | rfl := here
      · exact .started visited
      · cases e : x.task.run x.fuel x.machine with
        | ok a m₁ =>
          have answered : Moment fuel m (s :: ss) m₁ (x.task.given a) := .answered visited e
          rw [Instant.machine, Point.after, Instant.values, e]
          exact answered
        | error stop m₁ =>
          have ended : Moment fuel m (s :: ss) x.after [] := .ended visited
          rw [Instant.machine, Instant.values, e]
          exact ended
    · exact .later (ih h)

theorem Comes.mem_course (comes : Comes fuel m ss x) :
    .starts x ∈ course fuel m ss ∧ .ends x ∈ course fuel m ss := by
  have inside := comes.course_isInfix.subset
  rw [Point.course_eq] at inside
  exact ⟨inside List.mem_cons_self, inside (List.mem_append_right _ (List.mem_singleton_self _))⟩

/-- Where a task of the session ends, its answer is at hand. -/
theorem Comes.answered (comes : Comes fuel m ss x) {a : x.task.Answer} {m' : Machine}
    (e : x.task.run x.fuel x.machine = .ok a m') : Moment fuel m ss m' (x.task.given a) := by
  have moment := moment_of_mem_course comes.mem_course.2
  rw [Instant.machine, Point.after, Instant.values, e] at moment
  exact moment

/-- Identities are given out in order. -/
theorem nextIdentity_le {before after : List Instant} {i j : Instant}
    (split : course fuel m ss = before ++ i :: after) (earlier : j ∈ before ++ [i]) :
    j.machine.nextIdentity ≤ i.machine.nextIdentity := by
  have up := (split ▸ passage_course fuel m ss).split.1
  obtain ⟨_, _, e⟩ := List.append_of_mem earlier
  exact (e ▸ up).split.2.nextIdentity_le

/-- A field stays as it is from one instant to another if it is not set in between. -/
theorem field_of_unset {before between after : List Instant} {i j : Instant}
    (split : course fuel m ss = before ++ i :: (between ++ j :: after)) {o : InstanceId}
    {name : String} (unset : ∀ k ∈ between ++ [j], ¬ k.StoresTo o name) :
    j.machine.heap.field? o name = i.machine.heap.field? o name :=
  (split ▸ passage_course fuel m ss).split.2.split.1.field unset

end

end Session

end Lox
