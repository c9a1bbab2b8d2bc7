import Lox.Proofs.Eval.Discipline.Tasks

/-!
# Sessions under a discipline

The points of a session are those of its steps (`Session.Visits`), and its moments are those between
the steps, and those at which a task starts and ends, with the values that are then at hand
(`Session.Moment`). A discipline that allows the points of a session and all names that its sources
bind (`Step.Writes`) leads on through the session, and every moment lies between the stages at which
the session starts and ends (`Discipline.leads_session_visiting`).
-/

namespace Lox

/-- The machine on which the task of the point ends. -/
def Point.after (x : Point) : Machine :=
  machineOf (x.task.run x.fuel x.machine)

/-- What the source of the step is read as binds the name. -/
def Step.Writes : Step → String → Prop
  | .evaluate source, n => ∃ e, Source.expression source = .ok e ∧ n ∈ e.written
  | .run source, n => ∃ p, Source.checked source = .ok p ∧ n ∈ Stmt.writtenList p.statements
  | .runAt source _, n => ∃ ss, Source.statements source = .ok ss ∧ n ∈ Stmt.writtenList ss

namespace Session

/-- The points at which the step `s` of a session on the machine `m` starts. -/
def Begins (fuel : Nat) (m : Machine) : Step → Point → Prop
  | .evaluate source, y => ∃ e, Source.expression source = .ok e ∧ y = ⟨fuel, .expr e, m⟩
  | .run source, y => ∃ p, Source.checked source = .ok p ∧
    Starting fuel p.statements { m with distances := p.distances } y
  | .runAt source distances, y => ∃ ss, Source.statements source = .ok ss ∧
    Starting fuel ss { m with distances := distances } y

/-- The point `x` belongs to the step `s` of a session on the machine `m`. -/
def Visits (fuel : Nat) (m : Machine) (s : Step) (x : Point) : Prop :=
  ∃ y, Begins fuel m s y ∧ y.Reaches x

/-- The point `x` belongs to a session that takes the steps `ss` on the machine `m`. -/
def Comes (fuel : Nat) (m : Machine) (ss : List Step) (x : Point) : Prop :=
  ∃ before s after, ss = before ++ s :: after ∧ Visits fuel (machineAfter fuel m before) s x

/-- A session that takes the steps `ss` on the machine `m` comes to a moment at which the machine is
`m'` and the values `vs` are at hand. -/
inductive Moment (fuel : Nat) : Machine → List Step → Machine → List Value → Prop
  | between {m ss} : Moment fuel m ss m []
  | started {m s ss x} (visited : Visits fuel m s x) :
    Moment fuel m (s :: ss) x.machine x.task.values
  | ended {m s ss x} (visited : Visits fuel m s x) :
    Moment fuel m (s :: ss) x.after []
  | answered {m s ss x a m'} (visited : Visits fuel m s x)
    (e : x.task.run x.fuel x.machine = .ok a m') : Moment fuel m (s :: ss) m' (x.task.given a)
  | later {m s ss m' vs} (rest : Moment fuel (step fuel m s).2 ss m' vs) :
    Moment fuel m (s :: ss) m' vs

end Session

namespace Discipline

open Session

variable {R : Type} [Preorder R] {D : Discipline R} {r : R} {m : Machine}

theorem Covers.reaches {x y : Point} {r' : R} (h : D.Covers r x r') (path : x.Reaches y) :
    D.Covers r y r' :=
  fun z path' => h z (path.trans path')

/-- A step that runs what a source was read as leads on as that does. -/
theorem leads_proceed {α β : Type} (report : β → Report) {body : α → Eval β}
    {Z : α → Point → Prop} {P : α → R → β → Prop} (ready : D.Ready r m) (read : Except Fault α)
    (leads : ∀ a, read = .ok a → D.Leads r m (body a) (Z a) (P a)) :
    ∃ r', r ≤ r' ∧ D.Ready r' (proceed report body m read).2 ∧
      ∀ a y, read = .ok a → Z a y → D.Covers r y r' := by
  cases read with
  | error fault => exact ⟨r, le_refl r, ready, nofun⟩
  | ok a =>
    obtain ⟨r', le, ready', covers, -⟩ := leads a rfl ready
    refine ⟨r', le, ?_, fun b y e hy => ?_⟩
    · rw [proceed, finish_machine]
      exact ready'
    · cases e
      exact covers y hy

theorem leads_step_visiting (fuel : Nat) (ready : D.Ready r m) (s : Step)
    (visits : ∀ x, Visits fuel m s x → D.visits x) (writes : ∀ n, s.Writes n → D.name n) :
    ∃ r', r ≤ r' ∧ D.Ready r' (step fuel m s).2 ∧ ∀ x, Visits fuel m s x → D.Covers r x r' := by
  obtain ⟨r', le, ready', covers⟩ : ∃ r', r ≤ r' ∧ D.Ready r' (step fuel m s).2 ∧
      ∀ y, Begins fuel m s y → D.Covers r y r' := by
    cases s with
    | evaluate source =>
      obtain ⟨r', le, ready', covers⟩ := leads_proceed .value ready (Source.expression source)
        fun e read => leads_task fuel (t := .expr e) (visits _ ⟨_, ⟨e, read, rfl⟩, .refl⟩)
          fun n h => writes n ⟨e, read, h⟩
      exact ⟨r', le, ready', fun y ⟨e, read, begins⟩ => covers e y read begins⟩
    | run source =>
      obtain ⟨r', le, ready', covers⟩ := leads_proceed (fun _ => .done) ready
        (Source.checked source) fun p read =>
          leads_program fuel p.distances (fun y begins => visits y ⟨y, ⟨p, read, begins⟩, .refl⟩)
            fun n h => writes n ⟨p, read, h⟩
      exact ⟨r', le, ready', fun y ⟨p, read, begins⟩ => covers p y read begins⟩
    | runAt source distances =>
      obtain ⟨r', le, ready', covers⟩ := leads_proceed (fun _ => .done) ready
        (Source.statements source) fun ss read =>
          leads_program fuel distances (fun y begins => visits y ⟨y, ⟨ss, read, begins⟩, .refl⟩)
            fun n h => writes n ⟨ss, read, h⟩
      exact ⟨r', le, ready', fun y ⟨ss, read, begins⟩ => covers ss y read begins⟩
  exact ⟨r', le, ready', fun x ⟨y, begins, path⟩ => (covers y begins).reaches path⟩

theorem leads_step_writing (fuel : Nat) (every : ∀ x, D.visits x) (ready : D.Ready r m) (s : Step)
    (writes : ∀ n, s.Writes n → D.name n) :
    ∃ r', r ≤ r' ∧ D.Ready r' (step fuel m s).2 ∧ ∀ x, Visits fuel m s x → D.Covers r x r' :=
  leads_step_visiting fuel ready s (fun x _ => every x) writes

/-- A session leads on, and all its moments and points lie between the stages at which it starts and
ends. -/
theorem leads_session_visiting (fuel : Nat) (ready : D.Ready r m) (ss : List Step)
    (visits : ∀ x, Comes fuel m ss x → D.visits x)
    (writes : ∀ s ∈ ss, ∀ n, s.Writes n → D.name n) :
    ∃ r', r ≤ r' ∧ D.Ready r' (machineAfter fuel m ss) ∧
      (∀ m' vs, Moment fuel m ss m' vs →
        ∃ r₁, r ≤ r₁ ∧ r₁ ≤ r' ∧ D.Ready r₁ m' ∧ ∀ v ∈ vs, D.value r₁ v) ∧
      ∀ x, Comes fuel m ss x → D.Covers r x r' := by
  induction ss generalizing r m with
  | nil =>
    refine ⟨r, le_refl r, ready, fun m' vs moment => ?_, ?_⟩
    · cases moment
      exact ⟨r, le_refl r, le_refl r, ready, nofun⟩
    · rintro x ⟨before, _, _, split, -⟩
      cases before <;> cases split
  | cons s ss ih =>
    obtain ⟨first, others⟩ := List.forall_mem_cons.mp writes
    obtain ⟨r₁, le, ready₁, covers⟩ := leads_step_visiting fuel ready s
      (fun x visited => visits x ⟨[], s, ss, rfl, visited⟩) first
    obtain ⟨r₂, le', ready₂, moments, points⟩ := ih ready₁ (fun x ⟨before, s', after, e, visited⟩ =>
      visits x ⟨s :: before, s', after, congrArg (s :: ·) e, visited⟩) others
    refine ⟨r₂, le_trans le le', ready₂, fun m' vs moment => ?_, ?_⟩
    · cases moment with
      | between => exact ⟨r, le_refl r, le_trans le le', ready, nofun⟩
      | started visited =>
        obtain ⟨s₁, s₂, a, b, c, start, admitted, -⟩ := covers _ visited _ .refl
        exact ⟨s₁, a, le_trans b (le_trans c le'), start, value_of_admits admitted⟩
      | ended visited =>
        obtain ⟨s₁, s₂, a, b, c, -, -, atEnd, -⟩ := covers _ visited _ .refl
        exact ⟨s₂, le_trans a b, le_trans c le', atEnd, nofun⟩
      | answered visited e =>
        obtain ⟨s₁, s₂, a, b, c, -, -, atEnd, gives⟩ := covers _ visited _ .refl
        rw [e] at atEnd
        exact ⟨s₂, le_trans a b, le_trans c le', atEnd, value_of_gives (gives _ _ e)⟩
      | later rest =>
        obtain ⟨s₁, a, b, rest⟩ := moments m' vs rest
        exact ⟨s₁, le_trans le a, b, rest⟩
    · rintro x ⟨before, s', after, split, visited⟩
      cases before with
      | nil =>
        cases split
        exact (covers x visited).mono (le_refl r) le'
      | cons _ before =>
        cases split
        exact (points x ⟨before, s', after, rfl, visited⟩).mono le (le_refl r₂)

theorem leads_session_writing (fuel : Nat) (every : ∀ x, D.visits x) (ready : D.Ready r m)
    (ss : List Step) (writes : ∀ s ∈ ss, ∀ n, s.Writes n → D.name n) :
    ∃ r', r ≤ r' ∧ D.Ready r' (machineAfter fuel m ss) ∧
      (∀ m' vs, Moment fuel m ss m' vs →
        ∃ r₁, r ≤ r₁ ∧ r₁ ≤ r' ∧ D.Ready r₁ m' ∧ ∀ v ∈ vs, D.value r₁ v) ∧
      ∀ x, Comes fuel m ss x → D.Covers r x r' :=
  leads_session_visiting fuel ready ss (fun x _ => every x) writes

theorem leads_step_of_session (fuel : Nat) (every : ∀ x, D.visits x) (all : ∀ n, D.name n)
    (ready : D.Ready r m) (s : Step) :
    ∃ r', r ≤ r' ∧ D.Ready r' (step fuel m s).2 ∧ ∀ x, Visits fuel m s x → D.Covers r x r' :=
  leads_step_writing fuel every ready s fun n _ => all n

/-- A session leads on, and all its moments lie between the stages at which it starts and ends. -/
theorem leads_session (fuel : Nat) (every : ∀ x, D.visits x) (all : ∀ n, D.name n)
    (ready : D.Ready r m) (ss : List Step) :
    ∃ r', r ≤ r' ∧ D.Ready r' (machineAfter fuel m ss) ∧
      ∀ m' vs, Moment fuel m ss m' vs →
        ∃ r₁, r ≤ r₁ ∧ r₁ ≤ r' ∧ D.Ready r₁ m' ∧ ∀ v ∈ vs, D.value r₁ v := by
  obtain ⟨r', le, ready', moments, -⟩ :=
    leads_session_writing fuel every ready ss fun _ _ n _ => all n
  exact ⟨r', le, ready', moments⟩

end Discipline

end Lox
