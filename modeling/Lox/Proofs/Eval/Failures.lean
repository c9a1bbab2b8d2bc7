import Lox.Proofs.Eval.Rules

/-!
# Where failures come from

A task that fails does so in one of the ways in which its own rule fails (`Task.Raises`), or because
a task that it calls fails (`blames_task`). So every failure of a program, but for that of the last
flush, was raised by the rule of a point of its run (`Checked.failure_origin`).
-/

namespace Lox

/-- The task of the point ends without an answer. -/
def Point.Stops (x : Point) (s : Stop) : Prop :=
  ∃ m', x.task.run x.fuel x.machine = .error s m'

namespace Eval

variable {α β : Type}

/-- If the computation ends without a value, then for lack of fuel, because one of the points in `Z`
does, or with a failure in `P`. -/
def Blames (x : Eval α) (m : Machine) (Z : Point → Prop) (P : Failure → Prop) : Prop :=
  ∀ s m', x m = .error s m' →
    s = .outOfFuel ∨ (∃ y, Z y ∧ y.Stops s) ∨ ∃ failure, s = .failed failure ∧ P failure

section
variable {m : Machine} {Z : Point → Prop} {P : Failure → Prop}

/-! ## Sequencing -/

theorem blames_pure {a : α} : Blames (pure a) m Z P :=
  nofun

theorem blames_ok {x : Eval α} {a : α} {m₁ : Machine} (h : x m = .ok a m₁) : Blames x m Z P := by
  intro s m' e
  cases h.symm.trans e

theorem blames_outOfFuel : Blames (throw .outOfFuel : Eval α) m Z P := by
  rintro s m' ⟨⟩
  exact .inl rfl

theorem blames_fail {blamed : Lexeme} {cause : RuntimeCause} (h : P (blamed.blamedFor cause)) :
    Blames (fail blamed cause : Eval α) m Z P := by
  rintro s m' ⟨⟩
  exact .inr (.inr ⟨_, rfl, h⟩)

theorem blames_bind {x : Eval α} {f : α → Eval β} (hx : Blames x m Z P)
    (hf : ∀ a m₁, x m = .ok a m₁ → Blames (f a) m₁ Z P) : Blames (x >>= f) m Z P := by
  intro s m' e
  rcases bind_eq_error.mp e with e | ⟨a, m₁, e, e'⟩
  · exact hx s m' e
  · exact hf a m₁ e s m' e'

theorem blames_within {frame : FrameId} {body : Eval α}
    (h : Blames body { m with current := frame } Z P) : Blames (within frame body) m Z P := by
  intro s m' e
  cases inside : body { m with current := frame } with
  | ok a m₁ => cases (within_of_ok inside).symm.trans e
  | error s' m₁ =>
    cases (within_of_error inside).symm.trans e
    exact h s m₁ inside

theorem blames_point {n : Nat} {t : Task} (h : Z ⟨n, t, m⟩) : Blames (t.run n) m Z P :=
  fun _ m' e => .inr (.inl ⟨_, h, m', e⟩)

/-! ## Operations -/

theorem blames_lookUp {id : ExprId} {name : Lexeme}
    (h : P (name.blamedFor (.undefinedVariable name.text))) : Blames (lookUp id name) m Z P := by
  intro s m' e
  unfold lookUp at e
  split at e
  · cases e
  · split at e
    · cases e
    · exact blames_fail h s m' e

theorem blames_assignFrom {frame : FrameId} {name : Lexeme} {v : Value}
    (h : P (name.blamedFor (.undefinedVariable name.text))) :
    Blames (assignFrom frame name v) m Z P := by
  intro s m' e
  unfold assignFrom at e
  split at e
  · cases e
  · exact blames_fail h s m' e

theorem blames_assign {id : ExprId} {name : Lexeme} {v : Value}
    (h : P (name.blamedFor (.undefinedVariable name.text))) : Blames (assign id name v) m Z P := by
  intro s m' e
  unfold assign at e
  split at e
  · cases e
  · exact blames_assignFrom h s m' e

theorem blames_write {text : String} (h : P (.io .sinkFull)) : Blames (write text) m Z P := by
  intro s m' e
  unfold write at e
  split at e
  · split at e
    · cases e
      exact .inr (.inr ⟨_, rfl, h⟩)
    · cases e
  · cases e

theorem blames_result {f : Function} {flow : Flow} : Blames (result f flow) m Z P := by
  intro s m' e
  unfold result at e
  split at e
  · cases e
  · split at e <;> cases e

end

/-- A rule fails in its own ways, or because a task that it calls fails. -/
theorem blames_rule (x : Point) :
    x.Composes fun _ y m => Blames y m (Point.Calls x) x.task.Raises where
  outOfFuel := blames_outOfFuel
  pure _ := blames_pure
  bind := blames_bind
  within := blames_within
  calls := blames_point
  fail := blames_fail
  get _ := id
  currentFrame := blames_ok rfl
  freshIdentity := blames_ok rfl
  newFrame _ _ := blames_ok rfl
  newInstance _ := blames_ok rfl
  readClock := blames_ok rfl
  lookUpAt _ _ := blames_ok rfl
  lookUp _ raises := blames_lookUp raises
  setProperty _ _ _ := blames_ok rfl
  result _ _ := blames_result
  assignFrom _ _ raises := blames_assignFrom raises
  assign here _ := blames_assign (here ▸ .assign)
  define _ _ _ := blames_ok rfl
  declare _ _ := blames_ok rfl
  bindMethod _ := blames_ok (bind_apply ..)
  bindSuper _ := blames_ok rfl
  bindParams _ := blames_ok (bindParams_apply ..)
  write e _ := blames_write (e ▸ .sinkFull)

/-- A task that fails does so by its own rule, or because a task that it calls fails. -/
theorem blames_task (n : Nat) (t : Task) (m : Machine) :
    Blames (t.run n) m (Point.Calls ⟨n, t, m⟩) t.Raises :=
  (blames_rule ⟨n, t, m⟩).task

end Eval

/-! ## Origins -/

theorem Point.Calls.fuel_lt {x y : Point} (h : x.Calls y) : y.fuel < x.fuel := by
  cases h <;> exact Nat.lt_succ_self _

/-- A failure was raised by the rule of a point that the failing point comes to. -/
theorem Point.Stops.origin {x : Point} {failure : Failure} (h : x.Stops (.failed failure)) :
    ∃ y, x.Reaches y ∧ y.task.Raises failure ∧ y.Stops (.failed failure) := by
  obtain ⟨m', e⟩ := h
  rcases Eval.blames_task x.fuel x.task x.machine _ m' e with ⟨⟨⟩⟩ | ⟨y, calls, stops⟩ |
    ⟨failure', same, raises⟩
  · have := calls.fuel_lt
    obtain ⟨z, path, origin⟩ := stops.origin
    exact ⟨z, .head calls path, origin⟩
  · cases same
    exact ⟨x, .refl, raises, m', e⟩
termination_by x.fuel

/-- If statements fail, one of them does. -/
theorem Starting.of_failed {fuel : Nat} {ss : List Stmt} {m m' : Machine} {s : Stop}
    (e : Eval.topLevel fuel ss m = .error s m') :
    ∃ y, Starting fuel ss m y ∧ y.Stops s := by
  induction ss generalizing m with
  | nil => cases e
  | cons first ss ih =>
    rcases bind_eq_error.mp e with e | ⟨flow, m₁, e, e'⟩
    · exact ⟨⟨fuel, .stmt first, m⟩, ⟨first, m, .first, rfl⟩, m', e⟩
    · obtain ⟨y, ⟨s', m₂, starts, rfl⟩, stops⟩ := ih e'
      exact ⟨_, ⟨s', m₂, .later e starts, rfl⟩, stops⟩

/-- The failure of a program was raised by the rule of a point of its run, or by the last flush. -/
theorem Checked.failure_origin {p : Checked} {host : Host} {fuel : Nat} {failure : Failure}
    {m' : Machine} (e : Eval.program fuel p.statements p.distances (Machine.start host) =
      .error (.failed failure) m') :
    failure = .io .flushFailed ∨
      ∃ y, Reached p host fuel y ∧ y.task.Raises failure ∧ y.Stops (.failed failure) := by
  have run : (Eval.topLevel fuel p.statements >>= fun _ => Eval.flush) (p.start host) =
      .error (.failed failure) m' := e
  rcases bind_eq_error.mp run with e | ⟨_, m₁, -, e⟩
  · obtain ⟨_, ⟨s, m, starts, rfl⟩, stops⟩ := Starting.of_failed e
    obtain ⟨y, path, origin⟩ := stops.origin
    exact .inr ⟨y, ⟨s, m, starts, path⟩, origin⟩
  · unfold Eval.flush at e
    split at e <;> cases e
    exact .inl rfl

end Lox
