import Lox.Proofs.Eval.Changes
import Lox.Proofs.Eval.Dispatch

/-!
# Every frame is made at one point

The frames that are made while a task is performed are those between two numbers (`Point.Spans`).
The frames of the tasks that a point calls follow each other (`Point.Calls.ordered`), and a frame
that the point makes itself is none of them (`Point.Opens.apart`). So no frame is made at two points
of a run (`Reached.opener_unique`).
-/

namespace Lox

section
variable {source : String} {p : Checked} {host : Host} {fuel : Nat} {x y z : Point} {f : FrameId}
  {a b : Purpose}

/-- A program that is run on its own keeps the shape of the heap, whatever it declares. -/
theorem Checked.keeps_shape (p : Checked) (host : Host) (fuel : Nat) :
    ∃ r', Shape.start (fun _ => True) host ≤ r' ∧
      (shaped fun _ => True).Ready r'
        (machineOf (Eval.program fuel p.statements p.distances (.start host))) ∧
      ∀ y, Starting fuel p.statements (p.start host) y →
        (shaped fun _ => True).Covers (Shape.start _ host) y r' := by
  obtain ⟨r', le, ready, covers, -⟩ := Discipline.leads_program fuel p.distances
    (fun _ _ => trivial) (fun _ _ => trivial) (Shape.ready_start _ host)
  exact ⟨r', le, ready, covers⟩

/-- While a point comes to another one and returns from it, the heap evolves. -/
theorem Reached.evolves (reached : Reached p host fuel x) (path : x.Reaches y) :
    x.machine.heap.Evolves y.machine.heap ∧ y.machine.heap.Evolves y.after.heap ∧
      y.after.heap.Evolves x.after.heap := by
  obtain ⟨s, m, starts, path₀⟩ := reached
  obtain ⟨r', -, -, covers⟩ := p.keeps_shape host fuel
  obtain ⟨r₁, r₂, -, -, -, start, admitted, -⟩ := covers _ ⟨s, m, starts, rfl⟩ x path₀
  obtain ⟨r₃, -, atEnd, covers, -⟩ := Discipline.leads_task x.fuel trivial admitted start
  obtain ⟨s₁, s₂, a, b, c, start', -, atEnd', -⟩ := covers x rfl y path
  exact ⟨Shape.evolves a start start', Shape.evolves b start' atEnd',
    Shape.evolves c atEnd' atEnd⟩

/-! ## The order of points -/

/-- The second point starts when the first has made its frames. -/
def Point.Precedes (x y : Point) : Prop :=
  x.after.heap.frames.size ≤ y.machine.heap.frames.size

theorem Task.size_le {n : Nat} {t : Task} {m m' : Machine} {a : t.Answer}
    (e : t.run n m = .ok a m') : m.heap.frames.size ≤ m'.heap.frames.size := by
  have le := (Eval.changes_task n t m).size
  rwa [e] at le

/-- A task that gives an answer precedes what starts on the machine that it leaves, or later. -/
theorem Point.Precedes.of_ok {n : Nat} {t : Task} {m m' : Machine} {a : t.Answer}
    (e : t.run n m = .ok a m') (le : m'.heap.frames.size ≤ y.machine.heap.frames.size) :
    Point.Precedes ⟨n, t, m⟩ y := by
  unfold Precedes Point.after
  rwa [e]

theorem Point.Precedes.of_expr {n : Nat} {e : Expr} {v : Value} {m m' : Machine} {t : Task}
    (h : Eval.expr n e m = .ok v m') : Point.Precedes ⟨n, .expr e, m⟩ ⟨n, t, m'⟩ :=
  .of_ok (t := .expr e) h (Nat.le_refl _)

/-- Of two tasks that a point calls one is performed before the other. -/
theorem Point.Calls.ordered (h : x.Calls y) (h' : x.Calls z) :
    y = z ∨ y.Precedes z ∨ z.Precedes y := by
  cases h with
  | binaryLeft | logicalLeft | setValue | firstOf | ifThenCondition =>
    cases h'
    exacts [.inl rfl, .inr (.inl (.of_expr ‹_›))]
  | binaryRight e | setObject e | restOf e =>
    cases h' <;> rename_i e'
    · exact .inr (.inr (.of_expr e))
    · cases e.symm.trans e'
      exact .inl rfl
  | logicalRight e =>
    cases h' with
    | logicalLeft => exact .inr (.inr (.of_expr e))
    | logicalRight e' =>
      cases e.symm.trans e'
      exact .inl rfl
  | ifThen e =>
    cases h' with
    | ifThenCondition => exact .inr (.inr (.of_expr e))
    | ifThen e' =>
      cases e.symm.trans e'
      exact .inl rfl
  | callee =>
    cases h' with
    | callee => exact .inl rfl
    | arguments e => exact .inr (.inl (.of_expr e))
    | apply e e' => exact .inr (.inl (.of_ok (t := .expr _) e (Task.size_le (t := .exprs _) e')))
  | arguments e =>
    cases h' with
    | callee => exact .inr (.inr (.of_expr e))
    | arguments e' =>
      cases e.symm.trans e'
      exact .inl rfl
    | apply e' e'' =>
      cases e.symm.trans e'
      exact .inr (.inl (.of_ok (t := .exprs _) e'' (Nat.le_refl _)))
  | apply e e₁ =>
    cases h' with
    | callee => exact .inr (.inr (.of_ok (t := .expr _) e (Task.size_le (t := .exprs _) e₁)))
    | arguments e' =>
      cases e.symm.trans e'
      exact .inr (.inr (.of_ok (t := .exprs _) e₁ (Nat.le_refl _)))
    | apply e' e₁' =>
      cases e.symm.trans e'
      cases e₁.symm.trans e₁'
      exact .inl rfl
  | initializer found made =>
    cases h' with
    | initializer found' made' =>
      cases found.symm.trans found'
      cases made.symm.trans made'
      exact .inl rfl
  | ifElseCondition =>
    cases h'
    exacts [.inl rfl, .inr (.inl (.of_expr ‹_›)), .inr (.inl (.of_expr ‹_›))]
  | ifElseThen e holds =>
    cases h' with
    | ifElseCondition => exact .inr (.inr (.of_expr e))
    | ifElseThen e' =>
      cases e.symm.trans e'
      exact .inl rfl
    | ifElse e' fails =>
      cases e.symm.trans e'
      cases holds.symm.trans fails
  | ifElse e fails =>
    cases h' with
    | ifElseCondition => exact .inr (.inr (.of_expr e))
    | ifElseThen e' holds =>
      cases e.symm.trans e'
      cases holds.symm.trans fails
    | ifElse e' =>
      cases e.symm.trans e'
      exact .inl rfl
  | firstStmt =>
    cases h' with
    | firstStmt => exact .inl rfl
    | restStmts e => exact .inr (.inl (.of_ok (t := .stmt _) e (Nat.le_refl _)))
  | restStmts e =>
    cases h' with
    | firstStmt => exact .inr (.inr (.of_ok (t := .stmt _) e (Nat.le_refl _)))
    | restStmts e' =>
      cases e.symm.trans e'
      exact .inl rfl
  | loopCondition =>
    cases h' with
    | loopCondition => exact .inl rfl
    | loopBody e => exact .inr (.inl (.of_expr e))
    | loopAgain e _ e' =>
      exact .inr (.inl (.of_ok (t := .expr _) e (Task.size_le (t := .stmt _) e')))
  | loopBody e =>
    cases h' with
    | loopCondition => exact .inr (.inr (.of_expr e))
    | loopBody e' =>
      cases e.symm.trans e'
      exact .inl rfl
    | loopAgain e' _ e'' =>
      cases e.symm.trans e'
      exact .inr (.inl (.of_ok (t := .stmt _) e'' (Nat.le_refl _)))
  | loopAgain e _ e₁ =>
    cases h' with
    | loopCondition => exact .inr (.inr (.of_ok (t := .expr _) e (Task.size_le (t := .stmt _) e₁)))
    | loopBody e' =>
      cases e.symm.trans e'
      exact .inr (.inr (.of_ok (t := .stmt _) e₁ (Nat.le_refl _)))
    | loopAgain e' _ e₁' =>
      cases e.symm.trans e'
      cases e₁.symm.trans e₁'
      exact .inl rfl
  | _ =>
    cases h'
    exact .inl rfl

/-- Of two statements of a program one is run before the other. -/
theorem Starting.ordered {ss : List Stmt} {m : Machine} (h : Starting fuel ss m y)
    (h' : Starting fuel ss m z) : y = z ∨ y.Precedes z ∨ z.Precedes y := by
  have le {ss : List Stmt} {s : Stmt} {m m' : Machine} (starts : Starts fuel ss m s m') :
      m.heap.frames.size ≤ m'.heap.frames.size := by
    induction starts with
    | first => exact Nat.le_refl _
    | later ran _ ih => exact Nat.le_trans (Task.size_le (t := .stmt _) ran) ih
  obtain ⟨s, m₁, starts, rfl⟩ := h
  obtain ⟨s', m₂, starts', rfl⟩ := h'
  induction starts with
  | first =>
    cases starts' with
    | first => exact .inl rfl
    | later ran rest => exact .inr (.inl (.of_ok (t := .stmt _) ran (le rest)))
  | later ran rest ih =>
    cases starts' with
    | first => exact .inr (.inr (.of_ok (t := .stmt _) ran (le rest)))
    | later ran' rest' =>
      cases ran.symm.trans ran'
      exact ih rest'

/-! ## The frames of a point -/

/-- The frame is made while the task of the point is performed. -/
def Point.Spans (x : Point) (f : FrameId) : Prop :=
  x.machine.heap.frames.size ≤ f ∧ f < x.after.heap.frames.size

theorem Point.Precedes.apart (h : x.Precedes y) (hx : x.Spans f) : ¬ y.Spans f :=
  fun hy => absurd (Nat.lt_of_lt_of_le hx.2 h) (Nat.not_lt.mpr hy.1)

theorem Point.Spans.reaches (h : y.Spans f) (reached : Reached p host fuel x)
    (path : x.Reaches y) : x.Spans f := by
  obtain ⟨before, -, behind⟩ := reached.evolves path
  exact ⟨Nat.le_trans before.size h.1, Nat.lt_of_lt_of_le h.2 behind.size⟩

/-- What a point makes is made while it is performed. -/
theorem Point.Opens.spans (accepted : Source.check source = .ok p) (reached : Reached p host fuel x)
    (opens : x.Opens f a) : x.Spans f := by
  -- The frame is there when a task that the point calls starts.
  have called {y : Point} (calls : x.Calls y) (made : f < y.machine.heap.frames.size) :
      f < x.after.heap.frames.size := by
    obtain ⟨-, during, behind⟩ := reached.evolves (.single calls)
    exact Nat.lt_of_lt_of_le made (Nat.le_trans during.size behind.size)
  cases opens with
  | block =>
    exact ⟨Nat.le_refl _, called .block (Heap.lt_size_of_enclosing? (Machine.enclosing?_enter ..))⟩
  | call =>
    refine ⟨Nat.le_refl _, called .body ?_⟩
    exact Heap.lt_size_of_enclosing? (Machine.enclosing?_activate ..)
  | @super n m m₁ name superclass methods c declared yields =>
    obtain ⟨m', ran, bound⟩ := Eval.super_of_declareClass methods
      (reached.current_lt accepted) declared yields
    have after : Point.after ⟨n + 1, .stmt (.classDecl name superclass methods), m⟩ = m' := by
      rw [Point.after, Task.run, Eval.stmt, bind_of_ok ran]
      rfl
    exact ⟨Nat.le_refl _, after ▸ Heap.lt_size_of_lookup? bound⟩
  | @receiver _ g o m binds =>
    have made := Heap.lt_size_of_lookup? (m.lookup?_afterBinding g o)
    refine ⟨?_, ?_⟩
    · cases binds with
      | property evaluated => exact Task.size_le (t := .expr _) evaluated
      | super => exact Nat.le_refl _
      | initializer _ instanceMade =>
        cases instanceMade
        exact Nat.le_refl _
    · rcases binds.afterBinding_eq with e | ⟨y, calls, e⟩
      · exact e ▸ made
      · exact called calls (e ▸ made)

/-- What a point makes itself is not made by a task that it calls. -/
theorem Point.Opens.apart (opens : x.Opens f a) (calls : x.Calls y) : ¬ y.Spans f := by
  intro spans
  cases opens with
  | block =>
    cases calls
    exact absurd (Heap.lt_size_of_enclosing? (Machine.enclosing?_enter ..)) (Nat.not_lt.mpr spans.1)
  | call =>
    cases calls
    exact absurd (Heap.lt_size_of_enclosing? (Machine.enclosing?_activate ..))
      (Nat.not_lt.mpr spans.1)
  | super => cases calls
  | @receiver _ g o m binds =>
    cases binds with
    | property evaluated =>
      cases calls
      have gone := spans.2
      rw [Point.after, Task.run, evaluated] at gone
      exact absurd gone (Nat.lt_irrefl _)
    | super => cases calls
    | initializer found made =>
      cases calls with
      | initializer found' made' =>
        cases found.symm.trans found'
        cases made.symm.trans made'
        exact absurd (Heap.lt_size_of_lookup? (m.lookup?_afterBinding g o)) (Nat.not_lt.mpr spans.1)

/-! ## Uniqueness -/

/-- Of the points that one point comes to, only one makes the frame. -/
theorem Reached.opener_unique_of_reaches (accepted : Source.check source = .ok p)
    (reached : Reached p host fuel x) (pathY : x.Reaches y) (pathZ : x.Reaches z)
    (opensY : y.Opens f a) (opensZ : z.Opens f b) : y = z := by
  have spans {w v : Point} {a : Purpose} (hw : Reached p host fuel w) (path : w.Reaches v)
      (opens : v.Opens f a) : w.Spans f := by
    obtain ⟨s, m, starts, path₀⟩ := id hw
    exact (opens.spans accepted ⟨s, m, starts, path₀.trans path⟩).reaches hw path
  induction pathY using Relation.ReflTransGen.head_induction_on with
  | refl =>
    rcases Relation.ReflTransGen.cases_head pathZ with rfl | ⟨c, calls, rest⟩
    · rfl
    · exact absurd (spans (reached.calls calls) rest opensZ) (opensY.apart calls)
  | @head x c calls pathY ih =>
    have reachedC := reached.calls calls
    rcases Relation.ReflTransGen.cases_head pathZ with rfl | ⟨c', calls', rest⟩
    · exact absurd (spans reachedC pathY opensY) (opensZ.apart calls)
    · have spansY := spans reachedC pathY opensY
      have spansZ := spans (reached.calls calls') rest opensZ
      rcases calls.ordered calls' with rfl | before | behind
      · exact ih reachedC rest
      · exact absurd spansZ (before.apart spansY)
      · exact absurd spansY (behind.apart spansZ)

/-- No frame is made at two points of a run. -/
theorem Reached.opener_unique (accepted : Source.check source = .ok p)
    (reachedX : Reached p host fuel x) (reachedY : Reached p host fuel y)
    (opensX : x.Opens f a) (opensY : y.Opens f b) : x = y := by
  have spansX := opensX.spans accepted reachedX
  have spansY := opensY.spans accepted reachedY
  obtain ⟨s, m, starts, pathX⟩ := reachedX
  obtain ⟨s', m', starts', pathY⟩ := reachedY
  have root {s : Stmt} {m : Machine} (starts : Starts fuel p.statements (p.start host) s m) :
      Reached p host fuel ⟨fuel, .stmt s, m⟩ := ⟨s, m, starts, .refl⟩
  replace spansX := spansX.reaches (root starts) pathX
  replace spansY := spansY.reaches (root starts') pathY
  rcases Starting.ordered ⟨s, m, starts, rfl⟩ ⟨s', m', starts', rfl⟩ with same | before | behind
  · exact (root starts).opener_unique_of_reaches accepted pathX (same ▸ pathY) opensX opensY
  · exact absurd spansY (before.apart spansX)
  · exact absurd spansX (behind.apart spansY)

/-- What a point makes a frame for is settled by the point. -/
theorem Point.Opens.purpose_unique {g : FrameId} (h : x.Opens f a) (h' : x.Opens g b) : a = b := by
  cases h with
  | block | call =>
    cases h' with
    | receiver binds => cases binds
    | _ => rfl
  | super declared yields =>
    cases h' with
    | receiver binds => cases binds
    | super declared' yields' =>
      cases declared.symm.trans declared'
      cases yields.symm.trans yields'
      rfl
  | receiver binds =>
    cases h' with
    | receiver binds' =>
      cases binds with
      | property evaluated =>
        cases binds' with
        | property evaluated' =>
          cases evaluated.symm.trans evaluated'
          rfl
      | super known _ receiver =>
        cases binds' with
        | super known' _ receiver' =>
          cases known.symm.trans known'
          cases receiver.symm.trans receiver'
          rfl
      | initializer _ made =>
        cases binds' with
        | initializer _ made' =>
          cases made.symm.trans made'
          rfl
    | _ => cases binds

end

end Lox
