import Lox.Syntax.Grammar
import Lox.Proofs.Eval.CurrentFrame

/-!
# Rounds of a loop

A `for` loop is read as a `while` loop in a block with the initializer, and the increment is put in
a block behind the body (`Rule.loop`). However such a statement runs, it runs in rounds
(`Eval.runs_loop`). All rounds begin in the one frame in which the initializer has run
(`Eval.Rounds`), and in each of them the increment runs if the body has run to its end, and not if
it has returned or failed (`Eval.Iteration`).
-/

namespace Lox

/-- The machine in a new frame inside the current one. -/
def Machine.nested (m : Machine) : Machine :=
  { m with heap := m.heap.push (some m.current), current := m.heap.frames.size }

namespace Eval

variable {α : Type}

/-- With some amount of fuel, this is the result. -/
def Gives (x : Nat → Eval α) (m : Machine) (r : EStateM.Result Stop Machine α) : Prop :=
  ∃ n, x n m = r

/-- The same result, but in another frame. -/
def back (frame : FrameId) : EStateM.Result Stop Machine α → EStateM.Result Stop Machine α
  | .ok a m => .ok a { m with current := frame }
  | .error s m => .error s { m with current := frame }

section
variable (inside : Stmt) (step : Option Expr)

/-- One round behind the test. If there is an increment, it runs in the new frame of the body, after
the body if this has run to its end. -/
inductive Iteration (m : Machine) : EStateM.Result Stop Machine Flow → Prop
  | bare {r} (noStep : step = none) (ran : Gives (stmt · inside) m r) : Iteration m r
  | unfinished {e r} (hasStep : step = some e) (ran : Gives (stmt · inside) m.nested r)
    (early : ∀ m₁, r ≠ .ok .normal m₁) : Iteration m (back m.current r)
  | completed {e m₁ r} (hasStep : step = some e)
    (ran : Gives (stmt · inside) m.nested (.ok .normal m₁))
    (stepped : Gives (stmt · (.expression e)) m₁ r) : Iteration m (back m.current r)

/-- The rounds of a loop, each of which begins in the frame. -/
inductive Rounds (test : Expr) (frame : FrameId) :
    Machine → EStateM.Result Stop Machine Flow → Prop
  | untested {m s m₁} (here : m.current = frame) (failed : Gives (expr · test) m (.error s m₁)) :
    Rounds test frame m (.error s m₁)
  | ended {m v m₁} (here : m.current = frame) (tested : Gives (expr · test) m (.ok v m₁))
    (isFalse : v.isTruthy = false) : Rounds test frame m (.ok .normal m₁)
  | last {m v m₁ r} (here : m.current = frame) (tested : Gives (expr · test) m (.ok v m₁))
    (isTrue : v.isTruthy = true) (ran : Iteration inside step m₁ r)
    (early : ∀ m₂, r ≠ .ok .normal m₂) : Rounds test frame m r
  | again {m v m₁ m₂ r} (here : m.current = frame) (tested : Gives (expr · test) m (.ok v m₁))
    (isTrue : v.isTruthy = true) (ran : Iteration inside step m₁ (.ok .normal m₂))
    (rest : Rounds test frame m₂ r) : Rounds test frame m r

/-- A loop with its initializer. If there is one, it runs in a new frame, and in the same frame all
rounds begin, if it has run to its end. -/
inductive ForRuns (start : Option Stmt) (test : Expr) (m : Machine) :
    EStateM.Result Stop Machine Flow → Prop
  | bare {r} (noStart : start = none) (rounds : Rounds inside step test m.current m r) :
    ForRuns start test m r
  | unstarted {s r} (hasStart : start = some s) (ran : Gives (stmt · s) m.nested r)
    (early : ∀ m₁, r ≠ .ok .normal m₁) : ForRuns start test m (back m.current r)
  | started {s m₁ r} (hasStart : start = some s)
    (ran : Gives (stmt · s) m.nested (.ok .normal m₁))
    (rounds : Rounds inside step test m.nested.current m₁ r) :
    ForRuns start test m (back m.current r)

end

/-! ## Blocks of two -/

theorem within_eq_back (frame : FrameId) (body : Eval α) (m : Machine) :
    within frame body m = back m.current (body { m with current := frame }) := by
  cases ran : body { m with current := frame } with
  | ok a m₁ => exact within_of_ok ran
  | error s m₁ => exact within_of_error ran

theorem block_eq (n : Nat) (body : List Stmt) (m : Machine) :
    stmt (n + 1) (.block body) m = back m.current (stmts n body m.nested) :=
  within_eq_back m.heap.frames.size (stmts n body) { m with heap := m.heap.push (some m.current) }

theorem stmts_cons_of_normal {n : Nat} {s : Stmt} {ss : List Stmt} {m m₁ : Machine}
    (ran : stmt n s m = .ok .normal m₁) : stmts (n + 1) (s :: ss) m = stmts n ss m₁ := by
  rw [stmts]
  exact bind_of_ok ran

/-- Statements that come to no normal end are not followed by others. -/
theorem stmts_cons_of_early {n : Nat} {s : Stmt} {m : Machine}
    (early : ∀ m₁, stmt n s m ≠ .ok .normal m₁) (ss : List Stmt) :
    stmts (n + 1) (s :: ss) m = stmt n s m := by
  rw [stmts]
  cases ran : stmt n s m with
  | ok flow m₁ =>
    rw [bind_of_ok ran]
    cases flow with
    | normal => exact absurd ran (early m₁)
    | returned v => rfl
  | error stop m₁ => exact bind_of_error ran

theorem stmts_singleton (n : Nat) (s : Stmt) (m : Machine) :
    Gives (stmt · s) m (stmts n [s] m) := by
  cases n with
  | zero => exact ⟨0, rfl⟩
  | succ n =>
    by_cases normal : ∃ m₁, stmt n s m = .ok .normal m₁
    · obtain ⟨m₁, ran⟩ := normal
      rw [stmts_cons_of_normal ran]
      cases n with
      | zero => cases ran
      | succ n => exact ⟨n + 1, ran⟩
    · rw [stmts_cons_of_early fun m₁ ran => normal ⟨m₁, ran⟩]
      exact ⟨n, rfl⟩

theorem stmts_pair (n : Nat) (a b : Stmt) (m : Machine) :
    (Gives (stmt · a) m (stmts n [a, b] m) ∧ ∀ m₁, stmts n [a, b] m ≠ .ok .normal m₁) ∨
      ∃ m₁, Gives (stmt · a) m (.ok .normal m₁) ∧ Gives (stmt · b) m₁ (stmts n [a, b] m) := by
  cases n with
  | zero => exact .inl ⟨⟨0, rfl⟩, nofun⟩
  | succ n =>
    by_cases normal : ∃ m₁, stmt n a m = .ok .normal m₁
    · obtain ⟨m₁, ran⟩ := normal
      refine .inr ⟨m₁, ⟨n, ran⟩, ?_⟩
      rw [stmts_cons_of_normal ran]
      exact stmts_singleton n b m₁
    · have early : ∀ m₁, stmt n a m ≠ .ok .normal m₁ := fun m₁ ran => normal ⟨m₁, ran⟩
      rw [stmts_cons_of_early early]
      exact .inl ⟨⟨n, rfl⟩, early⟩

/-! ## Loops -/

/-- The body of the `while` loop. -/
def roundOf (inside : Stmt) (step : Option Expr) : Stmt :=
  match step with
  | some e => .block [inside, .expression e]
  | none => inside

theorem iteration (n : Nat) (inside : Stmt) (step : Option Expr) (m : Machine) :
    Iteration inside step m (stmt (n + 1) (roundOf inside step) m) := by
  cases step with
  | none => exact .bare rfl ⟨n + 1, rfl⟩
  | some e =>
    rw [roundOf, block_eq]
    obtain ⟨ran, early⟩ | ⟨m₁, ran, stepped⟩ := stmts_pair n inside (.expression e) m.nested
    · exact .unfinished rfl ran early
    · exact .completed rfl ran stepped

theorem rounds_loop (n : Nat) (test : Expr) (inside : Stmt) (step : Option Expr) (m : Machine) :
    Rounds inside step test m.current m (loop n test (roundOf inside step) m) := by
  induction n generalizing m with
  | zero => exact .untested rfl ⟨0, rfl⟩
  | succ n ih =>
    rw [loop]
    cases tested : expr n test m with
    | error s m₁ =>
      rw [bind_of_error tested]
      exact .untested rfl ⟨n, tested⟩
    | ok v m₁ =>
      rw [bind_of_ok tested]
      by_cases isTrue : v.isTruthy
      · rw [if_pos isTrue]
        have goesOn : m₁.current = m.current := ((keeps_task n (.expr test)).ok tested).current
        obtain ⟨k, rfl⟩ : ∃ k, n = k + 1 := by
          cases n with
          | zero => cases tested
          | succ k => exact ⟨k, rfl⟩
        have ran := iteration k inside step m₁
        have kept := keeps_task (k + 1) (.stmt (roundOf inside step))
        cases round : stmt (k + 1) (roundOf inside step) m₁ with
        | error s m₂ =>
          rw [round] at ran
          rw [bind_of_error round]
          exact .last rfl ⟨_, tested⟩ isTrue ran nofun
        | ok flow m₂ =>
          rw [round] at ran
          rw [bind_of_ok round]
          cases flow with
          | returned w => exact .last rfl ⟨_, tested⟩ isTrue ran nofun
          | normal =>
            have rest := ih m₂
            rw [(kept.ok round).current, goesOn] at rest
            exact .again rfl ⟨_, tested⟩ isTrue ran rest
      · rw [if_neg isTrue]
        exact .ended rfl ⟨n, tested⟩ (Bool.eq_false_iff.mpr isTrue)

/-- A `while` loop in the rounds of which the increment runs. -/
theorem rounds_while (n : Nat) (test : Expr) (inside : Stmt) (step : Option Expr) (m : Machine) :
    Rounds inside step test m.current m (stmt n (.while test (roundOf inside step)) m) := by
  cases n with
  | zero => exact .untested rfl ⟨0, rfl⟩
  | succ n => exact rounds_loop n test inside step m

/-- However a `for` loop runs, it runs in rounds. -/
theorem runs_loop (n : Nat) (start : Option Stmt) (test step : Option Expr) (inside : Stmt)
    (m : Machine) : ForRuns inside step start (test.getD (.literal .true)) m
      (stmt (n + 1) (Rule.loop start test step inside) m) := by
  cases start with
  | none =>
    refine .bare rfl ?_
    cases step <;> exact rounds_while _ _ inside _ m
  | some s =>
    have eq : Rule.loop (some s) test step inside =
        .block [s, .while (test.getD (.literal .true)) (roundOf inside step)] := by
      cases step <;> rfl
    rw [eq, block_eq]
    obtain ⟨ran, early⟩ | ⟨m₁, ran, k, loops⟩ := stmts_pair n s _ m.nested
    · exact .unstarted rfl ran early
    · refine .started rfl ran ?_
      obtain ⟨i, ran'⟩ := ran
      have rounds := rounds_while k (test.getD (.literal .true)) inside step m₁
      rw [((keeps_task i (.stmt s)).ok ran').current] at rounds
      exact loops ▸ rounds

end Eval

end Lox
