import Mathlib
import Lox.Proofs.Eval.Ready

/-!
# Where a return leads

The statements of one body run each other without calls in between (`Point.Runs`). A return passes
up through them unchanged: a statement returns if and only if it runs a return statement, and then
it leaves the machine as that statement left it, in its own frame (`returns_iff`). So a return is
the end of the body that it stands in and gives the value of the call of that body, and there is
none outside of functions (`returns_end_their_call`).
-/

namespace Lox

namespace Point

/-- Both points run statements of one body, the second as a step of the first. -/
structure Runs (x y : Point) : Prop where
  calls : x.Calls y
  caller : x.task.runsStatements = true
  called : y.task.runsStatements = true

/-- The second point is among the statements that the first runs in its own body. -/
abbrev RunsTo : Point → Point → Prop :=
  Relation.ReflTransGen Runs

/-- The statements of the point end by returning the value, and leave the machine `m'`. -/
def Returns (x : Point) (v : Value) (m' : Machine) : Prop :=
  match x.task with
  | .stmt s => Eval.stmt x.fuel s x.machine = .ok (.returned v) m'
  | .stmts ss => Eval.stmts x.fuel ss x.machine = .ok (.returned v) m'
  | .loop condition body => Eval.loop x.fuel condition body x.machine = .ok (.returned v) m'
  | _ => False

variable {x y : Point} {v : Value} {m m' : Machine}

theorem Returns.current (h : x.Returns v m') : m'.current = x.machine.current := by
  obtain ⟨n, t, m⟩ := x
  cases t with
  | stmt s => exact ((Eval.keeps_task n (.stmt s)).ok h).current
  | stmts ss => exact ((Eval.keeps_task n (.stmts ss)).ok h).current
  | loop condition body => exact ((Eval.keeps_task n (.loop condition body)).ok h).current
  | _ => exact h.elim

theorem Returns.unique (h : x.Returns v m) (h' : x.Returns v m') : m = m' := by
  obtain ⟨n, t, m₀⟩ := x
  cases t with
  | stmt _ | stmts _ | loop _ _ =>
    cases h.symm.trans h'
    rfl
  | _ => exact h.elim

end Point

theorem Machine.atFrame_of_current {m : Machine} {frame : FrameId} (e : m.current = frame) :
    { m with current := frame } = m := by
  subst e
  rfl

open Eval in
/-- A return passes up from a statement to the one that runs it. -/
theorem Point.Runs.returns {x y : Point} {v : Value} {m' : Machine} (h : x.Runs y)
    (returns : y.Returns v m') : x.Returns v { m' with current := x.machine.current } := by
  obtain ⟨calls, caller, called⟩ := h
  have same := returns.current
  have kept {n : Nat} {t : Task} {m m' : Machine} {a : t.Answer} (e : t.run n m = .ok a m') :
      m'.current = m.current := ((keeps_task n t).ok e).current
  cases calls with
  | block => exact within_eq_ok.mpr ⟨m', returns, rfl⟩
  | ifThen h holds =>
    rw [Machine.atFrame_of_current (same.trans (kept (t := .expr _) h))]
    refine (bind_of_ok h).trans ?_
    rwa [if_pos holds]
  | ifElseThen h holds =>
    rw [Machine.atFrame_of_current (same.trans (kept (t := .expr _) h))]
    refine (bind_of_ok h).trans ?_
    rwa [if_pos holds]
  | ifElse h fails =>
    rw [Machine.atFrame_of_current (same.trans (kept (t := .expr _) h))]
    refine (bind_of_ok h).trans ?_
    rwa [if_neg (by rw [fails]; exact Bool.false_ne_true)]
  | «while» =>
    rw [Machine.atFrame_of_current same]
    exact returns
  | firstStmt =>
    rw [Machine.atFrame_of_current same]
    exact bind_of_ok returns
  | restStmts h =>
    rw [Machine.atFrame_of_current (same.trans (kept (t := .stmt _) h))]
    exact (bind_of_ok h).trans returns
  | loopBody h holds =>
    rw [Machine.atFrame_of_current (same.trans (kept (t := .expr _) h))]
    refine (bind_of_ok h).trans ?_
    rw [if_pos holds]
    exact bind_of_ok returns
  | loopAgain h holds h' =>
    rw [Machine.atFrame_of_current
      (same.trans ((kept (t := .stmt _) h').trans (kept (t := .expr _) h)))]
    refine (bind_of_ok h).trans ?_
    rw [if_pos holds]
    exact (bind_of_ok h').trans returns
  | _ => first | (cases caller; done) | cases called

open Eval in
/-- A statement that returns is a return statement, or runs a statement that returns. -/
theorem Point.Returns.origin {n : Nat} {t : Task} {m : Machine} {v : Value} {m' : Machine}
    (h : Point.Returns ⟨n + 1, t, m⟩ v m') :
    (∃ keyword value, t = .stmt (.returning keyword value)) ∨
      ∃ t' m₁ m₂, Point.Runs ⟨n + 1, t, m⟩ ⟨n, t', m₁⟩ ∧ Point.Returns ⟨n, t', m₁⟩ v m₂ := by
  cases t with
  | stmt s =>
    cases s with
    | returning keyword value => exact .inl ⟨keyword, value, rfl⟩
    | block body =>
      obtain ⟨m₁, returns, -⟩ := within_eq_ok.mp h
      exact .inr ⟨_, _, _, ⟨.block, rfl, rfl⟩, returns⟩
    | ifThen condition thenBranch =>
      obtain ⟨a, m₁, evaluated, h⟩ := bind_eq_ok.mp h
      split at h
      · rename_i holds
        exact .inr ⟨_, _, _, ⟨.ifThen evaluated holds, rfl, rfl⟩, h⟩
      · cases h
    | ifElse condition thenBranch elseBranch =>
      obtain ⟨a, m₁, evaluated, h⟩ := bind_eq_ok.mp h
      split at h
      · rename_i holds
        exact .inr ⟨_, _, _, ⟨.ifElseThen evaluated holds, rfl, rfl⟩, h⟩
      · rename_i fails
        exact .inr ⟨_, _, _, ⟨.ifElse evaluated (Bool.eq_false_iff.mpr fails), rfl, rfl⟩, h⟩
    | «while» condition body => exact .inr ⟨_, _, _, ⟨.while, rfl, rfl⟩, h⟩
    | print e =>
      obtain ⟨_, _, _, h⟩ := bind_eq_ok.mp h
      obtain ⟨_, _, _, h⟩ := bind_eq_ok.mp h
      cases h
    | varDecl name initializer =>
      cases initializer with
      | none =>
        obtain ⟨_, _, _, h⟩ := bind_eq_ok.mp h
        cases h
      | some initializer =>
        obtain ⟨_, _, _, h⟩ := bind_eq_ok.mp h
        obtain ⟨_, _, _, h⟩ := bind_eq_ok.mp h
        cases h
    | _ =>
      obtain ⟨_, _, _, h⟩ := bind_eq_ok.mp h
      cases h
  | stmts ss =>
    cases ss with
    | nil => cases h
    | cons s ss =>
      obtain ⟨flow, m₁, ran, h⟩ := bind_eq_ok.mp h
      cases flow with
      | normal => exact .inr ⟨_, _, _, ⟨.restStmts ran, rfl, rfl⟩, h⟩
      | returned w =>
        cases h
        exact .inr ⟨_, _, _, ⟨.firstStmt, rfl, rfl⟩, ran⟩
  | loop condition body =>
    obtain ⟨a, m₁, evaluated, h⟩ := bind_eq_ok.mp h
    split at h
    · rename_i holds
      obtain ⟨flow, m₂, ran, h⟩ := bind_eq_ok.mp h
      cases flow with
      | normal => exact .inr ⟨_, _, _, ⟨.loopAgain evaluated holds ran, rfl, rfl⟩, h⟩
      | returned w =>
        cases h
        exact .inr ⟨_, _, _, ⟨.loopBody evaluated holds, rfl, rfl⟩, ran⟩
    · cases h
  | _ => exact h.elim

/-- What returns in its own body, up to the statement `x` that runs it. -/
theorem Point.RunsTo.returns {x y : Point} {v : Value} {m' : Machine} (h : x.RunsTo y)
    (returns : y.Returns v m') : x.Returns v { m' with current := x.machine.current } := by
  induction h using Relation.ReflTransGen.head_induction_on with
  | refl => rwa [Machine.atFrame_of_current returns.current]
  | head step _ ih => exact (step.returns ih :)

/-- A statement returns if and only if it runs a return statement, and then the machine is as that
statement left it, in the frame of the first. -/
theorem Point.returns_iff {x : Point} {v : Value} {m' : Machine} :
    x.Returns v m' ↔ ∃ y keyword value m₁, x.RunsTo y ∧
      y.task = .stmt (.returning keyword value) ∧ y.Returns v m₁ ∧
      m' = { m₁ with current := x.machine.current } := by
  constructor
  · obtain ⟨n, t, m⟩ := x
    induction n generalizing t m m' with
    | zero =>
      intro h
      cases t <;> cases h
    | succ n ih =>
      intro h
      rcases h.origin with ⟨keyword, value, rfl⟩ | ⟨t', m₁, m₂, step, h'⟩
      · exact ⟨_, keyword, value, m', .refl, rfl, h, (Machine.atFrame_of_current h.current).symm⟩
      · obtain ⟨y, keyword, value, m₃, path, isReturn, returns, rfl⟩ := ih _ _ h'
        have passed := step.returns h'
        exact ⟨y, keyword, value, m₃, .head step path, isReturn, returns, h.unique passed⟩
  · rintro ⟨y, keyword, value, m₁, path, -, returns, rfl⟩
    exact path.returns returns

/-! ## Bodies -/

/-- What the statements of a body inherit from its context. -/
theorem Point.RunsTo.ready {D : Distances} {Γ : Context} {x y : Point} (h : x.RunsTo y)
    (ready : x.Ready D Γ) : ∃ Γ', y.Ready D Γ' ∧ Γ'.body = Γ.body := by
  induction h with
  | refl => exact ⟨Γ, ready, rfl⟩
  | tail _ step ih =>
    obtain ⟨Γ', ready, same⟩ := ih
    obtain ⟨Γ'', ready, inherits⟩ := (Eval.safe_task ready).calls _ step.calls
    exact ⟨Γ'', ready, (inherits.body step.caller step.called).trans same⟩

/-- Returning is for bodies of functions, and a value other than `nil` for those that are no
initializers. -/
theorem Point.Ready.returns {D : Distances} {Γ : Context} {x : Point} {v : Value} {m' : Machine}
    (ready : x.Ready D Γ) (h : x.Returns v m') :
    Γ.body ≠ .none ∧ (Γ.body = .initializer → v = .nil) := by
  obtain ⟨n, t, m⟩ := x
  have answer := (Eval.safe_task ready).answer
  cases t with
  | stmt s => exact (answer _ _ h).2.2.1.2
  | stmts ss => exact (answer _ _ h).2.2.2
  | loop condition body => exact (answer _ _ h).2.2.2
  | _ => exact h.elim

/-- A point that runs statements is among the statements of a call's body, or outside of all
functions. -/
theorem Reached.runs_in_body {p : Checked} {host : Host} {fuel : Nat} {y : Point}
    (h : Reached p host fuel y) (statements : y.task.runsStatements = true) :
    (∃ s m, Starts fuel p.statements (p.start host) s m ∧ Point.RunsTo ⟨fuel, .stmt s, m⟩ y) ∨
      ∃ n f vs m, Reached p host fuel ⟨n + 1, .call f vs, m⟩ ∧
        Point.RunsTo ⟨n, .stmts f.decl.body, m.activate f vs⟩ y := by
  obtain ⟨s, m, starts, path⟩ := h
  induction path with
  | refl => exact .inl ⟨s, m, starts, .refl⟩
  | @tail x y path calls ih =>
    by_cases same : x.task.runsStatements = true
    · rcases ih same with ⟨s', m', starts', path'⟩ | ⟨n, f, vs, m', reached, path'⟩
      · exact .inl ⟨s', m', starts', path'.tail ⟨calls, same, statements⟩⟩
      · exact .inr ⟨n, f, vs, m', reached, path'.tail ⟨calls, same, statements⟩⟩
    · cases calls with
      | body => exact .inr ⟨_, _, _, _, ⟨s, m, starts, path⟩, .refl⟩
      | _ => first | exact absurd rfl same | cases statements

/-- If the body of a call returns, the call gives the value, or, if the function is an initializer,
the instance that it is bound to. It leaves the machine as the body left it, in its own frame. -/
theorem Point.Ready.call_of_returns {D : Distances} {Γ : Context} {n : Nat} {f : Function}
    {vs : List Value} {m m' : Machine} {v : Value} (ready : Point.Ready D Γ ⟨n + 1, .call f vs, m⟩)
    (returns : Point.Returns ⟨n, .stmts f.decl.body, m.activate f vs⟩ v m') :
    ∃ w, Eval.call (n + 1) f vs m = .ok w { m' with current := m.current } ∧
      (f.isInitializer = false → w = v) ∧
      (f.isInitializer = true → ∃ o, w = .instance o ∧
        m.heap.lookup? f.closure "this" = some (.instance o)) := by
  obtain ⟨Δ, body, grows, initializer⟩ := Eval.ready_body ready
  have called (w : Value) (e : Eval.result f (.returned v) { m' with current := m.current } =
      .ok w { m' with current := m.current }) :
      Eval.call (n + 1) f vs m = .ok w { m' with current := m.current } :=
    Eval.call_eq_ok.mpr ⟨_, m', returns, e⟩
  cases kind : f.isInitializer with
  | false =>
    refine ⟨v, called v ?_, fun _ => rfl, nofun⟩
    rw [Eval.result, kind]
    rfl
  | true =>
    obtain ⟨-, o, bound⟩ := initializer kind
    obtain ⟨-, grows', -⟩ := (Eval.safe_task body).answer _ _ returns
    have still : m'.heap.lookup? f.closure "this" = some (.instance o) := by
      rw [← bound]
      exact (grows.trans grows'.heap).keyword _ (Heap.lt_size_of_lookup? bound) .this
    refine ⟨.instance o, called _ ?_, nofun, fun _ => ⟨o, rfl, bound⟩⟩
    rw [Eval.result, kind, if_pos rfl, Heap.getAt_of_outward? rfl still]

/-- Outside of all functions nothing returns. -/
theorem Starts.not_returns {source : String} {p : Checked}
    (accepted : Source.check source = .ok p) {host : Host} {fuel : Nat} {s : Stmt} {m : Machine}
    (starts : Starts fuel p.statements (p.start host) s m) {x : Point}
    (path : Point.RunsTo ⟨fuel, .stmt s, m⟩ x) (v : Value) (m' : Machine) : ¬ x.Returns v m' := by
  intro returns
  obtain ⟨sound, stands⟩ := p.ready_start host
  have ready := starts.ready sound stands (Source.located_of_check accepted)
  obtain ⟨Γ, ready, same⟩ := path.ready ready
  exact (ready.returns returns).1 same

/-- In every run of an accepted source: (a) no statement outside of all functions returns; (b) the
body of an initializer returns no value but `nil`; (c) a return statement that is reached ends the
nearest call around it: the call leaves the machine as the return statement left it, in its own
frame, and gives the value that was returned, or, if the function is an initializer, the instance
that it is bound to; (d) whatever returns has run a return statement of its own body. -/
theorem returns_end_their_call {source : String} {p : Checked}
    (accepted : Source.check source = .ok p) (host : Host) (fuel : Nat) :
    (∀ s m n s' m' flow m'', Starts fuel p.statements (p.start host) s m →
      Point.RunsTo ⟨fuel, .stmt s, m⟩ ⟨n, .stmt s', m'⟩ → Eval.stmt n s' m' = .ok flow m'' →
      flow = .normal) ∧
    (∀ n f vs m v m', Reached p host fuel ⟨n + 1, .call f vs, m⟩ → f.isInitializer = true →
      Eval.stmts n f.decl.body (m.activate f vs) = .ok (.returned v) m' → v = .nil) ∧
    (∀ n keyword value m v m', Reached p host fuel ⟨n, .stmt (.returning keyword value), m⟩ →
      Eval.stmt n (.returning keyword value) m = .ok (.returned v) m' →
      ∃ k f vs m₀ w, Reached p host fuel ⟨k + 1, .call f vs, m₀⟩ ∧
        Point.RunsTo ⟨k, .stmts f.decl.body, m₀.activate f vs⟩
          ⟨n, .stmt (.returning keyword value), m⟩ ∧
        Eval.call (k + 1) f vs m₀ = .ok w { m' with current := m₀.current } ∧
        (f.isInitializer = false → w = v) ∧
        (f.isInitializer = true → ∃ o, w = .instance o ∧
          m₀.heap.lookup? f.closure "this" = some (.instance o))) ∧
    ∀ (x : Point) v m', x.Returns v m' → ∃ y keyword value m₁, x.RunsTo y ∧
      y.task = .stmt (.returning keyword value) ∧ y.Returns v m₁ ∧
      m' = { m₁ with current := x.machine.current } := by
  refine ⟨?_, ?_, ?_, fun _ _ _ => Point.returns_iff.mp⟩
  · intro s m n s' m' flow m'' starts path ran
    cases flow with
    | normal => rfl
    | returned v => exact absurd ran (starts.not_returns accepted path v m'')
  · intro n f vs m v m' reached isInitializer ran
    obtain ⟨Γ, ready, -⟩ := reached.ready accepted
    obtain ⟨Δ, body, -, initializer⟩ := Eval.ready_body ready
    exact (body.returns (v := v) ran).2 (initializer isInitializer).1
  · intro n keyword value m v m' reached ran
    rcases reached.runs_in_body rfl with ⟨s, m₀, starts, path⟩ | ⟨k, f, vs, m₀, called, path⟩
    · exact absurd ran (starts.not_returns accepted path v m')
    · obtain ⟨Γ, ready, -⟩ := called.ready accepted
      have returns := path.returns (v := v) ran
      obtain ⟨w, e, value⟩ := ready.call_of_returns returns
      exact ⟨k, f, vs, m₀, w, called, path, e, value⟩

/-- The function of this program returns `nil`, and so its call ends. -/
theorem return_ends_call :
    ∃ p m, Source.check "fun f() \x7b return nil; \x7d f();" = .ok p ∧
      Reached p ⟨fun _ => 0, none, false⟩ 8
        ⟨3, .stmt (.returning ⟨"return", 1⟩ (some (.literal .nil))), m⟩ ∧
      ∃ k f vs m₀ w, Eval.call (k + 1) f vs m₀ = .ok w { m with current := m₀.current } ∧
        (f.isInitializer = false → w = .nil) := by
  obtain ⟨p, m, accepted, reached⟩ : ∃ p m,
      Source.check "fun f() \x7b return nil; \x7d f();" = .ok p ∧
      Reached p ⟨fun _ => 0, none, false⟩ 8
        ⟨3, .stmt (.returning ⟨"return", 1⟩ (some (.literal .nil))), m⟩ := by
    let decl : FunctionDecl := ⟨⟨"f", 1⟩, [], [.returning ⟨"return", 1⟩ (some (.literal .nil))]⟩
    let start : Machine := Machine.start ⟨fun _ => 0, none, false⟩
    let f : Function := ⟨0, decl, 0, false⟩
    let m₁ : Machine := { start with
      heap := (start.heap.declare 0 "f").define 0 "f" (.function f)
      nextIdentity := 1 }
    have declared : Eval.stmt 8 (.function decl) start = .ok .normal m₁ := by cbv
    have callee : Eval.expr 6 (.variable 0 ⟨"f", 1⟩) m₁ = .ok (.function f) m₁ := by cbv
    exact ⟨⟨[.function decl, .expression (.call (.variable 0 ⟨"f", 1⟩) ⟨")", 1⟩ [])], ∅⟩, _,
      by cbv, _, _, .later declared .first, .head .expression (.head (.apply callee rfl)
        (.head (.function (Nat.le_refl 0)) (.head .body (.single .firstStmt))))⟩
  refine ⟨p, m, accepted, reached, ?_⟩
  obtain ⟨k, f, vs, m₀, w, -, -, called, value, -⟩ :=
    (returns_end_their_call accepted _ 8).2.2.1 3 _ _ m .nil m reached rfl
  exact ⟨k, f, vs, m₀, w, called, value⟩

end Lox
