import Mathlib
import Lox.Run
import Lox.Proofs.Eval.Ready
import Lox.Proofs.Eval.Failures

/-!
# Sinks that fill up

A program cannot tell how much its sink takes. A computation that starts under a host whose sink
takes everything, and under another host with the same clock, does the same under both, as long as
what is printed fits into the second sink; when it no longer fits, the computation under the second
host stops where the argument of the print statement has been evaluated (`Shadows`). This is kept by
sequencing and is true of every operation, and so of every task (`shadows_task`). So a sink cuts a
run off, and changes nothing else (`sink_cuts_run_off`).
-/

namespace Lox

/-- The host, if its sink took everything. -/
def Host.unfailing (h : Host) : Host :=
  { h with capacity := none, flushFails := false }

/-- The machine under another host. -/
def Machine.under (m : Machine) (h : Host) : Machine :=
  { m with host := h }

/-- What was printed fits into the sink of the host. -/
def Machine.Fits (m : Machine) (h : Host) : Prop :=
  ∀ k ∈ h.capacity, m.printed.size ≤ k

/-- At the point a print statement has its argument evaluated to `v`, which leads to `m'`, when the
sink of the host is full. -/
inductive Point.Overflows (h : Host) : Point → Value → Machine → Prop
  | intro {n e m v m'} (evaluated : Eval.expr n e m = .ok v m')
    (full : h.capacity = some m'.printed.size) : Overflows h ⟨n + 1, .stmt (.print e), m⟩ v m'

namespace Eval

variable {α β : Type}

/-- The same result, under another host. -/
def resultUnder (h : Host) :
    EStateM.Result Stop Machine α → EStateM.Result Stop Machine α
  | .ok a m => .ok a (m.under h)
  | .error s m => .error s (m.under h)

/-- From `m`, whose sink takes everything, the computation goes on under the host `h` as it does
under that of `m`, if what it prints fits; otherwise one of the points in `Z` prints what no longer
fits, and the computation stops there. -/
structure Shadows (h : Host) (y : Eval α) (m : Machine) (Z : Point → Prop) : Prop where
  goes : m.GoesOn (machineOf (y m))
  noIo : m.host.capacity = none → ∀ e m', y m ≠ .error (.failed (.io e)) m'
  cut : m.host.capacity = none → m.host.clock = h.clock → m.Fits h →
    (machineOf (y m)).Fits h ∧ y (m.under h) = resultUnder h (y m) ∨
    ∃ x v m', Z x ∧ x.Overflows h v m' ∧
      (m'.printed.push v.text).toList <+: (machineOf (y m)).printed.toList ∧
      ∃ c, y (m.under h) = .error (.failed (.io .sinkFull)) { m'.under h with current := c }

section
variable {h : Host} {m : Machine} {Z Y : Point → Prop}

/-! ## Sequencing -/

theorem Shadows.mono {y : Eval α} (s : Shadows h y m Z) (points : ∀ x, Z x → Y x) :
    Shadows h y m Y := by
  refine ⟨s.goes, s.noIo, fun takes clock fits => (s.cut takes clock fits).imp_right ?_⟩
  rintro ⟨x, v, m', inside, rest⟩
  exact ⟨x, v, m', points x inside, rest⟩

theorem Shadows.congr {y z : Eval α} (s : Shadows h z m Z) (e : y m = z m)
    (e' : y (m.under h) = z (m.under h)) : Shadows h y m Z :=
  ⟨e ▸ s.goes, e ▸ s.noIo, by rw [e, e']; exact s.cut⟩

/-- A computation that prints nothing and does not look at the sink. -/
theorem shadows_silent {y : Eval α} (goes : m.GoesOn (machineOf (y m)))
    (printed : (machineOf (y m)).printed = m.printed)
    (noIo : ∀ e m', y m ≠ .error (.failed (.io e)) m')
    (same : m.host.clock = h.clock → y (m.under h) = resultUnder h (y m)) : Shadows h y m Z :=
  ⟨goes, fun _ => noIo,
    fun _ clock fits => .inl ⟨fun k limit => printed ▸ fits k limit, same clock⟩⟩

/-- A step that cannot fail, and does the same under every host. -/
theorem shadows_ok {y : Eval α} {a : α} {w : Machine} (goes : m.GoesOn w)
    (printed : w.printed = m.printed) (e : y m = .ok a w)
    (e' : y (m.under h) = .ok a (w.under h)) : Shadows h y m Z :=
  shadows_silent (by rwa [e]) (by rwa [e]) (fun _ _ => by rw [e]; exact nofun) fun _ => by
    rw [e, e']
    rfl

theorem shadows_pure {a : α} : Shadows h (pure a) m Z :=
  shadows_ok (.refl m) rfl rfl rfl

theorem shadows_outOfFuel : Shadows h (throw .outOfFuel : Eval α) m Z :=
  shadows_silent (.refl m) rfl (fun _ _ => nofun) fun _ => rfl

theorem shadows_fail {blamed : Lexeme} {cause : RuntimeCause} :
    Shadows h (fail blamed cause : Eval α) m Z :=
  shadows_silent (.refl m) rfl (fun _ _ => nofun) fun _ => rfl

theorem shadows_bind {y : Eval α} {f : α → Eval β} (hy : Shadows h y m Z)
    (hf : ∀ a m₁, y m = .ok a m₁ → Shadows h (f a) m₁ Z) : Shadows h (y >>= f) m Z := by
  obtain ⟨goes, noIo, cut⟩ := hy
  cases e : y m with
  | error s m₁ =>
    rw [e] at goes noIo cut
    have result : (y >>= f) m = .error s m₁ := bind_of_error e
    refine ⟨result ▸ goes, fun takes io m' failed => ?_, fun takes clock fits => ?_⟩
    · cases result.symm.trans failed
      exact noIo takes io m₁ rfl
    rw [result]
    rcases cut takes clock fits with ⟨fits', same⟩ | ⟨x, v, m', inside, full, before, c, e'⟩
    · exact .inl ⟨fits', bind_of_error same⟩
    · exact .inr ⟨x, v, m', inside, full, before, c, bind_of_error e'⟩
  | ok a m₁ =>
    rw [e] at goes cut
    obtain ⟨goes', noIo', cut'⟩ := hf a m₁ e
    have result : (y >>= f) m = f a m₁ := bind_of_ok e
    have host : m₁.host = m.host := goes.host
    refine ⟨result ▸ goes.trans goes', fun takes => result ▸ noIo' (host ▸ takes),
      fun takes clock fits => ?_⟩
    rw [result]
    rcases cut takes clock fits with ⟨fits', same⟩ | ⟨x, v, m', inside, full, before, c, e'⟩
    · rw [bind_of_ok same]
      exact cut' (host ▸ takes) (host ▸ clock) fits'
    · exact .inr ⟨x, v, m', inside, full, before.trans goes'.printed, c, bind_of_error e'⟩

theorem shadows_within {frame : FrameId} {body : Eval α}
    (s : Shadows h body { m with current := frame } Z) : Shadows h (within frame body) m Z := by
  obtain ⟨goes, noIo, cut⟩ := s
  have back {m₁ : Machine} (goes : ({ m with current := frame } : Machine).GoesOn m₁) :
      m.GoesOn { m₁ with current := m.current } :=
    ⟨⟨rfl, goes.globals, goes.distances⟩, goes.host, goes.printed⟩
  cases e : body { m with current := frame } with
  | error s m₁ =>
    rw [e] at goes noIo cut
    have result := within_of_error e
    refine ⟨result ▸ back goes, fun takes io m' failed => ?_, fun takes clock fits => ?_⟩
    · cases result.symm.trans failed
      exact noIo takes io m₁ rfl
    rw [result]
    rcases cut takes clock fits with ⟨fits', same⟩ | ⟨x, v, m', inside, full, before, c, e'⟩
    · exact .inl ⟨fits', within_of_error (m := m.under h) same⟩
    · exact .inr ⟨x, v, m', inside, full, before, m.current,
        @within_of_error _ frame body (m.under h) { m'.under h with current := c } _ e'⟩
  | ok a m₁ =>
    rw [e] at goes cut
    have result := within_of_ok e
    refine ⟨result ▸ back goes, fun _ _ _ => result ▸ nofun, fun takes clock fits => ?_⟩
    rw [result]
    rcases cut takes clock fits with ⟨fits', same⟩ | ⟨x, v, m', inside, full, before, c, e'⟩
    · exact .inl ⟨fits', within_of_ok (m := m.under h) same⟩
    · exact .inr ⟨x, v, m', inside, full, before, m.current,
        @within_of_error _ frame body (m.under h) { m'.under h with current := c } _ e'⟩

/-! ## Operations -/

theorem shadows_get {f : Machine → Eval β} (blind : ∀ host, f { m with host := host } = f m)
    (s : Shadows h (f m) m Z) : Shadows h (get >>= f) m Z :=
  s.congr rfl (congrFun (blind h) (m.under h))

theorem shadows_modifyHeap (f : Heap → Heap) : Shadows h (modifyHeap f) m Z :=
  shadows_ok (w := { m with heap := f m.heap }) (keeps_modifyHeap f m) rfl rfl rfl

theorem shadows_readClock : Shadows h readClock m Z := by
  refine shadows_silent (keeps_readClock m) rfl (fun _ _ => nofun) fun clock => ?_
  show EStateM.Result.ok (Value.number (h.clock m.readings)) _ = _
  rw [← clock]
  rfl

theorem shadows_lookUp (id : ExprId) (name : Lexeme) : Shadows h (lookUp id name) m Z := by
  cases known : m.distances[id]? with
  | some distance =>
    exact Shadows.congr (z := pure (m.heap.getAt m.current distance name.text)) shadows_pure
      (by simp only [lookUp, known]; rfl) (by simp only [lookUp, Machine.under, known]; rfl)
  | none =>
    cases bound : m.heap.get? m.globals name.text with
    | some v =>
      exact Shadows.congr (z := pure v) shadows_pure (by simp only [lookUp, known, bound]; rfl)
        (by simp only [lookUp, Machine.under, known, bound]; rfl)
    | none =>
      have fails : Shadows h (fail name (.undefinedVariable name.text) : Eval Value) m Z :=
        shadows_fail
      exact fails.congr (by simp only [lookUp, known, bound])
        (by simp only [lookUp, Machine.under, known, bound])

theorem shadows_assignFrom (frame : FrameId) (name : Lexeme) (v : Value) :
    Shadows h (assignFrom frame name v) m Z := by
  cases found : m.heap.holder? frame name.text with
  | some holder =>
    exact shadows_ok (w := { m with heap := m.heap.define holder name.text v })
      (.silent ⟨rfl, rfl, rfl⟩ rfl rfl) rfl (assignFrom_of_some found)
      (assignFrom_of_some (m := m.under h) found)
  | none =>
    exact shadows_fail.congr (assignFrom_of_none found) (assignFrom_of_none (m := m.under h) found)

theorem shadows_assign (id : ExprId) (name : Lexeme) (v : Value) :
    Shadows h (assign id name v) m Z := by
  cases known : m.distances[id]? with
  | some distance =>
    exact shadows_ok (a := ())
      (w := { m with heap := m.heap.assignAt m.current distance name.text v })
      (.silent ⟨rfl, rfl, rfl⟩ rfl rfl) rfl (by simp only [assign, known])
      (by simp only [assign, Machine.under, known])
  | none =>
    exact (shadows_assignFrom m.globals name v).congr (by simp only [assign, known])
      (by simp only [assign, Machine.under, known])

theorem shadows_result (f : Function) (flow : Flow) : Shadows h (result f flow) m Z := by
  cases isInitializer : f.isInitializer with
  | true =>
    exact Shadows.congr (z := pure (m.heap.getAt f.closure 0 "this")) shadows_pure
      (by simp only [result, isInitializer]; rfl) (by simp only [result, isInitializer]; rfl)
  | false =>
    cases flow with
    | normal =>
      exact Shadows.congr (z := pure .nil) shadows_pure
        (by simp only [result, isInitializer]; rfl) (by simp only [result, isInitializer]; rfl)
    | returned v =>
      exact Shadows.congr (z := pure v) shadows_pure
        (by simp only [result, isInitializer]; rfl) (by simp only [result, isInitializer]; rfl)

theorem shadows_bindParams (frame : FrameId) (params : List Lexeme) (vs : List Value) :
    Shadows h (bindParams frame params vs) m Z :=
  shadows_ok (w := { m with heap := m.heap.defineAll frame params vs })
    (.silent ⟨rfl, rfl, rfl⟩ rfl rfl) rfl (bindParams_apply ..) (bindParams_apply ..)

/-- A text that no longer fits was evaluated at the point that prints it. -/
theorem shadows_write {x : Point} {v : Value} (inside : Z x)
    (overflows : h.capacity = some m.printed.size → x.Overflows h v m) :
    Shadows h (write v.text) m Z := by
  have written (takes : m.host.capacity = none) :
      write v.text m = .ok () { m with printed := m.printed.push v.text } := by
    simp only [write, takes]
  refine ⟨keeps_write v.text m, fun takes _ _ => written takes ▸ nofun, fun takes _ fits => ?_⟩
  rw [written takes]
  cases capacity : h.capacity with
  | none =>
    refine .inl ⟨fun k limit => (nomatch capacity.symm.trans limit), ?_⟩
    simp only [write, Machine.under, capacity]
    rfl
  | some k =>
    have room := fits k capacity
    by_cases full : k ≤ m.printed.size
    · obtain rfl := Nat.le_antisymm room full
      refine .inr ⟨x, v, m, inside, overflows capacity, List.prefix_refl _, m.current, ?_⟩
      simp only [write, Machine.under, capacity, full, if_true]
    · refine .inl ⟨fun k' limit => ?_, ?_⟩
      · obtain rfl := Option.some.inj (capacity.symm.trans limit)
        show (m.printed.push v.text).size ≤ k
        rw [Array.size_push]
        exact Nat.lt_of_not_le full
      · simp only [write, Machine.under, capacity, full, if_false]
        rfl

end

/-! ## Tasks -/

/-- Under the other host every task goes on as it does, or stops at a point that it comes to. -/
theorem shadows_task (h : Host) (n : Nat) (t : Task) (m : Machine) :
    Shadows h (t.run n) m (Point.Reaches ⟨n, t, m⟩) := by
  induction n using Nat.strongRecOn generalizing t m with
  | ind n ih =>
    have rule : Point.Composes ⟨n, t, m⟩ fun _ y m' =>
        Shadows h y m' (Point.Reaches ⟨n, t, m⟩) := {
      outOfFuel := shadows_outOfFuel
      pure := fun _ => shadows_pure
      bind := shadows_bind
      within := shadows_within
      calls := fun calls => (ih _ calls.fuel_lt _ _).mono fun _ path => .head calls path
      fail := fun _ => shadows_fail
      get := shadows_get
      currentFrame := shadows_ok (.refl _) rfl rfl rfl
      freshIdentity := shadows_ok (keeps_freshIdentity _) rfl rfl rfl
      newFrame := fun outer _ => shadows_ok (keeps_newFrame outer _) rfl rfl rfl
      newInstance := fun c => shadows_ok (keeps_newInstance c _) rfl rfl rfl
      readClock := shadows_readClock
      lookUpAt := fun _ _ => shadows_ok (.refl _) rfl rfl rfl
      lookUp := fun id _ => shadows_lookUp id _
      setProperty := fun _ _ _ => shadows_modifyHeap _
      result := shadows_result
      assignFrom := fun frame v _ => shadows_assignFrom frame _ v
      assign := fun _ _ => shadows_assign _ _ _
      define := fun v _ _ => shadows_ok (keeps_define _ v _) rfl rfl rfl
      declare := fun _ _ => shadows_ok (keeps_declare _ _) rfl rfl rfl
      bindMethod := fun _ => shadows_ok (keeps_bindMethod _ _ _) rfl rfl rfl
      bindSuper := fun _ => shadows_modifyHeap _
      bindParams := fun _ => shadows_bindParams _ _ _
      write := fun here evaluated => shadows_write .refl fun full => here ▸ .intro evaluated full }
    exact rule.task

theorem shadows_topLevel (h : Host) (fuel : Nat) (ss : List Stmt) (m : Machine) :
    Shadows h (topLevel fuel ss) m (Passes fuel ss m) := by
  induction ss generalizing m with
  | nil => exact shadows_pure
  | cons s ss ih =>
    exact shadows_bind ((shadows_task h fuel (.stmt s) m).mono fun _ => Starts.first.passes)
      fun _ m₁ ran => (ih m₁).mono fun _ => .later ran

end Eval

/-! ## Runs -/

/-- How a run ends at last that was not cut off: that a flush fails is noticed only at the end of
the program. -/
def Ending.flushedBy (host : Host) : Ending → Ending
  | .finished =>
    if host.flushFails then .aborted (Failure.io .flushFailed).diagnostic else .finished
  | ending => ending

namespace Outcome

open Eval

theorem ofResult_resultUnder (host : Host) (r : EStateM.Result Stop Machine Unit) :
    ofResult (resultUnder host r) = ofResult r := by
  cases r with
  | ok _ m => rfl
  | error s m => cases s <;> rfl

theorem ofResult_flush (y : Eval Unit) (m : Machine) :
    ofResult ((y >>= fun _ => flush) m) =
      ⟨(machineOf (y m)).printed.toList,
        (ofResult (y m)).ending.flushedBy (machineOf (y m)).host⟩ := by
  cases e : y m with
  | ok _ m₁ =>
    rw [bind_of_ok e]
    cases fails : m₁.host.flushFails <;>
      simp only [flush, machineOf, ofResult, Ending.flushedBy, fails] <;> rfl
  | error s m₁ =>
    rw [bind_of_error e]
    cases s <;> rfl

end Outcome

section
variable {source : String} {p : Checked} {host : Host} {fuel : Nat}

/-- The statements do the same under the host as under one that never fails, if what they print
fits; otherwise they stop where the argument of the first print statement has been evaluated that
does not fit. -/
theorem Checked.topLevel_cases (p : Checked) (host : Host) (fuel : Nat) :
    (machineOf (Eval.topLevel fuel p.statements (p.start host.unfailing))).Fits host ∧
      Eval.topLevel fuel p.statements (p.start host) =
        Eval.resultUnder host (Eval.topLevel fuel p.statements (p.start host.unfailing)) ∨
    ∃ x v m, Reached p host.unfailing fuel x ∧ x.Overflows host v m ∧
      (m.printed.push v.text).toList <+:
        (machineOf (Eval.topLevel fuel p.statements (p.start host.unfailing))).printed.toList ∧
      Eval.topLevel fuel p.statements (p.start host) =
        .error (.failed (.io .sinkFull)) { m with host := host, current := 0 } := by
  have fits : (p.start host.unfailing).Fits host := fun k _ => Nat.zero_le k
  refine ((Eval.shadows_topLevel host fuel p.statements _).cut rfl rfl fits).imp_right ?_
  rintro ⟨x, v, m, ⟨_, ⟨s, m₀, starts, rfl⟩, path⟩, overflows, before, c, e⟩
  refine ⟨x, v, m, ⟨s, m₀, starts, path⟩, overflows, before, ?_⟩
  have e : Eval.topLevel fuel p.statements (p.start host) = _ := e
  -- the frame of the globals is current again
  have current := (Eval.keeps_topLevel fuel p.statements (p.start host)).current
  rw [e] at current ⊢
  obtain rfl : c = 0 := current
  rfl

/-- What a run prints, and how it ends, in terms of the statements of its program. -/
theorem Checked.run_eq (accepted : Source.check source = .ok p) (host : Host) (fuel : Nat) :
    run fuel host source =
      ⟨(machineOf (Eval.topLevel fuel p.statements (p.start host))).printed.toList,
        (Outcome.ofResult (Eval.topLevel fuel p.statements (p.start host))).ending.flushedBy
          host⟩ := by
  have same : (machineOf (Eval.topLevel fuel p.statements (p.start host))).host = host :=
    (Eval.keeps_topLevel fuel p.statements (p.start host)).host
  unfold run
  rw [accepted]
  refine (Outcome.ofResult_flush (Eval.topLevel fuel p.statements) (p.start host)).trans ?_
  rw [same]

theorem Checked.run_unfailing (accepted : Source.check source = .ok p) (host : Host) (fuel : Nat) :
    run fuel host.unfailing source =
      ⟨(machineOf (Eval.topLevel fuel p.statements (p.start host.unfailing))).printed.toList,
        (Outcome.ofResult
          (Eval.topLevel fuel p.statements (p.start host.unfailing))).ending⟩ := by
  rw [Checked.run_eq accepted]
  cases (Outcome.ofResult (Eval.topLevel fuel p.statements (p.start host.unfailing))).ending <;> rfl

/-- The failure of a program that the sink does not cut off. -/
theorem Checked.failure_cases {failure : Failure} {m : Machine}
    (e : Eval.topLevel fuel p.statements (p.start host) =
      Eval.resultUnder host (Eval.topLevel fuel p.statements (p.start host.unfailing)))
    (failed : Eval.program fuel p.statements p.distances (.start host) =
      .error (.failed failure) m) :
    (∃ e, failure = .runtime e) ∨ failure = .io .flushFailed ∧ host.flushFails = true ∧
      (Outcome.ofResult (Eval.topLevel fuel p.statements (p.start host.unfailing))).ending =
        .finished := by
  have noIo := (Eval.shadows_topLevel host fuel p.statements (p.start host.unfailing)).noIo rfl
  have same := (Eval.keeps_topLevel fuel p.statements (p.start host)).host
  have failed : (Eval.topLevel fuel p.statements >>= fun _ => Eval.flush) (p.start host) =
      .error (.failed failure) m := failed
  rcases bind_eq_error.mp failed with stopped | ⟨_, m₁, ended, flushed⟩
  · rw [e] at stopped
    cases r : Eval.topLevel fuel p.statements (p.start host.unfailing) with
    | ok _ m₁ =>
      rw [r] at stopped
      cases stopped
    | error s m₁ =>
      rw [r] at stopped
      cases stopped
      cases failure with
      | runtime error => exact .inl ⟨error, rfl⟩
      | io error => exact absurd r (noIo error m₁)
  · rw [ended] at same
    unfold Eval.flush at flushed
    split at flushed <;> cases flushed
    rename_i fails
    refine .inr ⟨rfl, (congrArg Host.flushFails same).symm.trans fails, ?_⟩
    rw [← Outcome.ofResult_resultUnder host, ← e, ended]
    rfl

end

/-- However much the sink of the host takes, a run prints as much of what it prints under a host
that never fails as the sink takes. If that is all, it ends in the same way, but for a flush that
fails at the end of the program. Otherwise the run ends because the sink is full: the machine is as
the argument of the first print statement that does not fit left it in the run under the host that
never fails, but that the frame of the globals is current again. In no other way does a run end
because of the sink, and all other failures are runtime errors. -/
theorem sink_cuts_run_off {source : String} {p : Checked} (accepted : Source.check source = .ok p)
    (fuel : Nat) (host : Host) :
    (∀ k ∈ host.capacity,
      (run fuel host source).printed = (run fuel host.unfailing source).printed.take k) ∧
    (host.capacity = none →
      (run fuel host source).printed = (run fuel host.unfailing source).printed) ∧
    ((∀ k ∈ host.capacity, (run fuel host.unfailing source).printed.length ≤ k) →
      (run fuel host source).ending = (run fuel host.unfailing source).ending.flushedBy host) ∧
    (∀ k ∈ host.capacity, k < (run fuel host.unfailing source).printed.length →
      (run fuel host source).ending = .aborted (Failure.io .sinkFull).diagnostic ∧
      ∃ x v m, Reached p host.unfailing fuel x ∧ x.Overflows host v m ∧
        Eval.program fuel p.statements p.distances (.start host) =
          .error (.failed (.io .sinkFull)) { m with host := host, current := 0 }) ∧
    ∀ failure m, Eval.program fuel p.statements p.distances (.start host) =
      .error (.failed failure) m →
      (∃ e, failure = .runtime e) ∨
      (failure = .io .sinkFull ∧
        ∃ k ∈ host.capacity, k < (run fuel host.unfailing source).printed.length) ∨
      (failure = .io .flushFailed ∧ host.flushFails = true ∧
        (run fuel host.unfailing source).ending = .finished) := by
  rw [Checked.run_unfailing accepted, Checked.run_eq accepted]
  rcases p.topLevel_cases host fuel with ⟨fits, same⟩ | ⟨x, v, m, reached, overflows, before, e⟩
  · rw [same, Outcome.ofResult_resultUnder]
    have printed : (machineOf (Eval.resultUnder host (Eval.topLevel fuel p.statements
        (p.start host.unfailing)))).printed =
        (machineOf (Eval.topLevel fuel p.statements (p.start host.unfailing))).printed := by
      cases Eval.topLevel fuel p.statements (p.start host.unfailing) <;> rfl
    rw [printed]
    refine ⟨fun k limit => (List.take_of_length_le (fits k limit)).symm, fun _ => rfl, fun _ => rfl,
      fun k limit more => absurd (fits k limit) (Nat.not_le.mpr more), fun failure m failed => ?_⟩
    exact (Checked.failure_cases same failed).imp_right .inr
  · have program : Eval.program fuel p.statements p.distances (.start host) =
        .error (.failed (.io .sinkFull)) { m with host := host, current := 0 } :=
      bind_of_error (x := Eval.topLevel fuel p.statements) (m := p.start host) e
    have full : host.capacity = some m.printed.size := by
      cases overflows
      assumption
    rw [Array.toList_push] at before
    have more : m.printed.size < (machineOf
        (Eval.topLevel fuel p.statements (p.start host.unfailing))).printed.toList.length := by
      have := before.length_le
      rwa [List.length_append] at this
    rw [e]
    refine ⟨fun k limit => ?_, fun unlimited => ?_, fun all => ?_, fun k limit _ => ?_,
      fun failure m' failed => ?_⟩
    · cases full.symm.trans limit
      exact List.prefix_iff_eq_take.mp ((List.prefix_append _ _).trans before)
    · cases full.symm.trans unlimited
    · exact absurd (all _ full) (Nat.not_le.mpr more)
    · exact ⟨rfl, x, v, m, reached, overflows, program⟩
    · cases program.symm.trans failed
      exact .inr (.inl ⟨rfl, _, full, more⟩)

/-- The sink takes the first text, and the run ends at the second print statement. -/
theorem second_print_is_cut_off :
    ∃ p x v m, Source.check "print \"a\"; print \"b\";" = .ok p ∧
      (run 5 ⟨fun _ => 0, some 1, false⟩ "print \"a\"; print \"b\";").printed = ["a"] ∧
      (run 5 ⟨fun _ => 0, some 1, false⟩ "print \"a\"; print \"b\";").ending =
        .aborted (Failure.io .sinkFull).diagnostic ∧
      Reached p ⟨fun _ => 0, none, false⟩ 5 x ∧ x.Overflows ⟨fun _ => 0, some 1, false⟩ v m := by
  let host : Host := ⟨fun _ => 0, some 1, false⟩
  let p : Checked := ⟨[.print (.literal (.string "a")), .print (.literal (.string "b"))], ∅⟩
  have accepted : Source.check "print \"a\"; print \"b\";" = .ok p := by cbv
  have whole : (run 5 host.unfailing "print \"a\"; print \"b\";").printed = ["a", "b"] := by cbv
  obtain ⟨printed, -, -, cut, -⟩ := sink_cuts_run_off accepted 5 host
  have first := printed 1 rfl
  rw [whole] at first cut
  obtain ⟨ending, x, v, m, reached, overflows, -⟩ := cut 1 rfl (by decide)
  exact ⟨p, x, v, m, accepted, first, ending, reached, overflows⟩

end Lox
