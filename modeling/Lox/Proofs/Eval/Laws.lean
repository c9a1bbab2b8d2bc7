import Lox.Eval
import Lox.Heap.Lemmas
import Lox.Proofs.Sequencing

/-!
# Laws of computations

How a computation on the machine comes to its end, and what the composite steps of a call do to the
machine, written without the steps in between: entering a block (`Machine.enter`), binding a method
(`bind_apply`), entering the body of a function (`call_succ`) and making an instance
(`make_of_none`, `make_of_some`).
-/

namespace Lox

/-- The machine in which the body of a block starts, in a new frame inside `outer`. -/
def Machine.enter (m : Machine) (outer : FrameId) : Machine :=
  { m with heap := m.heap.push (some outer), current := m.heap.frames.size }

/-- Binds names to values in a frame, in order, as long as there are both. -/
def Heap.defineAll (h : Heap) (frame : FrameId) : List Lexeme → List Value → Heap
  | name :: names, v :: vs => (h.define frame name.text v).defineAll frame names vs
  | _, _ => h

/-- The machine in which the body of `f` starts when it is called with `vs`. -/
def Machine.activate (m : Machine) (f : Function) (vs : List Value) : Machine :=
  { m with
    heap := (m.heap.push (some f.closure)).defineAll m.heap.frames.size f.decl.params vs
    current := m.heap.frames.size }

/-- The method `f` after it was bound by the machine `m`. -/
def Function.boundBy (f : Function) (m : Machine) : Function :=
  { f with identity := m.nextIdentity, closure := m.heap.frames.size }

/-- The machine after it bound the method `f` to `o`. -/
def Machine.afterBinding (m : Machine) (f : Function) (o : Instance) : Machine :=
  { m with
    heap := (m.heap.push (some f.closure)).define m.heap.frames.size "this" (.instance o)
    nextIdentity := m.nextIdentity + 1 }

/-! ## Plain values -/

/-- The value is no function, class or instance of a class. -/
def Value.IsPlain : Value → Prop
  | .function _ | .class _ | .instance _ => False
  | _ => True

theorem BinaryOp.onNumbers_eq_ok {f : Float → Float → Value} {a b v : Value}
    (e : onNumbers f a b = .ok v) : ∃ x y, v = f x y := by
  unfold onNumbers at e
  split at e
  · cases e
    exact ⟨_, _, rfl⟩
  · cases e

theorem BinaryOp.isPlain_of_apply {op : BinaryOp} {a b v : Value} (e : op.apply a b = .ok v) :
    v.IsPlain := by
  cases op with
  | add =>
    cases a <;> cases b <;> cases e <;> trivial
  | equal | unequal =>
    cases e
    trivial
  | subtract | multiply | divide | greater | greaterEqual | less | lessEqual =>
    obtain ⟨x, y, rfl⟩ := onNumbers_eq_ok e
    trivial

theorem UnaryOp.isPlain_of_apply {op : UnaryOp} {v w : Value} (e : op.apply v = .ok w) :
    w.IsPlain := by
  cases op with
  | not =>
    cases e
    trivial
  | negate =>
    cases v with
    | number x =>
      cases e
      trivial
    | _ => cases e

/-- On a new machine only `clock` is bound. -/
theorem Machine.isPlain_of_start {host : Host} {f : FrameId} {name : String} {v : Value}
    (e : (Machine.start host).heap.lookup? f name = some v) : v.IsPlain := by
  rw [Machine.start, Heap.lookup?_define] at e
  split at e
  · cases e
    trivial
  · rw [Heap.lookup?_push] at e
    cases e

namespace Eval

variable {α β : Type}

/-! ## Steps -/

@[simp] theorem pure_eq_ok {a b : α} {m m' : Machine} :
    (pure a : Eval α) m = .ok b m' ↔ a = b ∧ m = m' := by
  show EStateM.Result.ok a m = _ ↔ _
  simp

@[simp] theorem throw_eq_ok {s : Stop} {b : α} {m m' : Machine} :
    (throw s : Eval α) m = .ok b m' ↔ False :=
  iff_of_false nofun id

@[simp] theorem fail_eq_ok {blamed : Lexeme} {cause : RuntimeCause} {b : α} {m m' : Machine} :
    (fail blamed cause : Eval α) m = .ok b m' ↔ False :=
  throw_eq_ok

theorem within_eq_ok {frame : FrameId} {body : Eval α} {a : α} {m m' : Machine} :
    within frame body m = .ok a m' ↔
      ∃ m₁, body { m with current := frame } = .ok a m₁ ∧
        m' = { m₁ with current := m.current } := by
  unfold within
  cases h : body { m with current := frame } with
  | ok b m₁ =>
    constructor
    · rintro ⟨⟩
      exact ⟨m₁, rfl, rfl⟩
    · rintro ⟨_, e, rfl⟩
      cases e
      rfl
  | error s m₁ => exact ⟨nofun, fun ⟨_, e, _⟩ => nomatch e⟩

theorem within_of_ok {frame : FrameId} {body : Eval α} {m m₁ : Machine} {a : α}
    (h : body { m with current := frame } = .ok a m₁) :
    within frame body m = .ok a { m₁ with current := m.current } :=
  within_eq_ok.mpr ⟨m₁, h, rfl⟩

theorem within_of_error {frame : FrameId} {body : Eval α} {m m₁ : Machine} {s : Stop}
    (h : body { m with current := frame } = .error s m₁) :
    within frame body m = .error s { m₁ with current := m.current } := by
  unfold within
  simp only [h]

/-! ## Assignment -/

theorem assignFrom_of_some {frame holder : FrameId} {name : Lexeme} {v : Value} {m : Machine}
    (h : m.heap.holder? frame name.text = some holder) :
    assignFrom frame name v m =
      .ok () { m with heap := m.heap.define holder name.text v } := by
  unfold assignFrom
  rw [h]

theorem assignFrom_of_none {frame : FrameId} {name : Lexeme} {v : Value} {m : Machine}
    (h : m.heap.holder? frame name.text = none) :
    assignFrom frame name v m = fail name (.undefinedVariable name.text) m := by
  unfold assignFrom
  rw [h]

/-! ## Declarations -/

/-- To look for a superclass changes nothing. -/
theorem machine_of_superclassOf {name : Lexeme} {superclass : Option Superclass} {m m' : Machine}
    {c : Option Class} (e : superclassOf name superclass m = .ok c m') : m' = m := by
  cases superclass with
  | none => exact (pure_eq_ok.mp e).2.symm
  | some superclass =>
    obtain ⟨v, m₁, found, e⟩ := bind_eq_ok.mp e
    have same : m₁ = m := by
      unfold lookUp at found
      split at found
      · cases found
        rfl
      · split at found
        · cases found
          rfl
        · exact (fail_eq_ok.mp found).elim
    split at e
    · exact (pure_eq_ok.mp e).2.symm.trans same
    · exact (fail_eq_ok.mp e).elim

/-! ## Calls -/

theorem checkArity_eq_ok {paren : Lexeme} {expected given : Nat} {m m' : Machine} :
    checkArity paren expected given m = .ok () m' ↔ expected ≤ given ∧ m' = m := by
  unfold checkArity
  split
  · rename_i few
    exact iff_of_false (fun e => fail_eq_ok.mp e) fun h => absurd few (Nat.not_lt.mpr h.1)
  · rename_i enough
    rw [pure_eq_ok]
    exact ⟨fun e => ⟨Nat.le_of_not_lt enough, e.2.symm⟩, fun h => ⟨rfl, h.2.symm⟩⟩

theorem bindParams_apply (frame : FrameId) (params : List Lexeme) (vs : List Value) (m : Machine) :
    bindParams frame params vs m = .ok () { m with heap := m.heap.defineAll frame params vs } := by
  induction params generalizing vs m with
  | nil => rfl
  | cons param params ih =>
    cases vs with
    | nil => rfl
    | cons v vs => exact (bind_of_ok rfl).trans (ih vs _)

theorem bind_apply (f : Function) (o : Instance) (m : Machine) :
    bind f o m = .ok (f.boundBy m) (m.afterBinding f o) :=
  rfl

theorem call_succ (n : Nat) (f : Function) (vs : List Value) (m : Machine) :
    call (n + 1) f vs m =
      (within m.heap.frames.size (stmts n f.decl.body) >>= result f)
        { m.activate f vs with current := m.current } := by
  refine (bind_of_ok (x := newFrame f.closure) rfl).trans ?_
  exact bind_of_ok (bindParams_apply ..)

/-- A call ends with a value if the body ends without failure. -/
theorem call_eq_ok {n : Nat} {f : Function} {vs : List Value} {v : Value} {m m' : Machine} :
    call (n + 1) f vs m = .ok v m' ↔
      ∃ flow m₁, stmts n f.decl.body (m.activate f vs) = .ok flow m₁ ∧
        result f flow { m₁ with current := m.current } = .ok v m' := by
  rw [call_succ]
  simp only [bind_eq_ok, within_eq_ok]
  constructor
  · rintro ⟨flow, _, ⟨m₁, h, rfl⟩, h'⟩
    exact ⟨flow, m₁, h, h'⟩
  · rintro ⟨flow, m₁, h, h'⟩
    exact ⟨flow, _, ⟨m₁, h, rfl⟩, h'⟩

/-- A function gives what its call gives. -/
theorem call_of_apply {n : Nat} {f : Function} {paren : Lexeme} {vs : List Value} {v : Value}
    {m m' : Machine} (e : apply n (.function f) paren vs m = .ok v m') :
    ∃ k, n = k + 1 ∧ call k f vs m = .ok v m' := by
  cases n with
  | zero => cases e
  | succ n =>
    obtain ⟨_, m₁, checked, gives⟩ := bind_eq_ok.mp e
    obtain ⟨-, rfl⟩ := checkArity_eq_ok.mp checked
    exact ⟨n, rfl, gives⟩

/-- A class gives what the making of an instance gives. -/
theorem make_of_apply {n : Nat} {c : Class} {paren : Lexeme} {vs : List Value} {v : Value}
    {m m' : Machine} (e : apply n (.class c) paren vs m = .ok v m') :
    ∃ k, n = k + 1 ∧ make k c vs m = .ok v m' := by
  cases n with
  | zero => cases e
  | succ n =>
    obtain ⟨_, m₁, checked, gives⟩ := bind_eq_ok.mp e
    obtain ⟨-, rfl⟩ := checkArity_eq_ok.mp checked
    exact ⟨n, rfl, gives⟩

theorem make_of_none {c : Class} (h : c.initializer? = none) (n : Nat) (vs : List Value)
    (m : Machine) :
    make (n + 1) c vs m =
      .ok (.instance ⟨m.heap.fields.size, c⟩) { m with heap := m.heap.pushInstance } := by
  refine (bind_of_ok (x := newInstance c) rfl).trans ?_
  rw [h]
  rfl

/-- An initializer is bound to the new instance and called; what the call gives is dropped. -/
theorem make_of_some {c : Class} {f : Function} (h : c.initializer? = some f) (n : Nat)
    (vs : List Value) (m : Machine) :
    make (n + 1) c vs m =
      (do let _ ← call n (f.boundBy { m with heap := m.heap.pushInstance }) vs
          return Value.instance ⟨m.heap.fields.size, c⟩)
        (({ m with heap := m.heap.pushInstance } : Machine).afterBinding f
          ⟨m.heap.fields.size, c⟩) := by
  refine (bind_of_ok (x := newInstance c) rfl).trans ?_
  rw [h]
  exact bind_of_ok (bind_apply f _ _)

end Eval

end Lox
