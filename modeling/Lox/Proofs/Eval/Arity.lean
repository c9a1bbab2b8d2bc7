import Mathlib.Data.List.Basic
import Lox.Proofs.Eval.Receivers
import Lox.Proofs.Eval.Discipline.Sessions

/-!
# Arguments and parameters

A call compares the number of its arguments with what the callee asks for (`Value.arity?`) before it
does anything else. A class asks for what its initializer asks for, wherever the initializer is
inherited from, and the initializer is called with the same arguments. So a function that is
entered, on whatever way, has an argument for each of its parameters (`Point.Supplied`), and its
body starts in a new frame that binds the one to the other (`Machine.StartsBody`).
-/

namespace Lox

/-- How many arguments a call of the value must give at least, if the value can be called. -/
def Value.arity? : Value → Option Nat
  | .function f => some f.arity
  | .class c => some c.arity
  | .native .clock => some 0
  | _ => none

theorem Class.arity_of_initializer {c : Class} {f : Function} (h : c.initializer? = some f) :
    c.arity = f.arity := by
  rw [arity, h]
  rfl

/-! ## The check -/

theorem Eval.length_of_exprs {n : Nat} {es : List Expr} {vs : List Value} {m m' : Machine}
    (e : exprs n es m = .ok vs m') : vs.length = es.length := by
  induction es generalizing n vs m m' with
  | nil =>
    cases n with
    | zero => cases e
    | succ n =>
      cases e
      rfl
  | cons first es ih =>
    cases n with
    | zero => cases e
    | succ n =>
      obtain ⟨v, m₁, -, e⟩ := bind_eq_ok.mp e
      obtain ⟨vs', m₂, rest, e⟩ := bind_eq_ok.mp e
      obtain ⟨rfl, -⟩ := pure_eq_ok.mp e
      rw [List.length_cons, List.length_cons, ih rest]

section
variable {n k : Nat} {f : Value} {paren : Lexeme} {vs : List Value} {m : Machine}

theorem Eval.checkArity_of_lt {given : Nat} (few : given < k) :
    checkArity paren k given m =
      .error (.failed (.runtime ⟨.notEnoughArguments k given, paren.line⟩)) m := by
  rw [checkArity, if_pos few]
  rfl

/-- With too few arguments a call fails at once. -/
theorem Eval.apply_of_few (asks : f.arity? = some k) (few : vs.length < k) :
    apply (n + 1) f paren vs m =
      .error (.failed (.runtime ⟨.notEnoughArguments k vs.length, paren.line⟩)) m := by
  cases f with
  | function f =>
    cases asks
    exact bind_of_error (checkArity_of_lt few)
  | «class» c =>
    cases asks
    exact bind_of_error (checkArity_of_lt few)
  | native f =>
    cases f
    cases asks
    exact absurd few (Nat.not_lt_zero _)
  | _ => cases asks

/-- With too few arguments nothing is entered. -/
theorem Point.not_calls_of_few (asks : f.arity? = some k) (few : vs.length < k) (y : Point) :
    ¬ Calls ⟨n, .apply f paren vs, m⟩ y := by
  intro calls
  cases calls with
  | function enough | «class» enough =>
    cases asks
    exact absurd enough (Nat.not_le.mpr few)

end

/-! ## What is entered -/

/-- Where a function is called or an instance is made, there is an argument for each parameter. -/
def Point.Supplied (x : Point) : Prop :=
  match x.task with
  | .call f vs => f.arity ≤ vs.length
  | .make c vs => c.arity ≤ vs.length
  | _ => True

/-- A call that is entered has passed the check; an initializer has the arguments that were checked
for its class. -/
theorem Point.Calls.supplied {x y : Point} (h : x.Calls y) (supplied : x.Supplied) :
    y.Supplied := by
  cases h with
  | function enough | «class» enough => exact enough
  | initializer found _ => exact (Class.arity_of_initializer found).symm.le.trans supplied
  | _ => trivial

theorem Point.Reaches.supplied {x y : Point} (h : x.Reaches y) (supplied : x.Supplied) :
    y.Supplied := by
  induction h with
  | refl => exact supplied
  | tail _ calls ih => exact calls.supplied ih

theorem Session.Comes.supplied {fuel : Nat} {m : Machine} {steps : List Step} {x : Point}
    (comes : Comes fuel m steps x) : x.Supplied := by
  obtain ⟨_, s, _, -, y, begins, path⟩ := comes
  refine path.supplied ?_
  cases s with
  | evaluate source =>
    obtain ⟨_, -, rfl⟩ := begins
    trivial
  | run source | runAt source distances =>
    obtain ⟨_, -, _, _, -, rfl⟩ := begins
    trivial

/-! ## The frame of a call -/

namespace Heap

theorem size_defineAll (h : Heap) (f : FrameId) (params : List Lexeme) (vs : List Value) :
    (h.defineAll f params vs).frames.size = h.frames.size := by
  induction params generalizing h vs with
  | nil => rfl
  | cons param params ih =>
    cases vs with
    | nil => rfl
    | cons v vs => rw [defineAll, ih, size_define]

/-- Values without a name are not looked at. -/
theorem defineAll_take (h : Heap) (f : FrameId) (params : List Lexeme) (vs : List Value) :
    h.defineAll f params (vs.take params.length) = h.defineAll f params vs := by
  induction params generalizing h vs with
  | nil => rfl
  | cons param params ih =>
    cases vs with
    | nil => rfl
    | cons v vs => exact ih ..

theorem lookup?_defineAll_of_frame {h : Heap} {f g : FrameId} (apart : g ≠ f)
    (params : List Lexeme) (vs : List Value) (name : String) :
    (h.defineAll f params vs).lookup? g name = h.lookup? g name := by
  induction params generalizing h vs with
  | nil => rfl
  | cons param params ih =>
    cases vs with
    | nil => rfl
    | cons v vs => rw [defineAll, ih, lookup?_define, if_neg fun c => apart c.1]

/-- A name is bound to the value at its last place. -/
theorem lookup?_defineAll_of_last {h : Heap} {f : FrameId} (inside : f < h.frames.size)
    {params : List Lexeme} {vs : List Value} (enough : params.length ≤ vs.length) {i : Nat}
    {param : Lexeme} (there : params[i]? = some param)
    (last : ∀ j later, i < j → params[j]? = some later → later.text ≠ param.text) :
    ∃ v, vs[i]? = some v ∧ (h.defineAll f params vs).lookup? f param.text = some v := by
  induction params generalizing h vs i with
  | nil => cases there
  | cons first params ih =>
    cases vs with
    | nil => exact absurd enough (Nat.not_succ_le_zero _)
    | cons v vs =>
      cases i with
      | zero =>
        cases there
        have apart : ∀ later ∈ params, later.text ≠ param.text := fun later inside => by
          obtain ⟨j, there⟩ := List.getElem?_of_mem inside
          exact last (j + 1) later (Nat.succ_pos j) there
        refine ⟨v, rfl, ?_⟩
        rw [defineAll, lookup?_defineAll_of_ne apart, lookup?_define, if_pos ⟨rfl, inside, rfl⟩]
      | succ i =>
        exact ih (by rwa [size_define]) (Nat.le_of_succ_le_succ enough) there
          fun j later after there' => last (j + 1) later (Nat.succ_lt_succ after) there'

end Heap

/-- On `m'` the body of `f` starts, after a call with `vs` on `m`: in a new frame inside the closure
of `f`, which binds each parameter to the argument at its place, or, if two have the same name, the
later one, and no other name. All else is as on `m`. -/
structure Machine.StartsBody (m : Machine) (f : Function) (vs : List Value) (m' : Machine) :
    Prop where
  new : m'.current = m.heap.frames.size
  size : m'.heap.frames.size = m.heap.frames.size + 1
  inside : m'.heap.enclosing? m'.current = some f.closure
  bound : ∀ (i : Nat) (param : Lexeme), f.decl.params[i]? = some param →
    (∀ j later, i < j → f.decl.params[j]? = some later → later.text ≠ param.text) →
    ∃ v, vs[i]? = some v ∧ m'.heap.lookup? m'.current param.text = some v
  only : ∀ name, (∀ param ∈ f.decl.params, param.text ≠ name) →
    m'.heap.lookup? m'.current name = none
  others : ∀ g, g ≠ m'.current → m'.heap.enclosing? g = m.heap.enclosing? g ∧
    ∀ name, m'.heap.lookup? g name = m.heap.lookup? g name
  fields : m'.heap.fields = m.heap.fields
  rest : m' = { m with heap := m'.heap, current := m'.current }

theorem Machine.startsBody_activate (m : Machine) {f : Function} {vs : List Value}
    (enough : f.arity ≤ vs.length) : m.StartsBody f vs (m.activate f vs) where
  new := rfl
  size := by
    show ((m.heap.push _).defineAll _ _ _).frames.size = _
    rw [Heap.size_defineAll, Heap.size_push]
  inside := m.enclosing?_activate f vs
  bound := fun _ _ => Heap.lookup?_defineAll_of_last
    (by rw [Heap.size_push]; exact Nat.lt_succ_self _) enough
  only := fun name apart => by
    show ((m.heap.push _).defineAll _ _ _).lookup? _ _ = _
    rw [Heap.lookup?_defineAll_of_ne apart, Heap.lookup?_push]
    exact Heap.lookup?_of_ge (Nat.le_refl _) _
  others := fun g apart => by
    replace apart : g ≠ m.heap.frames.size := apart
    constructor
    · show ((m.heap.push _).defineAll _ _ _).enclosing? _ = _
      rw [Heap.enclosing?_defineAll, Heap.enclosing?_push, if_neg apart]
    · intro name
      show ((m.heap.push _).defineAll _ _ _).lookup? _ _ = _
      rw [Heap.lookup?_defineAll_of_frame apart, Heap.lookup?_push]
  fields := Heap.fields_defineAll ..
  rest := rfl

/-- A call with fewer arguments than the callee asks for fails at the closing parenthesis, when the
arguments have been evaluated and before anything else is done. A function that is entered in a
session has an argument for each parameter: its body starts in a new frame that binds these, and
does not depend on the other arguments. -/
theorem calls_bind_all_parameters (fuel : Nat) (m : Machine) (steps : List Step) :
    (∀ n callee paren arguments m f m₁ vs m₂ k, Eval.expr n callee m = .ok f m₁ →
      Eval.exprs n arguments m₁ = .ok vs m₂ → f.arity? = some k → arguments.length < k →
      Eval.expr (n + 1) (.call callee paren arguments) m =
          .error (.failed (.runtime ⟨.notEnoughArguments k arguments.length, paren.line⟩)) m₂ ∧
        ∀ y, ¬ Point.Calls ⟨n, .apply f paren vs, m₂⟩ y) ∧
    ∀ x f vs, Session.Comes fuel m steps x → x.task = .call f vs →
      f.decl.params.length ≤ vs.length ∧
      ∀ y, x.Calls y → y.task = .stmts f.decl.body ∧
        y.machine = x.machine.activate f (vs.take f.decl.params.length) ∧
        x.machine.StartsBody f vs y.machine := by
  constructor
  · intro n callee paren arguments m f m₁ vs m₂ k evaluated evaluated' asks few
    rw [← Eval.length_of_exprs evaluated'] at few ⊢
    refine ⟨?_, Point.not_calls_of_few asks few⟩
    obtain ⟨n, rfl⟩ : ∃ n', n = n' + 1 := by
      cases n with
      | zero => cases evaluated
      | succ n => exact ⟨n, rfl⟩
    refine (bind_of_ok evaluated).trans ((bind_of_ok evaluated').trans ?_)
    exact Eval.apply_of_few asks few
  · intro x f vs comes task
    have enough := comes.supplied
    obtain ⟨n, t, m⟩ := x
    dsimp only at task
    subst task
    refine ⟨enough, fun y calls => ?_⟩
    cases calls with
    | body =>
      refine ⟨rfl, ?_, m.startsBody_activate enough⟩
      rw [Machine.activate, Machine.activate, Heap.defineAll_take]

/-- With the survey left out, a function may have two parameters of one name. The last argument here
is dropped; a call with one argument fails. -/
theorem later_parameter_is_bound :
    let steps : List Step := [.runAt "fun f(a, a) \x7b\x7d f(\"one\", \"two\", \"three\");" ∅]
    let vs : List Value := [.string "one", .string "two", .string "three"]
    let callee : Expr := .variable 0 ⟨"f", 1⟩
    ∃ m f, Session.Comes 9 (.start ⟨fun _ => 0, none, false⟩) steps ⟨6, .call f vs, m⟩ ∧
      f.decl.params.map Lexeme.text = ["a", "a"] ∧ f.decl.params.length ≤ vs.length ∧
      m.heap.frames.size = 1 ∧
      (m.activate f vs).heap.lookup? 1 "a" = some (.string "two") ∧
      Eval.expr 9 (.call callee ⟨")", 1⟩ [.literal (.string "one")]) m =
        .error (.failed (.runtime ⟨.notEnoughArguments 2 1, 1⟩)) m := by
  intro steps vs callee
  let decl : FunctionDecl := ⟨⟨"f", 1⟩, [⟨"a", 1⟩, ⟨"a", 1⟩], []⟩
  let arguments : List Expr :=
    [.literal (.string "one"), .literal (.string "two"), .literal (.string "three")]
  let ss : List Stmt := [.function decl, .expression (.call callee ⟨")", 1⟩ arguments)]
  have read : Source.statements "fun f(a, a) \x7b\x7d f(\"one\", \"two\", \"three\");" = .ok ss := by
    cbv
  let start : Machine := .start ⟨fun _ => 0, none, false⟩
  let f : Function := ⟨0, decl, 0, false⟩
  let m : Machine := { start with
    heap := (start.heap.declare 0 "f").define 0 "f" (.function f)
    nextIdentity := 1 }
  have ran : Eval.stmt 9 (.function decl) start = .ok .normal m := by cbv
  have evaluated (k : Nat) : Eval.expr (k + 1) callee m = .ok (.function f) m := by
    with_unfolding_all rfl
  have comes : Session.Comes 9 start steps ⟨6, .call f vs, m⟩ :=
    ⟨[], _, [], rfl, _, ⟨ss, read, _, m, .later ran .first, rfl⟩,
      ((Relation.ReflTransGen.single .expression).tail (.apply (evaluated 6) rfl)).tail
        (.function (Nat.le_succ 2))⟩
  obtain ⟨few, supplied⟩ := calls_bind_all_parameters 9 start steps
  obtain ⟨enough, opens⟩ := supplied _ f vs comes rfl
  obtain ⟨-, -, starts⟩ := opens _ .body
  obtain ⟨v, ⟨⟩, bound⟩ := starts.bound 1 ⟨"a", 1⟩ rfl fun j later after there => by
    cases List.getElem?_eq_none (l := decl.params) after ▸ there
  exact ⟨m, f, comes, rfl, enough, rfl, bound,
    (few 8 callee ⟨")", 1⟩ [.literal (.string "one")] m _ m [.string "one"] m 2 (evaluated 7) rfl rfl
      (Nat.lt_succ_self 1)).1⟩

end Lox
