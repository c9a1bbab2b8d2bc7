import Lox.Proofs.Heap.Registry

/-!
# Plain machines

Where nothing but plain values is on the heap, an expression makes no function, class or instance:
what it can call is the clock, and no value has properties. So it prints nothing, and it ends with a
plain value or with a runtime error, if there is as much fuel as the expression is large
(`Eval.EndsPlainly`). This is kept by sequencing and is true of the operations, and so of all
expressions, by induction on the fuel (`Eval.plainlyExpressions`).
-/

namespace Lox

theorem Expr.sizeOf_pos (e : Expr) : 0 < sizeOf e := by
  cases e <;> simp +arith

namespace Eval

variable {α β : Type}

/-- The end of a computation that prints nothing and makes no function, class or instance. With
`enough` fuel it ends with a value in `P` or with a runtime error. -/
inductive EndsPlainly (enough : Prop) (P : α → Prop) (m : Machine) :
    EStateM.Result Stop Machine α → Prop
  | ok {a m'} (holds : P a) (plain : m'.heap.Within Value.IsPlain)
    (silent : m'.printed = m.printed) : EndsPlainly enough P m (.ok a m')
  | failed {error m'} (silent : m'.printed = m.printed) :
    EndsPlainly enough P m (.error (.failed (.runtime error)) m')
  | outOfFuel {m'} (short : ¬ enough) : EndsPlainly enough P m (.error .outOfFuel m')

/-- From every machine on whose heap there are only plain values the computation ends plainly. -/
def Plainly (enough : Prop) (P : α → Prop) (y : Eval α) : Prop :=
  ∀ m : Machine, m.heap.Within Value.IsPlain → EndsPlainly enough P m (y m)

section
variable {enough enough' : Prop} {P : α → Prop} {Q : β → Prop}

/-! ## Sequencing -/

theorem EndsPlainly.mono {m m₁ : Machine} {r : EStateM.Result Stop Machine α}
    (h : EndsPlainly enough P m₁ r) (more : enough' → enough) (silent : m₁.printed = m.printed) :
    EndsPlainly enough' P m r := by
  cases h with
  | ok holds plain silent' => exact .ok holds plain (silent'.trans silent)
  | failed silent' => exact .failed (silent'.trans silent)
  | outOfFuel short => exact .outOfFuel (mt more short)

theorem Plainly.mono {y : Eval α} (h : Plainly enough P y) (more : enough' → enough) :
    Plainly enough' P y :=
  fun m plain => (h m plain).mono more rfl

theorem plainly_pure {a : α} (holds : P a) : Plainly enough P (pure a) :=
  fun _ plain => .ok holds plain rfl

theorem plainly_fail {blamed : Lexeme} {cause : RuntimeCause} :
    Plainly enough P (fail blamed cause : Eval α) :=
  fun _ _ => .failed rfl

theorem plainly_outOfFuel (short : ¬ enough) : Plainly enough P (throw .outOfFuel : Eval α) :=
  fun _ _ => .outOfFuel short

theorem Plainly.bind {y : Eval α} {f : α → Eval β} (hy : Plainly enough P y)
    (hf : ∀ a, P a → Plainly enough Q (f a)) : Plainly enough Q (y >>= f) := by
  intro m plain
  have first := hy m plain
  generalize e : y m = r at first
  cases first with
  | ok holds plain' silent =>
    rw [bind_of_ok e]
    exact (hf _ holds _ plain').mono id silent
  | failed silent =>
    rw [bind_of_error e]
    exact .failed silent
  | outOfFuel short =>
    rw [bind_of_error e]
    exact .outOfFuel short

theorem plainly_get {f : Machine → Eval β} (h : ∀ m, Plainly enough Q (f m)) :
    Plainly enough Q (get >>= f) :=
  fun m => h m m

/-! ## Operations -/

theorem plainly_ofExcept {mark : Lexeme} {r : Except RuntimeCause Value}
    (plain : ∀ v, r = .ok v → v.IsPlain) : Plainly enough Value.IsPlain (ofExcept mark r) := by
  cases r with
  | ok v => exact plainly_pure (plain v rfl)
  | error cause => exact plainly_fail

theorem plainly_readClock : Plainly enough Value.IsPlain readClock :=
  fun _ plain => .ok trivial plain rfl

theorem plainly_lookUp (id : ExprId) (name : Lexeme) :
    Plainly enough Value.IsPlain (lookUp id name) := by
  intro m plain
  unfold lookUp
  split
  · exact .ok (plain.getAt trivial ..) plain rfl
  · split
    · rename_i v found
      obtain ⟨holder, -, found⟩ := Option.bind_eq_some_iff.mp found
      exact .ok (plain.binding _ _ _ found) plain rfl
    · exact .failed rfl

theorem plainly_lookUpAt (distance : Nat) (name : String) :
    Plainly enough Value.IsPlain (lookUpAt distance name) :=
  fun _ plain => .ok (plain.getAt trivial ..) plain rfl

theorem plainly_assign {v : Value} (hv : v.IsPlain) (id : ExprId) (name : Lexeme) :
    Plainly enough (fun _ => True) (assign id name v) := by
  intro m plain
  unfold assign
  split
  · exact .ok trivial (plain.binds (Heap.binds_define ..) hv) rfl
  · unfold assignFrom
    split
    · exact .ok trivial (plain.binds (Heap.binds_define ..) hv) rfl
    · exact .failed rfl

/-- No value is a superclass or a receiver. -/
theorem plainly_superMethod (id : ExprId) (keyword method : Lexeme) :
    Plainly enough Value.IsPlain (superMethod id keyword method) := by
  refine plainly_get fun m => ?_
  split
  · exact plainly_fail
  · exact plainly_fail
  · refine (plainly_lookUpAt _ _).bind fun superclass hc => ?_
    refine (plainly_lookUpAt _ _).bind fun receiver _ => ?_
    split
    · exact hc.elim
    · exact plainly_fail

end

/-! ## Rules -/

/-- Only what the machine provides can be called. -/
theorem plainly_apply {f : Value} (hf : f.IsPlain) (n : Nat) (paren : Lexeme) (vs : List Value) :
    Plainly (0 < n) Value.IsPlain (apply n f paren vs) := by
  cases n with
  | zero => exact plainly_outOfFuel (Nat.lt_irrefl 0)
  | succ n =>
    cases f with
    | native f =>
      cases f with
      | clock => exact plainly_readClock
    | function f | «class» c | «instance» o => exact hf.elim
    | nil | bool b | number x | string s => exact plainly_fail

/-- With as much fuel as they are large, expressions end plainly. -/
structure Expressions (n : Nat) : Prop where
  expr : ∀ e, Plainly (sizeOf e ≤ n) Value.IsPlain (expr n e)
  exprs : ∀ es, Plainly (sizeOf es ≤ n) (fun _ => True) (exprs n es)

section
variable {n : Nat} (ih : Expressions n)
include ih

theorem plainly_expr_succ (e : Expr) :
    Plainly (sizeOf e ≤ n + 1) Value.IsPlain (expr (n + 1) e) := by
  cases e with
  | assign id name value =>
    rw [Expr.assign.sizeOf_spec]
    refine ((ih.expr value).mono (by omega)).bind fun v hv => ?_
    exact (plainly_assign hv id name).bind fun _ _ => plainly_pure hv
  | binary op mark left right =>
    rw [Expr.binary.sizeOf_spec]
    refine ((ih.expr left).mono (by omega)).bind fun a _ => ?_
    refine ((ih.expr right).mono (by omega)).bind fun b _ => ?_
    exact plainly_ofExcept fun v => BinaryOp.isPlain_of_apply
  | call callee paren arguments =>
    rw [Expr.call.sizeOf_spec]
    refine ((ih.expr callee).mono (by omega)).bind fun f hf => ?_
    refine ((ih.exprs arguments).mono (by omega)).bind fun vs _ => ?_
    have := callee.sizeOf_pos
    exact (plainly_apply hf n paren vs).mono (by omega)
  | get object name =>
    rw [Expr.get.sizeOf_spec]
    refine ((ih.expr object).mono (by omega)).bind fun v hv => ?_
    split
    · exact hv.elim
    · exact plainly_fail
  | grouping inner =>
    rw [Expr.grouping.sizeOf_spec]
    exact (ih.expr inner).mono (by omega)
  | literal value => exact plainly_pure (by cases value <;> trivial)
  | logical op mark left right =>
    rw [Expr.logical.sizeOf_spec]
    refine ((ih.expr left).mono (by omega)).bind fun v hv => ?_
    split
    · exact plainly_pure hv
    · exact (ih.expr right).mono (by omega)
  | set object name value =>
    rw [Expr.set.sizeOf_spec]
    refine ((ih.expr value).mono (by omega)).bind fun v _ => ?_
    refine ((ih.expr object).mono (by omega)).bind fun o ho => ?_
    split
    · exact ho.elim
    · exact plainly_fail
  | super id keyword method => exact plainly_superMethod id keyword method
  | this id keyword => exact plainly_lookUp id keyword
  | unary op mark right =>
    rw [Expr.unary.sizeOf_spec]
    refine ((ih.expr right).mono (by omega)).bind fun v _ => ?_
    exact plainly_ofExcept fun w => UnaryOp.isPlain_of_apply
  | «variable» id name => exact plainly_lookUp id name

theorem plainly_exprs_succ (es : List Expr) :
    Plainly (sizeOf es ≤ n + 1) (fun _ => True) (exprs (n + 1) es) := by
  cases es with
  | nil => exact plainly_pure trivial
  | cons e es =>
    rw [List.cons.sizeOf_spec]
    refine ((ih.expr e).mono (by omega)).bind fun v _ => ?_
    refine ((ih.exprs es).mono (by omega)).bind fun vs _ => ?_
    exact plainly_pure trivial

end

theorem plainlyExpressions (n : Nat) : Expressions n := by
  induction n with
  | zero =>
    refine ⟨fun e => plainly_outOfFuel ?_, fun es => plainly_outOfFuel ?_⟩
    · exact Nat.not_le.mpr e.sizeOf_pos
    · cases es <;> simp +arith
  | succ n ih => exact ⟨plainly_expr_succ ih, plainly_exprs_succ ih⟩

end Eval

end Lox
