import Lox.Proofs.Eval.Laws

/-!
# Values that cannot be told apart

Two values are similar if they are the same plain value, or functions, classes or instances with the
same identity and the same text (`Value.Similar`). No operator can tell similar values apart, and
what is printed for them is the same.
-/

namespace Lox

/-- The values differ at most in the code of their functions and in what their classes hold. -/
inductive Value.Similar : Value → Value → Prop
  | plain {v : Value} (h : v.IsPlain) : Value.Similar v v
  | function {f f' : Function} (identity : f'.identity = f.identity)
    (name : f'.decl.name.text = f.decl.name.text) : Value.Similar (.function f) (.function f')
  | class {c c' : Class} (identity : c'.identity = c.identity) (name : c'.name = c.name) :
    Value.Similar (.class c) (.class c')
  | instance {o o' : Instance} (identity : o'.identity = o.identity)
    (name : o'.ofClass.name = o.ofClass.name) : Value.Similar (.instance o) (.instance o')

variable {v v' w w' : Value}

/-- A plain value equals no function, class or instance. -/
theorem Value.IsPlain.equals_eq_false (hv : v.IsPlain) (hw : ¬ w.IsPlain) :
    v.equals w = false ∧ w.equals v = false := by
  cases v with
  | function _ | «class» _ | «instance» _ => exact hv.elim
  | _ =>
    cases w with
    | function _ | «class» _ | «instance» _ => exact ⟨rfl, rfl⟩
    | _ => exact absurd trivial hw

namespace Value.Similar

theorem isTruthy_eq (h : v.Similar v') : v'.isTruthy = v.isTruthy := by
  cases h <;> rfl

theorem text_eq (h : v.Similar v') : v'.text = v.text := by
  cases h with
  | plain _ => rfl
  | function _ name | «instance» _ name => simp only [text, name]
  | «class» _ name => exact name

theorem equals_eq (hv : v.Similar v') (hw : w.Similar w') : v'.equals w' = v.equals w := by
  cases hv with
  | plain hv =>
    cases hw with
    | plain _ => rfl
    | function _ _ | «class» _ _ | «instance» _ _ =>
      rw [(hv.equals_eq_false id).1, (hv.equals_eq_false id).1]
  | function hf =>
    cases hw with
    | plain hw => rw [(hw.equals_eq_false id).2, (hw.equals_eq_false id).2]
    | function hg => simp only [equals, hf, hg]
    | «class» _ _ | «instance» _ _ => rfl
  | «class» hc =>
    cases hw with
    | plain hw => rw [(hw.equals_eq_false id).2, (hw.equals_eq_false id).2]
    | «class» hd => simp only [equals, hc, hd]
    | function _ _ | «instance» _ _ => rfl
  | «instance» ho =>
    cases hw with
    | plain hw => rw [(hw.equals_eq_false id).2, (hw.equals_eq_false id).2]
    | «instance» hp => simp only [equals, ho, hp]
    | function _ _ | «class» _ _ => rfl

theorem onNumbers_eq (hv : v.Similar v') (hw : w.Similar w') (f : Float → Float → Value) :
    BinaryOp.onNumbers f v' w' = BinaryOp.onNumbers f v w := by
  cases hv with
  | plain _ =>
    cases hw with
    | plain _ => rfl
    | _ => cases v <;> rfl
  | _ => rfl

theorem binary_eq (hv : v.Similar v') (hw : w.Similar w') (op : BinaryOp) :
    op.apply v' w' = op.apply v w := by
  cases op with
  | add =>
    cases hv with
    | plain _ =>
      cases hw with
      | plain _ => rfl
      | _ => cases v <;> rfl
    | _ => rfl
  | equal | unequal => simp only [BinaryOp.apply, hv.equals_eq hw]
  | subtract | multiply | divide | greater | greaterEqual | less | lessEqual =>
    exact hv.onNumbers_eq hw _

theorem unary_eq (hv : v.Similar v') (op : UnaryOp) : op.apply v' = op.apply v := by
  cases op with
  | not => simp only [UnaryOp.apply, hv.isTruthy_eq]
  | negate => cases hv <;> rfl

theorem decides_eq (hv : v.Similar v') (op : LogicalOp) : op.decides v' = op.decides v := by
  cases op <;> simp only [LogicalOp.decides, hv.isTruthy_eq]

end Value.Similar

end Lox
