import Mathlib.Data.List.Forall2
import Lox.Run
import Lox.Proofs.Relabelling.Operations

/-!
# Runs with other labels

A run of a program with other labels goes as the run of the program itself goes, if its nodes have
the same distances, also with more fuel: each rule of evaluation follows itself if the rules that it
calls do, so all do, by induction on the fuel (`FollowsItself.all`). With the same labels this says
that a run that ends does not depend on how much fuel is left (`run_of_le`).
-/

namespace Lox

/-- The statements end in the same way, and return values that differ in their labels. -/
inductive Flow.Relabelled (C : Comparison) : Flow → Flow → Prop
  | normal : Flow.Relabelled C .normal .normal
  | returned {v v' : Value} (h : v.Relabelled C v') :
    Flow.Relabelled C (.returned v) (.returned v')

open Eval in
/-- What a rule does with the fuel `n`, it does with other labels and the fuel of the second
machine. -/
structure FollowsItself (C : Comparison) (n : Nat) : Prop where
  expr {n' : Nat} (fuels : C.Fuels n n') {R : Relabelling} (e : Expr) (fits : C.Fits R e.ids) :
    Follows C (Value.Relabelled C) (expr n e) (expr n' (e.relabel R))
  exprs {n' : Nat} (fuels : C.Fuels n n') {R : Relabelling} (es : List Expr)
    (fits : C.Fits R (Expr.idsList es)) :
    Follows C (List.Forall₂ (Value.Relabelled C)) (exprs n es) (exprs n' (Expr.relabelList R es))
  apply {n' : Nat} (fuels : C.Fuels n n') {R : Relabelling} (relabels : C.relabels R)
    {v v' : Value} (hv : v.Relabelled C v') (paren : Lexeme) {vs vs' : List Value}
    (hvs : List.Forall₂ (Value.Relabelled C) vs vs') :
    Follows C (Value.Relabelled C) (apply n v paren vs) (apply n' v' (paren.relabel R) vs')
  call {n' : Nat} (fuels : C.Fuels n n') {f f' : Function} (hf : f.Relabelled C f')
    {vs vs' : List Value} (hvs : List.Forall₂ (Value.Relabelled C) vs vs') :
    Follows C (Value.Relabelled C) (call n f vs) (call n' f' vs')
  make {n' : Nat} (fuels : C.Fuels n n') {c c' : Class} (hc : c.Relabelled C c')
    {vs vs' : List Value} (hvs : List.Forall₂ (Value.Relabelled C) vs vs') :
    Follows C (Value.Relabelled C) (make n c vs) (make n' c' vs')
  stmt {n' : Nat} (fuels : C.Fuels n n') {R : Relabelling} (s : Stmt) (fits : C.Fits R s.ids) :
    Follows C (Flow.Relabelled C) (stmt n s) (stmt n' (s.relabel R))
  stmts {n' : Nat} (fuels : C.Fuels n n') {R : Relabelling} (ss : List Stmt)
    (fits : C.Fits R (Stmt.idsList ss)) :
    Follows C (Flow.Relabelled C) (stmts n ss) (stmts n' (Stmt.relabelList R ss))
  loop {n' : Nat} (fuels : C.Fuels n n') {R : Relabelling} (condition : Expr) (body : Stmt)
    (fits : C.Fits R (condition.ids ++ body.ids)) :
    Follows C (Flow.Relabelled C) (loop n condition body)
      (loop n' (condition.relabel R) (body.relabel R))

namespace Follows

variable {C : Comparison} {R : Relabelling}

/-! ## Calls -/

theorem ofExcept (relabels : C.relabels R) (mark : Lexeme) {r : Except RuntimeCause Value}
    (plain : ∀ v, r = .ok v → v.IsPlain) :
    Follows C (Value.Relabelled C) (Eval.ofExcept mark r) (Eval.ofExcept (mark.relabel R) r) := by
  cases r with
  | ok v => exact pure (.plain (plain v rfl))
  | error cause => exact fail relabels mark cause

theorem checkArity (relabels : C.relabels R) (paren : Lexeme) (expected given : Nat) :
    Follows C (fun _ _ => True) (Eval.checkArity paren expected given)
      (Eval.checkArity (paren.relabel R) expected given) := by
  unfold Eval.checkArity
  split
  · exact fail relabels paren (.notEnoughArguments expected given)
  · exact pure trivial

theorem bindParams (frame : FrameId) (params : List Lexeme) {vs vs' : List Value}
    (hvs : List.Forall₂ (Value.Relabelled C) vs vs') : Follows C (fun _ _ => True)
      (Eval.bindParams frame params vs)
      (Eval.bindParams frame (params.map (Lexeme.relabel R)) vs') := by
  induction params generalizing vs vs' with
  | nil => exact pure trivial
  | cons param params ih =>
    cases hvs with
    | nil => exact pure trivial
    | cons hv hvs =>
      refine (modifyHeap fun _ _ heap => heap.define hv frame param.text).bind fun _ _ _ => ?_
      exact ih hvs

theorem result {f f' : Function} (hf : f.Relabelled C f') {flow flow' : Flow}
    (hflow : flow.Relabelled C flow') :
    Follows C (Value.Relabelled C) (Eval.result f flow) (Eval.result f' flow') := by
  obtain ⟨f, -⟩ := hf
  rintro m _ ⟨heap, distances⟩
  have machines := Machine.Relabelled.intro heap distances
  have receiver := heap.getAt f.closure 0 "this"
  unfold Eval.result
  dsimp only
  split
  · exact .ok machines receiver
  · cases hflow with
    | normal => exact .ok machines (.plain trivial)
    | returned hv => exact .ok machines hv

section
variable {n n' : Nat} (ih : FollowsItself C n) (fuels : C.Fuels n n')
include ih fuels

theorem call {f f' : Function} (hf : f.Relabelled C f') {vs vs' : List Value}
    (hvs : List.Forall₂ (Value.Relabelled C) vs vs') : Follows C (Value.Relabelled C)
      (Eval.call (n + 1) f vs) (Eval.call (n' + 1) f' vs') := by
  obtain @⟨R, f, fits⟩ := hf
  unfold Eval.call
  refine (newFrame f.closure).bind ?_
  rintro _ frame rfl
  rw [f.decl.params_relabel, f.decl.body_relabel]
  refine (bindParams frame f.decl.params hvs).bind fun _ _ _ => ?_
  have body := ih.stmts fuels f.decl.body (f.decl.ids_eq ▸ fits)
  exact (body.within frame).bind fun _ _ => result (.intro f fits)

theorem make {c c' : Class} (hc : c.Relabelled C c') {vs vs' : List Value}
    (hvs : List.Forall₂ (Value.Relabelled C) vs vs') : Follows C (Value.Relabelled C)
      (Eval.make (n + 1) c vs) (Eval.make (n' + 1) c' vs') := by
  have initializer : Option.Rel (Function.Relabelled C) c.initializer? c'.initializer? :=
    hc.methods initializerName
  unfold Eval.make
  refine (newInstance hc).bind fun o o' ho => ?_
  generalize c.initializer? = f at initializer ⊢
  generalize c'.initializer? = f' at initializer ⊢
  cases initializer with
  | none => exact pure (.instance ho)
  | some hf =>
    refine (bindMethod hf ho).bind fun g g' hg => ?_
    refine (ih.call fuels hg hvs).bind fun _ _ _ => ?_
    exact pure (.instance ho)

theorem apply (relabels : C.relabels R) {v v' : Value} (hv : v.Relabelled C v') (paren : Lexeme)
    {vs vs' : List Value} (hvs : List.Forall₂ (Value.Relabelled C) vs vs') :
    Follows C (Value.Relabelled C) (Eval.apply (n + 1) v paren vs)
      (Eval.apply (n' + 1) v' (paren.relabel R) vs') := by
  cases hv with
  | plain h =>
    cases v with
    | function _ | «class» _ | «instance» _ => exact h.elim
    | native f => cases f; exact readClock
    | _ => exact fail relabels paren .notCallable
  | «instance» _ => exact fail relabels paren .notCallable
  | function hf =>
    simp only [Eval.apply, hf.arity_eq, ← hvs.length_eq]
    exact (checkArity relabels paren _ _).bind fun _ _ _ => ih.call fuels hf hvs
  | «class» hc =>
    simp only [Eval.apply, hc.arity_eq, ← hvs.length_eq]
    exact (checkArity relabels paren _ _).bind fun _ _ _ => ih.make fuels hc hvs

/-! ## Expressions -/

theorem getExpr (object : Expr) (fits : C.Fits R object.ids) (name : Lexeme) :
    Follows C (Value.Relabelled C) (Eval.expr (n + 1) (.get object name))
      (Eval.expr (n' + 1) ((Expr.get object name).relabel R)) := by
  refine (ih.expr fuels object fits).bind fun v v' hv => ?_
  have noProperties := fail (P := Value.Relabelled C) fits.relabels name .noProperties
  cases hv with
  | plain h =>
    cases v with
    | «instance» _ => exact h.elim
    | _ => exact noProperties
  | function _ | «class» _ => exact noProperties
  | «instance» ho => exact property fits.relabels ho name

theorem setExpr (object value : Expr) (fits : C.Fits R (object.ids ++ value.ids))
    (name : Lexeme) : Follows C (Value.Relabelled C) (Eval.expr (n + 1) (.set object name value))
      (Eval.expr (n' + 1) ((Expr.set object name value).relabel R)) := by
  obtain ⟨ho, hv⟩ := fits.append
  refine (ih.expr fuels value hv).bind fun v v' hv => ?_
  refine (ih.expr fuels object ho).bind fun w w' hw => ?_
  have noFields := fail (P := Value.Relabelled C) fits.relabels name .noFields
  cases hw with
  | plain h =>
    cases w with
    | «instance» _ => exact h.elim
    | _ => exact noFields
  | function _ | «class» _ => exact noFields
  | «instance» ho => exact (setProperty ho hv name).bind fun _ _ _ => pure hv

theorem expr (e : Expr) (fits : C.Fits R e.ids) : Follows C (Value.Relabelled C)
    (Eval.expr (n + 1) e) (Eval.expr (n' + 1) (e.relabel R)) := by
  cases e with
  | assign id name value =>
    obtain ⟨inner, own⟩ := fits.append
    refine (ih.expr fuels value inner).bind fun v v' hv => ?_
    exact (assign own hv name).bind fun _ _ _ => pure hv
  | binary op mark left right =>
    obtain ⟨hl, hr⟩ := fits.append
    refine (ih.expr fuels left hl).bind fun v v' hv => ?_
    refine (ih.expr fuels right hr).bind fun w w' hw => ?_
    rw [hv.similar.binary_eq hw.similar]
    exact ofExcept fits.relabels mark fun _ => BinaryOp.isPlain_of_apply
  | call callee paren arguments =>
    obtain ⟨hc, ha⟩ := fits.append
    refine (ih.expr fuels callee hc).bind fun f f' hf => ?_
    exact (ih.exprs fuels arguments ha).bind fun vs vs' hvs =>
      ih.apply fuels fits.relabels hf paren hvs
  | get object name => exact getExpr ih fuels object fits name
  | grouping inner => exact ih.expr fuels inner fits
  | literal value =>
    refine pure (.plain ?_)
    cases value <;> trivial
  | logical op mark left right =>
    obtain ⟨hl, hr⟩ := fits.append
    refine (ih.expr fuels left hl).bind fun v v' hv => ?_
    rw [hv.similar.decides_eq]
    split
    · exact pure hv
    · exact ih.expr fuels right hr
  | set object name value => exact setExpr ih fuels object value fits name
  | super id keyword method => exact superMethod fits keyword method
  | this id keyword => exact lookUp fits keyword
  | unary op mark right =>
    refine (ih.expr fuels right fits).bind fun v v' hv => ?_
    rw [hv.similar.unary_eq]
    exact ofExcept fits.relabels mark fun _ => UnaryOp.isPlain_of_apply
  | «variable» id name => exact lookUp fits name

theorem exprs (es : List Expr) (fits : C.Fits R (Expr.idsList es)) :
    Follows C (List.Forall₂ (Value.Relabelled C)) (Eval.exprs (n + 1) es)
      (Eval.exprs (n' + 1) (Expr.relabelList R es)) := by
  cases es with
  | nil => exact pure .nil
  | cons e es =>
    obtain ⟨he, hes⟩ := fits.append
    refine (ih.expr fuels e he).bind fun v v' hv => ?_
    exact (ih.exprs fuels es hes).bind fun vs vs' hvs => pure (.cons hv hvs)

/-! ## Statements -/

theorem stmt (s : Stmt) (fits : C.Fits R s.ids) : Follows C (Flow.Relabelled C)
    (Eval.stmt (n + 1) s) (Eval.stmt (n' + 1) (s.relabel R)) := by
  cases s with
  | block body =>
    refine currentFrame.bind ?_
    rintro _ outer rfl
    refine (newFrame outer).bind ?_
    rintro _ frame rfl
    exact (ih.stmts fuels body fits).within frame
  | classDecl name superclass methods =>
    exact (declareClass name fits).bind fun _ _ _ => pure .normal
  | expression e => exact (ih.expr fuels e fits).bind fun _ _ _ => pure .normal
  | function decl => exact (declareFunction fits).bind fun _ _ _ => pure .normal
  | ifThen condition thenBranch =>
    obtain ⟨hc, ht⟩ := fits.append
    refine (ih.expr fuels condition hc).bind fun v v' hv => ?_
    rw [hv.similar.isTruthy_eq]
    split
    · exact ih.stmt fuels thenBranch ht
    · exact pure .normal
  | ifElse condition thenBranch elseBranch =>
    obtain ⟨hc, branches⟩ := fits.append
    obtain ⟨ht, he⟩ := branches.append
    refine (ih.expr fuels condition hc).bind fun v v' hv => ?_
    rw [hv.similar.isTruthy_eq]
    split
    · exact ih.stmt fuels thenBranch ht
    · exact ih.stmt fuels elseBranch he
  | print e =>
    refine (ih.expr fuels e fits).bind fun v v' hv => ?_
    rw [hv.similar.text_eq]
    exact (write v.text).bind fun _ _ _ => pure .normal
  | returning keyword value =>
    cases value with
    | none => exact pure (.returned (.plain trivial))
    | some value => exact (ih.expr fuels value fits).bind fun v v' hv => pure (.returned hv)
  | varDecl name initializer =>
    cases initializer with
    | none =>
      exact (define (.plain (v := .nil) trivial) name).bind fun _ _ _ => pure .normal
    | some initializer =>
      refine (ih.expr fuels initializer fits).bind fun v v' hv => ?_
      exact (define hv name).bind fun _ _ _ => pure .normal
  | «while» condition body => exact ih.loop fuels condition body fits

theorem stmts (ss : List Stmt) (fits : C.Fits R (Stmt.idsList ss)) :
    Follows C (Flow.Relabelled C) (Eval.stmts (n + 1) ss)
      (Eval.stmts (n' + 1) (Stmt.relabelList R ss)) := by
  cases ss with
  | nil => exact pure .normal
  | cons s ss =>
    obtain ⟨hs, hss⟩ := fits.append
    refine (ih.stmt fuels s hs).bind fun flow flow' hflow => ?_
    cases hflow with
    | normal => exact ih.stmts fuels ss hss
    | returned hv => exact pure (.returned hv)

theorem loop (condition : Expr) (body : Stmt) (fits : C.Fits R (condition.ids ++ body.ids)) :
    Follows C (Flow.Relabelled C) (Eval.loop (n + 1) condition body)
      (Eval.loop (n' + 1) (condition.relabel R) (body.relabel R)) := by
  obtain ⟨hc, hb⟩ := fits.append
  refine (ih.expr fuels condition hc).bind fun v v' hv => ?_
  rw [hv.similar.isTruthy_eq]
  split
  · refine (ih.stmt fuels body hb).bind fun flow flow' hflow => ?_
    cases hflow with
    | normal => exact ih.loop fuels condition body fits
    | returned hv => exact pure (.returned hv)
  · exact pure .normal

end

end Follows

/-- Each rule follows itself, whatever the fuel is. -/
theorem FollowsItself.all (C : Comparison) (n : Nat) : FollowsItself C n := by
  induction n with
  | zero =>
    constructor <;>
    · intro n' fuels
      intros
      exact Follows.outOfFuel fuels (by rintro rfl; rfl)
  | succ n ih =>
    constructor
    all_goals
      intro n' deeper
      obtain ⟨m, rfl, fuels⟩ := deeper.pred
    case expr => exact Follows.expr ih fuels
    case exprs => exact Follows.exprs ih fuels
    case apply => exact Follows.apply ih fuels
    case call => exact Follows.call ih fuels
    case make => exact Follows.make ih fuels
    case stmt => exact Follows.stmt ih fuels
    case stmts => exact Follows.stmts ih fuels
    case loop => exact Follows.loop ih fuels

/-! ## Programs -/

theorem Follows.topLevel {C : Comparison} {R : Relabelling} {n n' : Nat} (fuels : C.Fuels n n')
    (ss : List Stmt) (fits : C.Fits R (Stmt.idsList ss)) : Follows C (fun _ _ => True)
      (Eval.topLevel n ss) (Eval.topLevel n' (Stmt.relabelList R ss)) := by
  induction ss with
  | nil => exact pure trivial
  | cons s ss ih =>
    obtain ⟨hs, hss⟩ := fits.append
    exact ((FollowsItself.all C n).stmt fuels s hs).bind fun _ _ _ => ih hss

/-- At other distances, statements do the same if these are the same for their own nodes. -/
theorem Follows.topLevel_same {distances distances' : Distances} {moreFuel : Prop} {n n' : Nat}
    (fuels : (Comparison.same distances distances' moreFuel).Fuels n n') (ss : List Stmt)
    (kept : ∀ id ∈ Stmt.idsList ss, distances'[id]? = distances[id]?) :
    Follows (.same distances distances' moreFuel) (fun _ _ => True) (Eval.topLevel n ss)
      (Eval.topLevel n' ss) := by
  have follows := topLevel (R := .same) fuels ss ⟨rfl, kept⟩
  rwa [Stmt.relabelList_same] at follows

/-- With the same labels, what is printed and said is the same, unless the fuel did not suffice. -/
theorem EndsAlike.outcome_eq {distances distances' : Distances} {moreFuel : Prop}
    {Q : Unit → Unit → Prop} {r r' : EStateM.Result Stop Machine Unit}
    (alike : EndsAlike (.same distances distances' moreFuel) Q r r')
    (ended : (Outcome.ofResult r).ending ≠ .outOfFuel) :
    Outcome.ofResult r' = Outcome.ofResult r := by
  cases alike with
  | ok machines _ =>
    obtain ⟨-, -⟩ := machines
    rfl
  | failed machines failures =>
    obtain ⟨-, -⟩ := machines
    cases failures with
    | runtime relabels e =>
      cases relabels
      rfl
    | io e => rfl
  | outOfFuel => exact absurd rfl ended

/-- More fuel does not change how a run ends that ends. -/
theorem run_of_le {n n' : Nat} (deep : n ≤ n') {host : Host} {source : String}
    (ended : (run n host source).ending ≠ .outOfFuel) : run n' host source = run n host source := by
  unfold run at ended ⊢
  cases accepted : Source.check source with
  | error errors => rfl
  | ok p =>
    rw [accepted] at ended
    have fuels : (Comparison.same p.distances p.distances True).Fuels n n' :=
      .inr ⟨trivial, deep⟩
    have follows := (Follows.topLevel_same fuels p.statements fun _ _ => rfl).bind
      fun _ _ _ => Follows.flush
    exact (follows _ _ (.start _ host)).outcome_eq ended

/-- The run of the source ends, in this way. -/
def RunsTo (host : Host) (source : String) (o : Outcome) : Prop :=
  ∃ n, run n host source = o ∧ o.ending ≠ .outOfFuel

theorem RunsTo.unique {host : Host} {source : String} {o o' : Outcome}
    (h : RunsTo host source o) (h' : RunsTo host source o') : o = o' := by
  obtain ⟨n, rfl, ended⟩ := h
  obtain ⟨n', rfl, ended'⟩ := h'
  rw [← run_of_le (Nat.le_max_left n n') ended, run_of_le (Nat.le_max_right n n') ended']

end Lox
