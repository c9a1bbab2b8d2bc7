import Mathlib.Data.List.Forall2
import Lox.Proofs.Renaming.Objects

/-!
# Renaming and the run

The rules of evaluation give like results on twins, when one of them runs a program and the other
the renamed program (`Simulated`): each rule does if the rules that it calls do, so all do, by
induction on the fuel (`Simulated.all`).
-/

namespace Lox

/-! ## Rules -/

/-- The statements end in the same way, and return like values. -/
inductive Flow.Renamed (R : Renaming) (K : Marking) : Flow → Flow → Prop
  | normal : Flow.Renamed R K .normal .normal
  | returned {v v' : Value} (h : v.Renamed R K v') :
    Flow.Renamed R K (.returned v) (.returned v')

open Eval in
/-- With the fuel `n`, each rule gives like results on twins. -/
structure Simulated (R : Renaming) (n : Nat) : Prop where
  expr {t : Twins R} {marks : List Bool} (stands : t.At marks) {e : Expr}
    (fresh : e.WellFormed R.Fresh) :
    t.Simulates (expr n e) (expr n (e.rename R (R.reaches marks))) (Value.Renamed R)
  exprs {t : Twins R} {marks : List Bool} (stands : t.At marks) {es : List Expr}
    (fresh : Expr.WellFormedList R.Fresh es) :
    t.Simulates (exprs n es) (exprs n (Expr.renameList R (R.reaches marks) es))
      fun K => List.Forall₂ (Value.Renamed R K)
  apply {t : Twins R} {v v' : Value} (hv : v.Renamed R t.marking v') (paren : Lexeme)
    {vs vs' : List Value} (hvs : List.Forall₂ (Value.Renamed R t.marking) vs vs') :
    t.Simulates (apply n v paren vs) (apply n v' paren vs') (Value.Renamed R)
  call {t : Twins R} {f f' : Function} (hf : f.Renamed R t.marking [] f')
    {vs vs' : List Value} (hvs : List.Forall₂ (Value.Renamed R t.marking) vs vs') :
    t.Simulates (call n f vs) (call n f' vs') (Value.Renamed R)
  make {t : Twins R} {c c' : Class} (hc : c.Renamed R t.marking c')
    {vs vs' : List Value} (hvs : List.Forall₂ (Value.Renamed R t.marking) vs vs') :
    t.Simulates (make n c vs) (make n c' vs') (Value.Renamed R)
  stmt {t : Twins R} {marks : List Bool} (stands : t.At marks) {s s' : Stmt}
    (renamed : s.Renamed R marks s') :
    t.Simulates (stmt n s) (stmt n s') (Flow.Renamed R)
  stmts {t : Twins R} {marks : List Bool} (stands : t.At marks) {ss ss' : List Stmt}
    (renamed : Stmt.RenamedList R marks ss ss') :
    t.Simulates (stmts n ss) (stmts n ss') (Flow.Renamed R)
  loop {t : Twins R} {marks : List Bool} (stands : t.At marks) {condition : Expr}
    (fresh : condition.WellFormed R.Fresh) {body body' : Stmt}
    (renamed : body.Renamed R marks body') :
    t.Simulates (loop n condition body) (loop n (condition.rename R (R.reaches marks)) body')
      (Flow.Renamed R)

namespace Twins

variable {R : Renaming} {t : Twins R} {marks : List Bool} {n : Nat}

/-! ## Calls -/

theorem simulates_ofExcept (mark : Lexeme) {r : Except RuntimeCause Value}
    (plain : ∀ v, r = .ok v → v.IsPlain) :
    t.Simulates (Eval.ofExcept mark r) (Eval.ofExcept mark r) (Value.Renamed R) := by
  cases r with
  | ok v => exact simulates_pure (.plain (plain v rfl))
  | error cause => exact simulates_fail mark cause

theorem simulates_checkArity (paren : Lexeme) (expected given : Nat) :
    t.Simulates (Eval.checkArity paren expected given) (Eval.checkArity paren expected given)
      fun _ _ _ => True := by
  unfold Eval.checkArity
  split
  · exact simulates_fail _ _
  · exact simulates_pure trivial

/-- The parameters are bound in a frame whose names may be renamed. -/
theorem simulates_bindParams {frame : FrameId} (inside : frame < t.machine.heap.frames.size)
    {here : Bool} (mark : t.marked frame = here) {params : List Lexeme}
    (fresh : ∀ param ∈ params, param.text ≠ R.new) {vs vs' : List Value}
    (hvs : List.Forall₂ (Value.Renamed R t.marking) vs vs') :
    t.Simulates (Eval.bindParams frame params vs)
      (Eval.bindParams frame (params.map (R.lexeme here)) vs')
      fun _ _ _ => True := by
  induction params generalizing t vs vs' with
  | nil => exact simulates_pure trivial
  | cons param params ih =>
    cases hvs with
    | nil => exact simulates_pure trivial
    | cons hv hvs =>
      have text := (R.text_lexeme here (fresh param List.mem_cons_self)).symm
      rw [← congrArg (R.swap · param.text) mark] at text
      refine (simulates_modifyHeap_define hv frame text).bind fun u _ _ follows _ => ?_
      exact ih (Nat.lt_of_lt_of_le inside follows.marking.heap.size)
        ((follows.marking.marked frame inside).trans mark)
        (fun other h => fresh other (List.mem_cons_of_mem _ h))
        (hvs.imp fun _ _ h => h.mono follows.marking)

theorem simulates_result {f f' : Function} (hf : f.Renamed R t.marking [] f') {flow flow' : Flow}
    (hflow : flow.Renamed R t.marking flow') :
    t.Simulates (Eval.result f flow) (Eval.result f' flow') (Value.Renamed R) := by
  obtain ⟨marks, chain, -⟩ := hf.decl
  unfold Simulates Eval.result
  rw [hf.isInitializer_eq, hf.closure_eq]
  split
  · have receiver := t.renames.getAt chain 0 "this"
    rw [show R.swap _ "this" = "this" from R.swap_keyword _ .this] at receiver
    exact .ok t (.refl t) receiver
  · cases hflow with
    | normal => exact .ok t (.refl t) (.plain trivial)
    | returned hv => exact .ok t (.refl t) hv

section
variable (ih : Simulated R n)
include ih

theorem simulates_call {f f' : Function} (hf : f.Renamed R t.marking [] f') {vs vs' : List Value}
    (hvs : List.Forall₂ (Value.Renamed R t.marking) vs vs') :
    t.Simulates (Eval.call (n + 1) f vs) (Eval.call (n + 1) f' vs') (Value.Renamed R) := by
  obtain ⟨marks, chain, decl⟩ := hf.decl
  unfold Eval.call
  rw [hf.closure_eq]
  generalize f.decl = decl₁ at decl ⊢
  generalize f'.decl = decl₂ at decl ⊢
  cases decl with
  | mk here fresh body =>
    refine (simulates_newFrame f.closure here).bind fun u frame _ follows h => ?_
    obtain ⟨marking, rfl, rfl⟩ := h
    have inside := chain.enter here
    rw [← marking] at inside
    have mark : u.marked t.machine.heap.frames.size = here := by
      have e := congrArg Marking.marked marking
      exact (congrFun e _).trans (if_pos rfl)
    refine (simulates_bindParams (inside.lt_size u.renames.inside) mark fresh
      (hvs.imp fun _ _ h => h.mono follows.marking)).bind fun u' _ _ follows' _ => ?_
    have stands : (u'.inFrame t.machine.heap.frames.size).At (here :: marks) :=
      inside.mono follows'.marking
    refine (ih.stmts stands body).within.bind fun u'' flow flow' follows'' hflow => ?_
    exact simulates_result (hf.mono (follows.trans (follows'.trans follows'')).marking) hflow

theorem simulates_make {c c' : Class} (hc : c.Renamed R t.marking c') {vs vs' : List Value}
    (hvs : List.Forall₂ (Value.Renamed R t.marking) vs vs') :
    t.Simulates (Eval.make (n + 1) c vs) (Eval.make (n + 1) c' vs') (Value.Renamed R) := by
  refine (simulates_newInstance hc).bind fun u o o' follows ho => ?_
  replace hvs := hvs.imp fun _ _ h => h.mono follows.marking
  have init := (hc.mono follows.marking).methods initializerName
  unfold Class.initializer?
  generalize c.method? initializerName = f at init ⊢
  generalize c'.method? initializerName = f' at init ⊢
  cases init with
  | none => exact simulates_pure (.instance ho)
  | some hf =>
    refine (simulates_bindMethod hf ho).bind fun u' g g' follows' hg => ?_
    refine (ih.call hg (hvs.imp fun _ _ h => h.mono follows'.marking)).bind
      fun u'' _ _ follows'' _ => ?_
    exact simulates_pure (.instance (ho.mono (follows'.trans follows'').marking))

theorem simulates_apply {v v' : Value} (hv : v.Renamed R t.marking v') (paren : Lexeme)
    {vs vs' : List Value} (hvs : List.Forall₂ (Value.Renamed R t.marking) vs vs') :
    t.Simulates (Eval.apply (n + 1) v paren vs) (Eval.apply (n + 1) v' paren vs')
      (Value.Renamed R) := by
  cases hv with
  | plain h =>
    cases v with
    | function _ | «class» _ | «instance» _ => exact h.elim
    | native f => cases f; exact simulates_readClock
    | _ => exact simulates_fail _ _
  | «instance» _ => exact simulates_fail _ _
  | function hf =>
    simp only [Eval.apply, hf.arity_eq, ← hvs.length_eq]
    refine (simulates_checkArity paren _ _).bind fun u _ _ follows _ => ?_
    exact ih.call (hf.mono follows.marking) (hvs.imp fun _ _ h => h.mono follows.marking)
  | «class» hc =>
    simp only [Eval.apply, hc.arity_eq, ← hvs.length_eq]
    refine (simulates_checkArity paren _ _).bind fun u _ _ follows _ => ?_
    exact ih.make (hc.mono follows.marking) (hvs.imp fun _ _ h => h.mono follows.marking)

/-! ## Expressions -/

theorem simulates_getExpr (stands : t.At marks) {object : Expr} {name : Lexeme}
    (fresh : (Expr.get object name).WellFormed R.Fresh) :
    t.Simulates (Eval.expr (n + 1) (.get object name))
      (Eval.expr (n + 1) ((Expr.get object name).rename R (R.reaches marks)))
      (Value.Renamed R) := by
  refine (ih.expr stands fresh.1).bind fun u v v' _ hv => ?_
  cases hv with
  | plain h =>
    cases v with
    | «instance» _ => exact h.elim
    | _ => exact simulates_fail _ _
  | function _ | «class» _ => exact simulates_fail _ _
  | «instance» ho => exact simulates_property ho name

theorem simulates_setExpr (stands : t.At marks) {object value : Expr} {name : Lexeme}
    (fresh : (Expr.set object name value).WellFormed R.Fresh) :
    t.Simulates (Eval.expr (n + 1) (.set object name value))
      (Eval.expr (n + 1) ((Expr.set object name value).rename R (R.reaches marks)))
      (Value.Renamed R) := by
  refine (ih.expr stands fresh.2.2).bind fun u v v' follows hv => ?_
  refine (ih.expr (stands.follows follows) fresh.1).bind fun u' w w' follows' hw => ?_
  replace hv := hv.mono follows'.marking
  cases hw with
  | plain h =>
    cases w with
    | «instance» _ => exact h.elim
    | _ => exact simulates_fail _ _
  | function _ | «class» _ => exact simulates_fail _ _
  | «instance» ho =>
    refine (simulates_setProperty ho hv name).bind fun u'' _ _ follows'' _ => ?_
    exact simulates_pure (hv.mono follows''.marking)

theorem simulates_callExpr (stands : t.At marks) {callee : Expr} {paren : Lexeme}
    {arguments : List Expr} (fresh : (Expr.call callee paren arguments).WellFormed R.Fresh) :
    t.Simulates (Eval.expr (n + 1) (.call callee paren arguments))
      (Eval.expr (n + 1) ((Expr.call callee paren arguments).rename R (R.reaches marks)))
      (Value.Renamed R) := by
  refine (ih.expr stands fresh.1).bind fun u f f' follows hf => ?_
  refine (ih.exprs (stands.follows follows) fresh.2).bind fun u' vs vs' follows' hvs => ?_
  exact ih.apply (hf.mono follows'.marking) paren hvs

theorem simulates_logical (stands : t.At marks) {op : LogicalOp} {mark : Lexeme}
    {left right : Expr} (fresh : (Expr.logical op mark left right).WellFormed R.Fresh) :
    t.Simulates (Eval.expr (n + 1) (.logical op mark left right))
      (Eval.expr (n + 1) ((Expr.logical op mark left right).rename R (R.reaches marks)))
      (Value.Renamed R) := by
  refine (ih.expr stands fresh.1).bind fun u v v' follows hv => ?_
  rw [hv.similar.decides_eq]
  split
  · exact simulates_pure hv
  · exact ih.expr (stands.follows follows) fresh.2

theorem simulates_expr (stands : t.At marks) {e : Expr} (fresh : e.WellFormed R.Fresh) :
    t.Simulates (Eval.expr (n + 1) e) (Eval.expr (n + 1) (e.rename R (R.reaches marks)))
      (Value.Renamed R) := by
  cases e with
  | assign id name value =>
    refine (ih.expr stands fresh.2).bind fun u v v' follows hv => ?_
    refine (simulates_assign (stands.follows follows) id fresh.1.ne_new hv).bind
      fun u' _ _ follows' _ => ?_
    exact simulates_pure (hv.mono follows'.marking)
  | binary op mark left right =>
    refine (ih.expr stands fresh.1).bind fun u v v' follows hv => ?_
    refine (ih.expr (stands.follows follows) fresh.2).bind fun u' w w' follows' hw => ?_
    rw [(hv.mono follows'.marking).similar.binary_eq hw.similar]
    exact simulates_ofExcept mark fun _ => BinaryOp.isPlain_of_apply
  | call callee paren arguments => exact simulates_callExpr ih stands fresh
  | get object name => exact simulates_getExpr ih stands fresh
  | grouping inner => exact ih.expr stands fresh
  | literal value =>
    refine simulates_pure (.plain ?_)
    cases value <;> trivial
  | logical op mark left right => exact simulates_logical ih stands fresh
  | set object name value => exact simulates_setExpr ih stands fresh
  | super id keyword method => exact simulates_superMethod stands id keyword method
  | this id keyword => exact simulates_lookUp_keyword stands id fresh
  | unary op mark right =>
    refine (ih.expr (e := right) stands fresh).bind fun u v v' _ hv => ?_
    rw [hv.similar.unary_eq]
    exact simulates_ofExcept mark fun _ => UnaryOp.isPlain_of_apply
  | «variable» id name => exact simulates_lookUp stands id fresh.ne_new

theorem simulates_exprs (stands : t.At marks) {es : List Expr}
    (fresh : Expr.WellFormedList R.Fresh es) :
    t.Simulates (Eval.exprs (n + 1) es)
      (Eval.exprs (n + 1) (Expr.renameList R (R.reaches marks) es))
      fun K => List.Forall₂ (Value.Renamed R K) := by
  cases es with
  | nil => exact simulates_pure .nil
  | cons e es =>
    refine (ih.expr stands fresh.1).bind fun u v v' follows hv => ?_
    refine (ih.exprs (stands.follows follows) fresh.2).bind fun u' vs vs' follows' hvs => ?_
    exact simulates_pure (.cons (hv.mono follows'.marking) hvs)

/-! ## Statements -/

theorem simulates_stmt (stands : t.At marks) {s s' : Stmt} (renamed : s.Renamed R marks s') :
    t.Simulates (Eval.stmt (n + 1) s) (Eval.stmt (n + 1) s') (Flow.Renamed R) := by
  cases renamed with
  | block here body =>
    refine simulates_currentFrame ?_
    refine (simulates_newFrame t.machine.current here).bind fun u frame _ _ h => ?_
    obtain ⟨marking, rfl, rfl⟩ := h
    have inside := Marking.Chain.enter stands here
    rw [← marking] at inside
    have stands : (u.inFrame t.machine.heap.frames.size).At (here :: marks) := inside
    exact (ih.stmts stands body).within
  | classDecl keeps fresh methods =>
    refine (simulates_declareClass stands keeps fresh methods).bind fun _ _ _ _ _ => ?_
    exact simulates_pure .normal
  | expression fresh =>
    refine (ih.expr stands fresh).bind fun _ _ _ _ _ => ?_
    exact simulates_pure .normal
  | function keeps decl =>
    refine (simulates_declareFunction stands keeps decl).bind fun _ _ _ _ _ => ?_
    exact simulates_pure .normal
  | ifThen fresh thenBranch =>
    refine (ih.expr stands fresh).bind fun u v v' follows hv => ?_
    rw [hv.similar.isTruthy_eq]
    split
    · exact ih.stmt (stands.follows follows) thenBranch
    · exact simulates_pure .normal
  | ifElse fresh thenBranch elseBranch =>
    refine (ih.expr stands fresh).bind fun u v v' follows hv => ?_
    rw [hv.similar.isTruthy_eq]
    split
    · exact ih.stmt (stands.follows follows) thenBranch
    · exact ih.stmt (stands.follows follows) elseBranch
  | print fresh =>
    refine (ih.expr stands fresh).bind fun u v v' _ hv => ?_
    rw [hv.similar.text_eq]
    refine (simulates_write v.text).bind fun _ _ _ _ _ => ?_
    exact simulates_pure .normal
  | @returning _ keyword value fresh =>
    cases value with
    | none => exact simulates_pure (.returned (.plain trivial))
    | some value =>
      refine (ih.expr stands (fresh value rfl)).bind fun u v v' _ hv => ?_
      exact simulates_pure (.returned hv)
  | @varDecl _ name initializer fresh fresh' =>
    cases initializer with
    | none =>
      refine (simulates_define stands fresh (.plain (v := .nil) trivial)).bind fun _ _ _ _ _ => ?_
      exact simulates_pure .normal
    | some initializer =>
      refine (ih.expr stands (fresh' initializer rfl)).bind fun u v v' follows hv => ?_
      refine (simulates_define (stands.follows follows) fresh hv).bind fun _ _ _ _ _ => ?_
      exact simulates_pure .normal
  | «while» fresh body => exact ih.loop stands fresh body

theorem simulates_stmts (stands : t.At marks) {ss ss' : List Stmt}
    (renamed : Stmt.RenamedList R marks ss ss') :
    t.Simulates (Eval.stmts (n + 1) ss) (Eval.stmts (n + 1) ss') (Flow.Renamed R) := by
  cases renamed with
  | nil => exact simulates_pure .normal
  | cons first later =>
    refine (ih.stmt stands first).bind fun u flow flow' follows hflow => ?_
    cases hflow with
    | normal => exact ih.stmts (stands.follows follows) later
    | returned hv => exact simulates_pure (.returned hv)

theorem simulates_loop (stands : t.At marks) {condition : Expr}
    (fresh : condition.WellFormed R.Fresh) {body body' : Stmt}
    (renamed : body.Renamed R marks body') :
    t.Simulates (Eval.loop (n + 1) condition body)
      (Eval.loop (n + 1) (condition.rename R (R.reaches marks)) body') (Flow.Renamed R) := by
  refine (ih.expr stands fresh).bind fun u v v' follows hv => ?_
  replace stands := stands.follows follows
  rw [hv.similar.isTruthy_eq]
  split
  · refine (ih.stmt stands renamed).bind fun u' flow flow' follows' hflow => ?_
    cases hflow with
    | normal => exact ih.loop (stands.follows follows') fresh renamed
    | returned hv => exact simulates_pure (.returned hv)
  · exact simulates_pure .normal

end

end Twins

open Twins in
/-- Each rule gives like results on twins, whatever the fuel is. -/
theorem Simulated.all {R : Renaming} : ∀ n, Simulated R n
  | 0 => by
    constructor <;> intros <;> exact simulates_throw _
  | n + 1 => by
    have ih := Simulated.all (R := R) n
    exact ⟨simulates_expr ih, simulates_exprs ih, simulates_apply ih, simulates_call ih,
      simulates_make ih, simulates_stmt ih, simulates_stmts ih, simulates_loop ih⟩

end Lox
