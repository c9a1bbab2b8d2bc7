import Lox.Proofs.Eval.Discipline.Operations

/-!
# Runs under a discipline

Every task leads on, and lies with all points that it comes to between the stages at which it starts
and ends (`leads_task`). The tasks are taken rule by rule, by induction on the fuel. A program leads
on as its statements do (`leads_program`).
-/

namespace Lox.Discipline

open Eval

variable {R : Type} [Preorder R] {α β : Type} {D : Discipline R} {r r' : R} {m : Machine}

/-! ## Tasks -/

/-- A task that leads on while it calls other points lies, with them, between its own stages. -/
theorem leads_point {n : Nat} {t : Task} (h : D.admits r t)
    (leads : D.Leads r m (t.run n) (Point.Calls ⟨n, t, m⟩) fun r' => D.gives r' t) :
    D.Leads r m (t.run n) (· = ⟨n, t, m⟩) fun r' => D.gives r' t := by
  intro ready
  obtain ⟨r', le, ready', covers, holds⟩ := leads ready
  refine ⟨r', le, ready', ?_, holds⟩
  rintro _ rfl y path
  rcases Relation.ReflTransGen.cases_head path with rfl | ⟨z, calls, path⟩
  · exact ⟨r, r', le_refl r, le, le_refl r', ready, h, ready', holds⟩
  · exact covers z calls y path

section
variable {n : Nat} (ih : ∀ {t : Task} {r : R} {m : Machine}, D.visits ⟨n, t, m⟩ → D.admits r t →
  D.Leads r m (t.run n) (· = ⟨n, t, m⟩) fun r' => D.gives r' t)
include ih

theorem leads_subexpr {e : Expr} (here : D.visits ⟨n, .expr e, m⟩)
    (h : ∀ n ∈ e.written, D.name n) :
    D.Leads r m (expr n e) (· = ⟨n, .expr e, m⟩) D.value :=
  ih (t := .expr e) here h

theorem leads_substmt {s : Stmt} (here : D.visits ⟨n, .stmt s, m⟩)
    (h : ∀ n ∈ s.written, D.name n) :
    D.Leads r m (stmt n s) (· = ⟨n, .stmt s, m⟩) D.flow :=
  ih (t := .stmt s) here h

theorem leads_expr {e : Expr} (here : D.visits ⟨n + 1, .expr e, m⟩)
    (h : ∀ n ∈ e.written, D.name n) :
    D.Leads r m (expr (n + 1) e) (Point.Calls ⟨n + 1, .expr e, m⟩) D.value := by
  cases e with
  | assign id name value =>
    obtain ⟨hname, hvalue⟩ := List.forall_mem_cons.mp h
    refine leads_calls (leads_finish (leads_subexpr ih (D.calls here .assign) hvalue)
      fun _ v _ _ _ hv => ?_) fun y calls => ?_
    · exact leads_finish (leads_assign id hname hv) fun _ _ _ le _ _ =>
        leads_pure (D.value_mono le hv)
    · cases calls
      rfl
  | binary op mark left right =>
    obtain ⟨hleft, hright⟩ := List.forall_mem_append.mp h
    refine leads_calls (leads_bind (leads_subexpr ih (D.calls here .binaryLeft) hleft)
      fun _ a _ _ e _ => leads_finish (leads_subexpr ih (D.calls here (.binaryRight e)) hright)
        fun _ b _ _ _ _ => leads_ofExcept fun _ => BinaryOp.isPlain_of_apply) fun y calls => ?_
    cases calls with
    | binaryLeft => exact .inl rfl
    | binaryRight e => exact .inr ⟨_, _, e, rfl⟩
  | call callee paren arguments =>
    obtain ⟨hcallee, harguments⟩ := List.forall_mem_append.mp h
    refine leads_calls (leads_bind (leads_subexpr ih (D.calls here .callee) hcallee)
      fun _ f _ _ e hf => leads_bind (ih (t := .exprs arguments)
        (D.calls here (.arguments e)) harguments) fun _ vs _ le e' hvs =>
          ih (t := .apply f paren vs) (D.calls here (.apply e e')) ⟨D.value_mono le hf, hvs⟩)
      fun y calls => ?_
    cases calls with
    | callee => exact .inl rfl
    | arguments e => exact .inr ⟨_, _, e, .inl rfl⟩
    | apply e e' => exact .inr ⟨_, _, e, .inr ⟨_, _, e', rfl⟩⟩
  | get object name =>
    refine leads_calls (leads_finish (leads_subexpr ih (D.calls here .getObject) h)
      fun _ v _ _ e hv => ?_) fun y calls => ?_
    · split
      · exact leads_property here (fun f => .property e) hv
      · exact leads_fail
    · cases calls
      rfl
  | grouping inner =>
    refine leads_calls (leads_subexpr ih (D.calls here .grouping) h) fun y calls => ?_
    cases calls
    rfl
  | literal value =>
    have plain : value.value.IsPlain := by cases value <;> trivial
    exact leads_calls (leads_pure (D.plain plain)) fun y calls => by cases calls
  | logical op mark left right =>
    obtain ⟨hleft, hright⟩ := List.forall_mem_append.mp h
    refine leads_calls (leads_bind (leads_subexpr ih (D.calls here .logicalLeft) hleft)
      (Y := fun v m₁ y => op.decides v = false ∧ y = ⟨n, .expr right, m₁⟩)
      fun _ v _ _ e hv => ?_) fun y calls => ?_
    · split
      · rename_i decided
        exact leads_calls (leads_pure hv) fun _ hy => nomatch decided.symm.trans hy.1
      · rename_i undecided
        have here' := D.calls here (.logicalRight e (Bool.eq_false_iff.mpr undecided))
        exact leads_calls (leads_subexpr ih here' hright) fun _ => And.right
    · cases calls with
      | logicalLeft => exact .inl rfl
      | logicalRight e undecided => exact .inr ⟨_, _, e, undecided, rfl⟩
  | set object name value =>
    obtain ⟨hvalue, hobject⟩ := List.forall_mem_append.mp h
    refine leads_calls (leads_bind (leads_subexpr ih (D.calls here .setValue) hvalue)
      fun _ v _ _ e hv => leads_finish (leads_subexpr ih (D.calls here (.setObject e)) hobject)
        fun _ o _ le _ ho => ?_) fun y calls => ?_
    · split
      · refine leads_finish (leads_setProperty ho (D.value_mono le hv) name) fun _ _ _ le' _ _ => ?_
        exact leads_pure (D.value_mono (le_trans le le') hv)
      · exact leads_fail
    · cases calls with
      | setValue => exact .inl rfl
      | setObject e => exact .inr ⟨_, _, e, rfl⟩
  | super id keyword method =>
    exact leads_calls (leads_superMethod here) fun y calls => by cases calls
  | this id keyword => exact leads_calls (leads_lookUp id keyword) fun y calls => by cases calls
  | unary op mark right =>
    refine leads_calls (leads_finish (leads_subexpr ih (D.calls here .unary) h)
      fun _ v _ _ _ _ => leads_ofExcept fun _ => UnaryOp.isPlain_of_apply) fun y calls => ?_
    cases calls
    rfl
  | «variable» id name => exact leads_calls (leads_lookUp id name) fun y calls => by cases calls

theorem leads_exprs {es : List Expr} (here : D.visits ⟨n + 1, .exprs es, m⟩)
    (h : ∀ n ∈ Expr.writtenList es, D.name n) :
    D.Leads r m (exprs (n + 1) es) (Point.Calls ⟨n + 1, .exprs es, m⟩)
      fun r' vs => ∀ v ∈ vs, D.value r' v := by
  cases es with
  | nil => exact leads_calls (leads_pure nofun) fun y calls => by cases calls
  | cons e es =>
    obtain ⟨hfirst, hrest⟩ := List.forall_mem_append.mp h
    refine leads_calls (leads_bind (leads_subexpr ih (D.calls here .firstOf) hfirst)
      fun _ v _ _ e hv => leads_finish (ih (t := .exprs es) (D.calls here (.restOf e)) hrest)
        fun _ vs _ le _ hvs => ?_) fun y calls => ?_
    · exact leads_pure (List.forall_mem_cons.mpr ⟨D.value_mono le hv, hvs⟩)
    · cases calls with
      | firstOf => exact .inl rfl
      | restOf e => exact .inr ⟨_, _, e, rfl⟩

theorem leads_apply {f : Value} {paren : Lexeme} {vs : List Value}
    (here : D.visits ⟨n + 1, .apply f paren vs, m⟩) (hf : D.value r f)
    (hv : ∀ v ∈ vs, D.value r v) :
    D.Leads r m (apply (n + 1) f paren vs) (Point.Calls ⟨n + 1, .apply f paren vs, m⟩)
      D.value := by
  have later {r' : R} (le : r ≤ r') : ∀ v ∈ vs, D.value r' v :=
    fun v inside => D.value_mono le (hv v inside)
  cases f with
  | function f =>
    refine leads_calls (leads_bind (leads_checkArity paren f.arity vs.length)
      (Y := fun _ m₁ y => y = ⟨n, .call f vs, m₁⟩) fun _ _ _ le e _ => ?_) fun y calls => ?_
    · obtain ⟨enough, rfl⟩ := checkArity_eq_ok.mp e
      exact ih (t := .call f vs) (D.calls here (.function enough)) ⟨D.value_mono le hf, later le⟩
    · cases calls with
      | function enough => exact .inr ⟨(), m, checkArity_eq_ok.mpr ⟨enough, rfl⟩, rfl⟩
  | «class» c =>
    refine leads_calls (leads_bind (leads_checkArity paren c.arity vs.length)
      (Y := fun _ m₁ y => y = ⟨n, .make c vs, m₁⟩) fun _ _ _ le e _ => ?_) fun y calls => ?_
    · obtain ⟨enough, rfl⟩ := checkArity_eq_ok.mp e
      exact ih (t := .make c vs) (D.calls here (.class enough)) ⟨D.value_mono le hf, later le⟩
    · cases calls with
      | «class» enough => exact .inr ⟨(), m, checkArity_eq_ok.mpr ⟨enough, rfl⟩, rfl⟩
  | native f =>
    cases f with
    | clock => exact leads_calls leads_readClock fun y calls => by cases calls
  | nil | bool | number | string | «instance» =>
    exact leads_calls leads_fail fun y calls => by cases calls

theorem leads_call {f : Function} {vs : List Value} (here : D.visits ⟨n + 1, .call f vs, m⟩)
    (hf : D.value r (.function f)) (hv : ∀ v ∈ vs, D.value r v) :
    D.Leads r m (call (n + 1) f vs) (Point.Calls ⟨n + 1, .call f vs, m⟩) D.value := by
  intro ready
  have closure := D.closure (D.called hf)
  obtain ⟨hparams, hbody⟩ :=
    List.forall_mem_append.mp (f.decl.written_eq ▸ D.code (D.called hf))
  obtain ⟨r₁, le, fits, inside⟩ := D.frameMade ready.fits closure
  obtain ⟨r₂, le', fits⟩ :=
    fits_defineAll vs fits inside hparams fun v h => D.value_mono le (hv v h)
  refine leads_calls (leads_from (le_trans le le') fits rfl (call_succ n f vs m)
    (leads_finish (leads_within (ih (t := .stmts f.decl.body) (D.calls here .body) hbody)
      (D.frame_mono le' inside))
      fun r₃ flow _ le'' _ hflow => leads_result ?_ hflow)) (fun y calls => ?_) ready
  · exact D.frame_mono (le_trans (le_trans le le') le'') closure
  · cases calls
    rfl

theorem leads_make {c : Class} {vs : List Value} (here : D.visits ⟨n + 1, .make c vs, m⟩)
    (hc : D.value r (.class c)) (hv : ∀ v ∈ vs, D.value r v) :
    D.Leads r m (make (n + 1) c vs) (Point.Calls ⟨n + 1, .make c vs, m⟩) D.value := by
  intro ready
  obtain ⟨r₁, le, fits, ho⟩ := D.instanceMade ready.fits hc
  cases found : c.initializer? with
  | none =>
    have e : make (n + 1) c vs m =
        (pure (.instance ⟨m.heap.fields.size, c⟩) : Eval Value)
          { m with heap := m.heap.pushInstance } := make_of_none found n vs m
    refine leads_calls (leads_from le fits rfl e (leads_pure ho)) (fun y calls => ?_) ready
    cases calls with
    | initializer h => cases found.symm.trans h
  | some f =>
    have hf := D.function_method c (D.value_mono le hc) found
    obtain ⟨r₂, le', fits, hg⟩ := D.methodBound here (.initializer found rfl) fits hf ho
    refine leads_calls (leads_from (le_trans le le') fits rfl (make_of_some found n vs m)
      (leads_finish (ih (t := .call _ vs) (D.calls here (.initializer found rfl))
        ⟨hg, fun v h => D.value_mono (le_trans le le') (hv v h)⟩)
        fun _ _ _ le'' _ _ => leads_pure (D.value_mono (le_trans le' le'') ho)))
      (fun y calls => ?_) ready
    cases calls with
    | initializer h made =>
      cases found.symm.trans h
      cases made
      rfl

/-! ## Statements -/

theorem leads_stmt {s : Stmt} (here : D.visits ⟨n + 1, .stmt s, m⟩)
    (h : ∀ n ∈ s.written, D.name n) :
    D.Leads r m (stmt (n + 1) s) (Point.Calls ⟨n + 1, .stmt s, m⟩) D.flow := by
  cases s with
  | block body =>
    intro ready
    obtain ⟨r₁, le, fits, inside⟩ := D.frameMade ready.fits ready.current
    refine leads_calls (leads_from le fits rfl rfl
      (leads_within (ih (t := .stmts body) (D.calls here .block) h) inside))
      (fun y calls => ?_) ready
    cases calls
    rfl
  | classDecl name superclass methods =>
    obtain ⟨hname, hmethods⟩ := List.forall_mem_cons.mp h
    exact leads_calls (leads_finish (leads_declareClass here hname hmethods)
      fun _ _ _ _ _ _ => leads_pure trivial) fun y calls => by cases calls
  | expression e =>
    refine leads_calls (leads_finish (leads_subexpr ih (D.calls here .expression) h)
      fun _ _ _ _ _ _ => leads_pure trivial) fun y calls => ?_
    cases calls
    rfl
  | function decl =>
    obtain ⟨hname, hdecl⟩ := List.forall_mem_cons.mp h
    exact leads_calls (leads_finish (leads_declareFunction here hname hdecl)
      fun _ _ _ _ _ _ => leads_pure trivial) fun y calls => by cases calls
  | ifThen condition thenBranch =>
    obtain ⟨hcondition, hthen⟩ := List.forall_mem_append.mp h
    refine leads_calls (leads_bind (leads_subexpr ih (D.calls here .ifThenCondition) hcondition)
      (Y := fun v m₁ y => v.isTruthy = true ∧ y = ⟨n, .stmt thenBranch, m₁⟩)
      fun _ v _ _ e _ => ?_) fun y calls => ?_
    · split
      · rename_i holds
        have here' := D.calls here (.ifThen e holds)
        exact leads_calls (leads_substmt ih here' hthen) fun _ => And.right
      · exact leads_calls (leads_pure trivial) fun _ hy => absurd hy.1 ‹_›
    · cases calls with
      | ifThenCondition => exact .inl rfl
      | ifThen e holds => exact .inr ⟨_, _, e, holds, rfl⟩
  | ifElse condition thenBranch elseBranch =>
    obtain ⟨hcondition, hbranches⟩ := List.forall_mem_append.mp h
    obtain ⟨hthen, helse⟩ := List.forall_mem_append.mp hbranches
    refine leads_calls (leads_bind (leads_subexpr ih (D.calls here .ifElseCondition) hcondition)
      (Y := fun v m₁ y => v.isTruthy = true ∧ y = ⟨n, .stmt thenBranch, m₁⟩ ∨
        v.isTruthy = false ∧ y = ⟨n, .stmt elseBranch, m₁⟩)
      fun _ v _ _ e _ => ?_) fun y calls => ?_
    · split
      · rename_i holds
        have here' := D.calls here (.ifElseThen e holds)
        refine leads_calls (leads_substmt ih here' hthen) fun _ hy => ?_
        exact (hy.resolve_right fun hy => nomatch holds.symm.trans hy.1).2
      · rename_i fails
        have here' := D.calls here (.ifElse e (Bool.eq_false_iff.mpr fails))
        refine leads_calls (leads_substmt ih here' helse) fun _ hy => ?_
        exact (hy.resolve_left fun hy => fails hy.1).2
    · cases calls with
      | ifElseCondition => exact .inl rfl
      | ifElseThen e holds => exact .inr ⟨_, _, e, .inl ⟨holds, rfl⟩⟩
      | ifElse e fails => exact .inr ⟨_, _, e, .inr ⟨fails, rfl⟩⟩
  | print e =>
    refine leads_calls (leads_finish (leads_subexpr ih (D.calls here .print) h)
      fun _ v _ _ _ _ => leads_finish (leads_write v.text) fun _ _ _ _ _ _ => leads_pure trivial)
      fun y calls => ?_
    cases calls
    rfl
  | returning keyword value =>
    cases value with
    | none => exact leads_calls (leads_pure (D.plain trivial)) fun y calls => by cases calls
    | some value =>
      refine leads_calls (leads_finish (leads_subexpr ih (D.calls here .returning) h)
        fun _ v _ _ _ hv => leads_pure hv) fun y calls => ?_
      cases calls
      rfl
  | varDecl name initializer =>
    cases initializer with
    | none =>
      have hname : D.name name.text := List.forall_mem_singleton.mp h
      exact leads_calls (leads_finish (leads_define hname (D.plain trivial))
        fun _ _ _ _ _ _ => leads_pure trivial) fun y calls => by cases calls
    | some initializer =>
      obtain ⟨hname, hinitializer⟩ := List.forall_mem_cons.mp h
      refine leads_calls (leads_finish (leads_subexpr ih (D.calls here .varDecl) hinitializer)
        fun _ v _ _ _ hv => leads_finish (leads_define hname hv) fun _ _ _ _ _ _ =>
          leads_pure trivial) fun y calls => ?_
      cases calls
      rfl
  | «while» condition body =>
    refine leads_calls (ih (t := .loop condition body) (D.calls here .while)
      (List.forall_mem_append.mp h)) fun y calls => ?_
    cases calls
    rfl

theorem leads_stmts {ss : List Stmt} (here : D.visits ⟨n + 1, .stmts ss, m⟩)
    (h : ∀ n ∈ Stmt.writtenList ss, D.name n) :
    D.Leads r m (stmts (n + 1) ss) (Point.Calls ⟨n + 1, .stmts ss, m⟩) D.flow := by
  cases ss with
  | nil => exact leads_calls (leads_pure trivial) fun y calls => by cases calls
  | cons s ss =>
    obtain ⟨hfirst, hrest⟩ := List.forall_mem_append.mp h
    refine leads_calls (leads_bind (leads_substmt ih (D.calls here .firstStmt) hfirst)
      (Y := fun flow m₁ y => flow = .normal ∧ y = ⟨n, .stmts ss, m₁⟩)
      fun _ flow _ _ e hflow => ?_) fun y calls => ?_
    · cases flow with
      | normal =>
        have here' := D.calls here (.restStmts e)
        exact leads_calls (ih (t := .stmts ss) here' hrest) fun _ => And.right
      | returned v => exact leads_calls (leads_pure hflow) fun _ hy => nomatch hy.1
    · cases calls with
      | firstStmt => exact .inl rfl
      | restStmts e => exact .inr ⟨_, _, e, rfl, rfl⟩

theorem leads_loop {condition : Expr} {body : Stmt}
    (here : D.visits ⟨n + 1, .loop condition body, m⟩)
    (hcondition : ∀ n ∈ condition.written, D.name n) (hbody : ∀ n ∈ body.written, D.name n) :
    D.Leads r m (loop (n + 1) condition body) (Point.Calls ⟨n + 1, .loop condition body, m⟩)
      D.flow := by
  refine leads_calls (leads_bind (leads_subexpr ih (D.calls here .loopCondition) hcondition)
    (Y := fun v m₁ y => v.isTruthy = true ∧ (y = ⟨n, .stmt body, m₁⟩ ∨
      ∃ flow m₂, stmt n body m₁ = .ok flow m₂ ∧ flow = .normal ∧
        y = ⟨n, .loop condition body, m₂⟩))
    fun _ v _ _ e _ => ?_) fun y calls => ?_
  · split
    · rename_i holds
      refine leads_calls (leads_bind (leads_substmt ih (D.calls here (.loopBody e holds)) hbody)
        (Y := fun flow m₂ y => flow = .normal ∧ y = ⟨n, .loop condition body, m₂⟩)
        fun _ flow _ _ e' hflow => ?_) fun _ => And.right
      cases flow with
      | normal =>
        have here' := D.calls here (.loopAgain e holds e')
        exact leads_calls (ih (t := .loop condition body) here' ⟨hcondition, hbody⟩)
          fun _ => And.right
      | returned v => exact leads_calls (leads_pure hflow) fun _ hy => nomatch hy.1
    · exact leads_calls (leads_pure trivial) fun _ hy => absurd hy.1 ‹_›
  · cases calls with
    | loopCondition => exact .inl rfl
    | loopBody e holds => exact .inr ⟨_, _, e, holds, .inl rfl⟩
    | loopAgain e holds e' => exact .inr ⟨_, _, e, holds, .inr ⟨_, _, e', rfl, rfl⟩⟩

end

/-- Every task that may be performed and that a stage admits leads to a later stage, and lies with
all points that it comes to between the two. -/
theorem leads_task (n : Nat) {t : Task} {r : R} {m : Machine} (here : D.visits ⟨n, t, m⟩)
    (h : D.admits r t) :
    D.Leads r m (t.run n) (· = ⟨n, t, m⟩) fun r' => D.gives r' t := by
  induction n generalizing t r m with
  | zero =>
    refine leads_point h ?_
    cases t <;> exact leads_calls leads_throw fun y calls => by cases calls
  | succ n ih =>
    refine leads_point h ?_
    cases t with
    | expr e => exact leads_expr ih here h
    | exprs es => exact leads_exprs ih here h
    | apply f paren vs => exact leads_apply ih here h.1 h.2
    | call f vs => exact leads_call ih here h.1 h.2
    | make c vs => exact leads_make ih here h.1 h.2
    | stmt s => exact leads_stmt ih here h
    | stmts ss => exact leads_stmts ih here h
    | loop condition body => exact leads_loop ih here h.1 h.2

/-! ## Programs -/

theorem leads_topLevel (fuel : Nat) {ss : List Stmt}
    (here : ∀ y, Starting fuel ss m y → D.visits y) (h : ∀ n ∈ Stmt.writtenList ss, D.name n) :
    D.Leads r m (topLevel fuel ss) (Starting fuel ss m) fun _ _ => True := by
  induction ss generalizing r m with
  | nil =>
    refine leads_calls (leads_pure trivial) fun y starting => ?_
    obtain ⟨_, _, ⟨⟩, -⟩ := starting
  | cons s ss ih =>
    obtain ⟨hfirst, hrest⟩ := List.forall_mem_append.mp h
    have here' := here _ ⟨s, m, .first, rfl⟩
    refine leads_calls (leads_bind (leads_task fuel (t := .stmt s) here' hfirst)
      fun _ _ _ _ e _ => ih ?_ hrest) fun y starting => ?_
    · rintro _ ⟨s', m', starts, rfl⟩
      exact here _ ⟨s', m', .later e starts, rfl⟩
    obtain ⟨_, _, starts, rfl⟩ := starting
    cases starts with
    | first => exact .inl rfl
    | later e rest => exact .inr ⟨_, _, e, _, _, rest, rfl⟩

theorem leads_program (fuel : Nat) {ss : List Stmt} (distances : Distances)
    (here : ∀ y, Starting fuel ss { m with distances := distances } y → D.visits y)
    (h : ∀ n ∈ Stmt.writtenList ss, D.name n) :
    D.Leads r m (program fuel ss distances)
      (Starting fuel ss { m with distances := distances }) fun _ _ => True := by
  intro ready
  have after : D.Leads r { m with distances := distances } (topLevel fuel ss >>= fun _ => flush)
      (Starting fuel ss { m with distances := distances }) fun _ _ => True :=
    leads_finish (leads_topLevel fuel here h) fun _ _ _ _ _ _ => leads_flush
  have start : program fuel ss distances m =
      (topLevel fuel ss >>= fun _ => flush) { m with distances := distances } := rfl
  refine leads_from (le_refl r) ?_ ?_ start after ready
  · exact D.fits_congr ready.fits rfl rfl rfl
  · rfl

end Lox.Discipline
