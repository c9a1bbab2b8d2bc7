import Lox.Proofs.Scope.Appended

/-!
# The survey of a program with other labels

A program whose nodes have other numbers, different ones for different nodes, and whose lexemes
stand on other lines, breaks the scope rules where the program itself does, and its nodes have the
same distances under their other numbers (`Stmt.distancesOf_relabel`): each step of the survey does
the same on both (`Survey.Relabelled`).
-/

namespace Lox

/-- The breach with other labels. -/
def ScopeError.relabel (R : Relabelling) (e : ScopeError) : ScopeError :=
  { e with blamed := e.blamed.relabel R }

/-- The nodes `known` have the distances `d` by their own numbers, and `d'` by their other ones. -/
def Distances.Relabelled (R : Relabelling) (known : ExprId → Prop) (d d' : Distances) : Prop :=
  ∀ j n, d'[j]? = some n ↔ ∃ i, known i ∧ R.id i = j ∧ d[i]? = some n

/-- Different nodes have different other numbers. -/
def Relabelling.Separates (R : Relabelling) (known : ExprId → Prop) : Prop :=
  ∀ i j, known i → known j → R.id i = R.id j → i = j

/-- The same is known, but for the labels of nodes and of lexemes. -/
inductive Survey.Relabelled (R : Relabelling) (known : ExprId → Prop) (s : Survey) :
    Survey → Prop
  | intro {distances : Distances} (differ : R.Separates known)
    (h : s.distances.Relabelled R known distances) :
    Survey.Relabelled R known s
      { s with distances := distances, errors := s.errors.map (ScopeError.relabel R) }

variable {R : Relabelling} {known : ExprId → Prop}

/-! ## Steps -/

namespace Survey.Relabelled

variable {s s' : Survey} (h : s.Relabelled R known s')
include h

theorem report (cause : ScopeCause) (blamed : Lexeme) :
    (s.report cause blamed).Relabelled R known (s'.report cause (blamed.relabel R)) := by
  obtain ⟨differ, h⟩ := h
  have errors : (s.errors.push ⟨cause, blamed⟩).map (ScopeError.relabel R) =
      (s.errors.map (ScopeError.relabel R)).push ⟨cause, blamed.relabel R⟩ := Array.map_push
  unfold Survey.report
  rw [← errors]
  exact .intro differ h

theorem enter : s.enter.Relabelled R known s'.enter := by
  obtain ⟨differ, h⟩ := h
  exact .intro differ h

theorem leave : s.leave.Relabelled R known s'.leave := by
  obtain ⟨differ, h⟩ := h
  exact .intro differ h

theorem inBody {kind kind' : BodyKind} (same : kind' = kind) :
    ({ s with body := kind } : Survey).Relabelled R known { s' with body := kind' } := by
  obtain ⟨differ, h⟩ := h
  subst same
  exact .intro differ h

theorem inClass {kind kind' : ClassKind} (same : kind' = kind) :
    ({ s with enclosingClass := kind } : Survey).Relabelled R known
      { s' with enclosingClass := kind' } := by
  obtain ⟨differ, h⟩ := h
  subst same
  exact .intro differ h

theorem body_eq : s'.body = s.body := by
  obtain ⟨-, -⟩ := h
  rfl

theorem enclosingClass_eq : s'.enclosingClass = s.enclosingClass := by
  obtain ⟨-, -⟩ := h
  rfl

theorem define (name : String) : (s.define name).Relabelled R known (s'.define name) := by
  obtain ⟨differ, h⟩ := h
  unfold Survey.define
  dsimp only
  split <;> exact .intro differ h

theorem declare (name : Lexeme) :
    (s.declare name).Relabelled R known (s'.declare (name.relabel R)) := by
  obtain ⟨differ, h⟩ := h
  unfold Survey.declare
  rw [Lexeme.text_relabel]
  dsimp only
  split
  · exact .intro differ h
  · rename_i scope outer _
    have declared : ({ s with scopes := scope.insert name.text .declared :: outer } :
        Survey).Relabelled R known _ := .intro differ h
    by_cases taken : scope.contains name.text
    · rw [if_pos taken, if_pos taken]
      exact declared.report .redeclared name
    · rw [if_neg taken, if_neg taken]
      exact declared

theorem bind (name : Lexeme) : ((s.declare name).define name.text).Relabelled R known
    ((s'.declare (name.relabel R)).define (name.relabel R).text) :=
  (h.declare name).define name.text

theorem enterWith (keyword : String) :
    (s.enterWith keyword).Relabelled R known (s'.enterWith keyword) :=
  h.enter.define keyword

theorem locate {id : ExprId}
    (isKnown : known id) (name : Lexeme) :
    (s.locate id name).Relabelled R known (s'.locate (R.id id) (name.relabel R)) := by
  obtain ⟨differ, h⟩ := h
  unfold Survey.locate
  dsimp only [Lexeme.text_relabel]
  split
  · rename_i distance _
    refine .intro differ fun j n => ?_
    dsimp only
    simp only [Std.TreeMap.getElem?_insert, Std.LawfulEqCmp.compare_eq_iff_eq]
    constructor
    · intro entry
      split at entry
      · rename_i own
        exact ⟨id, isKnown, own, by rwa [if_pos rfl]⟩
      · rename_i other
        obtain ⟨i, isKnown', rfl, entry'⟩ := (h j n).mp entry
        refine ⟨i, isKnown', rfl, ?_⟩
        rwa [if_neg fun same => other (congrArg R.id same)]
    · rintro ⟨i, isKnown', rfl, entry⟩
      split at entry
      · rename_i own
        rwa [if_pos (congrArg R.id own)]
      · rename_i other
        rw [if_neg fun same => other (differ id i isKnown isKnown' same)]
        exact (h _ n).mpr ⟨i, isKnown', rfl, entry⟩
  · exact .intro differ h

theorem refer {id : ExprId}
    (isKnown : known id) (name : Lexeme) :
    (s.refer id name).Relabelled R known (s'.refer (R.id id) (name.relabel R)) := by
  have status : s'.status? (name.relabel R).text = s.status? name.text := by
    obtain ⟨-, -⟩ := h
    rfl
  unfold Survey.refer
  rw [status]
  split
  · exact (h.report .readInInitializer name).locate isKnown name
  · exact h.locate isKnown name

end Survey.Relabelled

/-! ## Expressions -/

mutual

theorem Expr.survey_relabelled : ∀ (e : Expr) {s s' : Survey}, s.Relabelled R known s' →
    (∀ id ∈ e.ids, known id) → (e.survey s).Relabelled R known ((e.relabel R).survey s')
  | .assign id name value, _, _, h, inside => by
    obtain ⟨inner, own⟩ := List.forall_mem_append.mp inside
    exact (value.survey_relabelled h inner).locate (own id (by simp)) name
  | .binary _ _ left right, _, _, h, inside | .logical _ _ left right, _, _, h, inside => by
    obtain ⟨inner, inner'⟩ := List.forall_mem_append.mp inside
    exact right.survey_relabelled (left.survey_relabelled h inner) inner'
  | .call callee _ arguments, _, _, h, inside => by
    obtain ⟨inner, inner'⟩ := List.forall_mem_append.mp inside
    exact Expr.surveyList_relabelled arguments (callee.survey_relabelled h inner) inner'
  | .get object _, _, _, h, inside => object.survey_relabelled h inside
  | .grouping inner, _, _, h, inside => inner.survey_relabelled h inside
  | .literal _, _, _, h, _ => h
  | .set object _ value, _, _, h, inside => by
    obtain ⟨inner, inner'⟩ := List.forall_mem_append.mp inside
    exact object.survey_relabelled (value.survey_relabelled h inner') inner
  | .super id keyword _, s, s', h, inside => by
    rw [Expr.relabel, Expr.survey, Expr.survey, h.enclosingClass_eq]
    split
    · exact h.report .superOutsideClass keyword
    · exact h.report .superWithoutSuperclass keyword
    · exact h.locate (inside id (by simp [Expr.ids])) keyword
  | .this id keyword, s, s', h, inside => by
    rw [Expr.relabel, Expr.survey, Expr.survey, h.enclosingClass_eq]
    split
    · exact h.report .thisOutsideClass keyword
    all_goals exact h.locate (inside id (by simp [Expr.ids])) keyword
  | .unary _ _ right, _, _, h, inside => right.survey_relabelled h inside
  | .variable id name, _, _, h, inside => h.refer (inside id (by simp [Expr.ids])) name

theorem Expr.surveyList_relabelled : ∀ (es : List Expr) {s s' : Survey},
    s.Relabelled R known s' → (∀ id ∈ Expr.idsList es, known id) →
    (Expr.surveyList es s).Relabelled R known (Expr.surveyList (Expr.relabelList R es) s')
  | [], _, _, h, _ => h
  | e :: es, _, _, h, inside => by
    obtain ⟨inner, inner'⟩ := List.forall_mem_append.mp inside
    exact Expr.surveyList_relabelled es (e.survey_relabelled h inner) inner'

end

/-! ## Statements -/

namespace Survey.Relabelled

variable {s s' : Survey} (h : s.Relabelled R known s')
include h

theorem enterBody (params : List Lexeme) :
    (params.foldl (fun s param => (s.declare param).define param.text) s).Relabelled R known
      ((params.map (Lexeme.relabel R)).foldl
        (fun s param => (s.declare param).define param.text) s') := by
  induction params generalizing s s' with
  | nil => exact h
  | cons param params ih => exact ih (h.bind param)

theorem enterClass (name : Lexeme) {superclass : Option Superclass}
    (inside : ∀ id ∈ (superclass.map Superclass.id).toList, known id) :
    (s.enterClass name superclass).Relabelled R known
      (s'.enterClass (name.relabel R) (superclass.map (Superclass.relabel R))) := by
  cases superclass with
  | none => exact (h.inClass rfl).enterWith "this"
  | some superclass =>
    obtain ⟨id, name'⟩ := superclass
    have checked : (if name'.text = name.text then s.report .inheritsItself name' else s).Relabelled
        R known (if (name'.relabel R).text = (name.relabel R).text then
          s'.report .inheritsItself (name'.relabel R) else s') := by
      rw [Lexeme.text_relabel, Lexeme.text_relabel]
      split
      · exact h.report .inheritsItself name'
      · exact h
    have derived := checked.inClass (show ClassKind.derived = _ from rfl)
    have referred := derived.refer (inside id (by simp)) name'
    exact (referred.enterWith "super").enterWith "this"

theorem leaveClass (superclass : Option Superclass) :
    (s.leaveClass superclass).Relabelled R known
      (s'.leaveClass (superclass.map (Superclass.relabel R))) := by
  cases superclass with
  | none => exact h.leave
  | some _ => exact h.leave.leave

theorem returns (keyword : Lexeme) {value : Option Expr}
    (inside : ∀ id ∈ value.elim [] Expr.ids, known id) :
    (s.returns keyword value).Relabelled R known
      (s'.returns (keyword.relabel R) (value.map (Expr.relabel R))) := by
  have checked : (if s.body = .none then s.report .returnOutsideFunction keyword else s).Relabelled
      R known (if s'.body = .none then
        s'.report .returnOutsideFunction (keyword.relabel R) else s') := by
    rw [h.body_eq]
    split
    · exact h.report .returnOutsideFunction keyword
    · exact h
  cases value with
  | none => exact checked
  | some value =>
    refine value.survey_relabelled ?_ inside
    rw [h.body_eq] at checked ⊢
    by_cases initializer : s.body = .initializer
    · rw [if_pos initializer, if_pos initializer]
      exact checked.report .returnFromInitializer keyword
    · rw [if_neg initializer, if_neg initializer]
      exact checked

end Survey.Relabelled

mutual

theorem Stmt.survey_relabelled : ∀ (stmt : Stmt) {s s' : Survey}, s.Relabelled R known s' →
    (∀ id ∈ stmt.ids, known id) → (stmt.survey s).Relabelled R known ((stmt.relabel R).survey s')
  | .block body, _, _, h, inside => (Stmt.surveyList_relabelled body h.enter inside).leave
  | .classDecl name superclass methods, s, s', h, inside => by
    obtain ⟨above, inner⟩ := List.forall_mem_append.mp inside
    have entered := (h.bind name).enterClass name above
    have left := (FunctionDecl.surveyMethods_relabelled methods entered inner).leaveClass superclass
    exact left.inClass h.enclosingClass_eq
  | .expression e, _, _, h, inside | .print e, _, _, h, inside => e.survey_relabelled h inside
  | .function decl, s, s', h, inside => by
    obtain ⟨name, params, body⟩ := decl
    exact FunctionDecl.survey_relabelled ⟨name, params, body⟩ .function (h.bind name) inside
  | .ifThen condition thenBranch, _, _, h, inside => by
    obtain ⟨inner, inner'⟩ := List.forall_mem_append.mp inside
    exact thenBranch.survey_relabelled (condition.survey_relabelled h inner) inner'
  | .ifElse condition thenBranch elseBranch, _, _, h, inside => by
    obtain ⟨inner, branches⟩ := List.forall_mem_append.mp inside
    obtain ⟨inner', inner''⟩ := List.forall_mem_append.mp branches
    exact elseBranch.survey_relabelled
      (thenBranch.survey_relabelled (condition.survey_relabelled h inner) inner') inner''
  | .returning keyword none, _, _, h, _ => h.returns keyword (List.forall_mem_nil _)
  | .returning keyword (some value), _, _, h, inside => h.returns keyword inside
  | .varDecl name none, _, _, h, _ => h.bind name
  | .varDecl name (some initializer), _, _, h, inside =>
    (initializer.survey_relabelled (h.declare name) inside).define name.text
  | .while condition body, _, _, h, inside => by
    obtain ⟨inner, inner'⟩ := List.forall_mem_append.mp inside
    exact body.survey_relabelled (condition.survey_relabelled h inner) inner'

theorem Stmt.surveyList_relabelled : ∀ (stmts : List Stmt) {s s' : Survey},
    s.Relabelled R known s' → (∀ id ∈ Stmt.idsList stmts, known id) →
    (Stmt.surveyList stmts s).Relabelled R known
      (Stmt.surveyList (Stmt.relabelList R stmts) s')
  | [], _, _, h, _ => h
  | stmt :: stmts, _, _, h, inside => by
    obtain ⟨inner, inner'⟩ := List.forall_mem_append.mp inside
    exact Stmt.surveyList_relabelled stmts (stmt.survey_relabelled h inner) inner'

theorem FunctionDecl.survey_relabelled : ∀ (decl : FunctionDecl) (kind : BodyKind)
    {s s' : Survey}, s.Relabelled R known s' → (∀ id ∈ decl.ids, known id) →
    (decl.survey kind s).Relabelled R known ((decl.relabel R).survey kind s')
  | ⟨_, params, body⟩, kind, s, s', h, inside => by
    have entered := (h.inBody (show kind = kind from rfl)).enter.enterBody params
    exact (Stmt.surveyList_relabelled body entered inside).leave.inBody h.body_eq

theorem FunctionDecl.surveyMethods_relabelled : ∀ (methods : List FunctionDecl) {s s' : Survey},
    s.Relabelled R known s' → (∀ id ∈ FunctionDecl.idsList methods, known id) →
    (FunctionDecl.surveyMethods methods s).Relabelled R known
      (FunctionDecl.surveyMethods (FunctionDecl.relabelList R methods) s')
  | [], _, _, h, _ => h
  | method :: methods, _, _, h, inside => by
    obtain ⟨inner, inner'⟩ := List.forall_mem_append.mp inside
    rw [FunctionDecl.relabelList, FunctionDecl.surveyMethods, FunctionDecl.surveyMethods,
      method.methodBody_relabel R]
    exact FunctionDecl.surveyMethods_relabelled methods
      (method.survey_relabelled method.methodBody h inner) inner'

end

/-! ## Programs -/

theorem Survey.relabelled_start (differ : R.Separates known) :
    Survey.start.Relabelled R known Survey.start := by
  have none : Survey.start.distances.Relabelled R known ∅ := fun j n => by simp [Survey.start]
  have started := Survey.Relabelled.intro differ none
  rwa [show Survey.start.errors.map (ScopeError.relabel R) = #[] from Array.map_empty] at started

/-- The survey of statements with other labels finds the same breaches, and if there are none the
same distances. -/
theorem Stmt.distancesOf_relabel {ss : List Stmt}
    (differ : R.Separates (· ∈ Stmt.idsList ss)) :
    (∀ errors, distancesOf ss = .error errors →
      distancesOf (Stmt.relabelList R ss) = .error (errors.map (ScopeError.relabel R))) ∧
    ∀ distances, distancesOf ss = .ok distances → ∃ distances',
      distancesOf (Stmt.relabelList R ss) = .ok distances' ∧
      distances.Relabelled R (· ∈ Stmt.idsList ss) distances' := by
  have surveyed := Stmt.surveyList_relabelled ss (Survey.relabelled_start differ) fun _ => id
  unfold distancesOf
  dsimp only
  generalize Stmt.surveyList ss Survey.start = s at surveyed ⊢
  generalize Stmt.surveyList (Stmt.relabelList R ss) Survey.start = s' at surveyed ⊢
  obtain ⟨-, h⟩ := surveyed
  dsimp only
  have empty : (s.errors.map (ScopeError.relabel R)).isEmpty = s.errors.isEmpty := by
    rw [Array.isEmpty, Array.size_map, Array.isEmpty]
  rw [empty, Array.toList_map]
  split
  · refine ⟨nofun, ?_⟩
    rintro _ ⟨⟩
    exact ⟨_, rfl, h⟩
  · refine ⟨?_, nofun⟩
    rintro _ ⟨⟩
    rfl

/-- Only nodes of the program have distances. -/
theorem Stmt.mem_ids_of_distance {ss : List Stmt} {distances : Distances}
    (ok : distancesOf ss = .ok distances) {id : ExprId} {n : Nat}
    (entry : distances[id]? = some n) : id ∈ Stmt.idsList ss := by
  have differ : Relabelling.same.Separates (· ∈ Stmt.idsList ss) := fun _ _ _ _ same => same
  obtain ⟨distances', ok', relabelled⟩ := (Stmt.distancesOf_relabel differ).2 distances ok
  rw [Stmt.relabelList_same, ok] at ok'
  cases ok'
  obtain ⟨_, inside, rfl, -⟩ := (relabelled id n).mp entry
  exact inside

/-- The survey comes to the same with two programs that are the same when both have got other
labels. -/
theorem Stmt.distancesOf_alike {R' : Relabelling} {ss ss' : List Stmt}
    (differ : R.Separates (· ∈ Stmt.idsList ss)) (differ' : R'.Separates (· ∈ Stmt.idsList ss'))
    (same : Stmt.relabelList R' ss' = Stmt.relabelList R ss) :
    ((∃ d, distancesOf ss = .ok d) ↔ ∃ d', distancesOf ss' = .ok d') ∧
    ∀ d d', distancesOf ss = .ok d → distancesOf ss' = .ok d' → ∀ j n,
      (∃ i, i ∈ Stmt.idsList ss' ∧ R'.id i = j ∧ d'[i]? = some n) ↔
        ∃ i, i ∈ Stmt.idsList ss ∧ R.id i = j ∧ d[i]? = some n := by
  obtain ⟨rejected, accepted⟩ := Stmt.distancesOf_relabel differ
  obtain ⟨rejected', accepted'⟩ := Stmt.distancesOf_relabel differ'
  rw [same] at rejected' accepted'
  cases found : distancesOf ss with
  | error errors =>
    refine ⟨⟨nofun, ?_⟩, nofun⟩
    rintro ⟨d', found'⟩
    obtain ⟨_, joint, -⟩ := accepted' d' found'
    cases (rejected errors found).symm.trans joint
  | ok d =>
    obtain ⟨_, joint, relabelled⟩ := accepted d found
    refine ⟨⟨fun _ => ?_, fun _ => ⟨d, rfl⟩⟩, ?_⟩
    · cases found' : distancesOf ss' with
      | error errors => cases (rejected' errors found').symm.trans joint
      | ok d' => exact ⟨d', rfl⟩
    · rintro _ d' ⟨⟩ found' j n
      obtain ⟨_, joint', relabelled'⟩ := accepted' d' found'
      cases joint'.symm.trans joint
      exact (relabelled' j n).symm.trans (relabelled j n)

end Lox
