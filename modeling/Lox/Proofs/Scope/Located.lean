import Lox.Source
import Lox.Proofs.Syntax.Reading
import Lox.Proofs.Token.Words
import Lox.Proofs.Scope.Context

/-!
# A survey locates what it accepts

A walk through a part of a program leads from one survey to another (`Survey.Walked`): it changes
the context as the part demands, notes distances for the nodes of the part only, and takes no error
back. So if the whole walk ends without errors, and the nodes have numbers of their own, the
distances at the end are those that were noted at each node, and every part is located where it
stands (`Stmt.located_of_survey`). This holds for every accepted source
(`Source.located_of_check`).
-/

namespace Lox

/-- The context that a survey has come to. -/
def Survey.context (s : Survey) : Context :=
  ⟨s.scopes, s.body, s.enclosingClass⟩

/-! ## Contexts of surveys -/

namespace Survey

@[simp] theorem context_enter (s : Survey) : s.enter.context = s.context.enter := rfl

@[simp] theorem context_declare (s : Survey) (name : Lexeme) :
    (s.declare name).context = s.context.declare name.text := by
  obtain ⟨scopes, globals, body, enclosingClass, distances, errors⟩ := s
  cases scopes with
  | nil => rfl
  | cons scope outer =>
    simp only [declare]
    split <;> rfl

@[simp] theorem context_define (s : Survey) (name : String) :
    (s.define name).context = s.context.define name := by
  obtain ⟨scopes, globals, body, enclosingClass, distances, errors⟩ := s
  cases scopes <;> rfl

@[simp] theorem context_enterWith (s : Survey) (keyword : String) :
    (s.enterWith keyword).context = s.context.enterWith keyword := by
  simp only [enterWith, context_define, context_enter, Context.enterWith]

/-! ## Walks -/

/-- A walk from `s` to `s'`, through a part of a program with the nodes `ids`, after which the
context is `Γ`. -/
structure Walked (s : Survey) (ids : List ExprId) (Γ : Context) (s' : Survey) : Prop where
  context : s'.context = Γ
  distances : ∀ id, id ∉ ids → s'.distances[id]? = s.distances[id]?
  errors : s'.errors = #[] → s.errors = #[]

namespace Walked

theorem refl (s : Survey) : s.Walked [] s.context s :=
  ⟨rfl, fun _ _ => rfl, id⟩

theorem trans {s s₁ s₂ : Survey} {ids ids' : List ExprId} {Γ Γ' : Context}
    (h : s.Walked ids Γ s₁) (h' : s₁.Walked ids' Γ' s₂) : s.Walked (ids ++ ids') Γ' s₂ := by
  refine ⟨h'.context, fun id hid => ?_, fun e => h.errors (h'.errors e)⟩
  rw [List.mem_append, not_or] at hid
  rw [h'.distances id hid.2, h.distances id hid.1]

/-- After a step that changes the context only. -/
theorem step {s s₁ s₂ : Survey} {ids : List ExprId} {Γ Γ' : Context} (h : s.Walked ids Γ s₁)
    (h' : s₁.Walked [] Γ' s₂) : s.Walked ids Γ' s₂ := by
  have := h.trans h'
  rwa [List.append_nil] at this

theorem mono {s s' : Survey} {ids ids' : List ExprId} {Γ : Context} (h : s.Walked ids Γ s')
    (sub : ∀ id ∈ ids, id ∈ ids') : s.Walked ids' Γ s' :=
  ⟨h.context, fun id hid => h.distances id fun inside => hid (sub id inside), h.errors⟩

theorem cast {s s' : Survey} {ids : List ExprId} {Γ Γ' : Context} (h : s.Walked ids Γ s')
    (e : Γ = Γ') : s.Walked ids Γ' s' :=
  e ▸ h

end Walked

theorem walked_report (s : Survey) (cause : ScopeCause) (blamed : Lexeme) :
    s.Walked [] s.context (s.report cause blamed) :=
  ⟨rfl, fun _ _ => rfl, fun e => absurd e (by simp [report])⟩

theorem walked_reportIf (s : Survey) (p : Prop) [Decidable p] (cause : ScopeCause)
    (blamed : Lexeme) : s.Walked [] s.context (if p then s.report cause blamed else s) := by
  split
  · exact walked_report s cause blamed
  · exact .refl s

theorem not_of_reportIf {s : Survey} {p : Prop} [Decidable p] {cause : ScopeCause}
    {blamed : Lexeme} (h : (if p then s.report cause blamed else s).errors = #[]) : ¬ p := by
  intro holds
  rw [if_pos holds] at h
  simp [report] at h

theorem walked_enter (s : Survey) : s.Walked [] s.context.enter s.enter :=
  ⟨rfl, fun _ _ => rfl, id⟩

theorem walked_declare (s : Survey) (name : Lexeme) :
    s.Walked [] (s.context.declare name.text) (s.declare name) := by
  refine ⟨context_declare s name, fun id _ => ?_, fun e => ?_⟩
  · unfold declare
    split
    · rfl
    · dsimp only
      split <;> rfl
  · unfold declare at e
    split at e
    · exact e
    · dsimp only at e
      split at e
      · simp [report] at e
      · exact e

theorem walked_define (s : Survey) (name : String) :
    s.Walked [] (s.context.define name) (s.define name) := by
  refine ⟨context_define s name, fun id _ => ?_, fun e => ?_⟩
  · unfold define
    split <;> rfl
  · unfold define at e
    split at e <;> exact e

theorem walked_bind (s : Survey) (name : Lexeme) :
    s.Walked [] (s.context.bind name.text) ((s.declare name).define name.text) :=
  ((walked_declare s name).step (walked_define _ _)).cast (by rw [context_declare]; rfl)

theorem walked_enterWith (s : Survey) (keyword : String) :
    s.Walked [] (s.context.enterWith keyword) (s.enterWith keyword) :=
  (walked_enter s).step (walked_define _ _)

theorem walked_locate (s : Survey) (id : ExprId) (name : Lexeme) :
    s.Walked [id] s.context (s.locate id name) := by
  unfold locate
  split
  · refine ⟨rfl, fun other h => ?_, fun e => e⟩
    rw [List.mem_singleton] at h
    simp only [Std.TreeMap.getElem?_insert, Std.LawfulEqCmp.compare_eq_iff_eq, Ne.symm h, if_false]
  · exact (Walked.refl s).mono nofun

theorem walked_refer (s : Survey) (id : ExprId) (name : Lexeme) :
    s.Walked [id] s.context (s.refer id name) := by
  unfold refer
  dsimp only
  split
  · exact (walked_report s _ _).trans (walked_locate _ id name)
  · exact walked_locate s id name

/-- The innermost scope is closed, and the body and class are those of `Γ` again. -/
theorem Walked.close {s s₁ s' : Survey} {ids : List ExprId} {Γ Γ₁ : Context}
    (h : s.Walked ids Γ₁ s₁) (context : s'.context = Γ) (distances : s'.distances = s₁.distances)
    (errors : s'.errors = s₁.errors) : s.Walked ids Γ s' :=
  ⟨context, fun id hid => by rw [distances, h.distances id hid], fun e => h.errors (errors ▸ e)⟩

end Survey

/-! ## Expressions -/

mutual

theorem Expr.walked : ∀ (e : Expr) (s : Survey), s.Walked e.ids s.context (e.survey s)
  | .assign id name value, s => by
    have h := value.walked s
    exact h.trans ((Survey.walked_locate _ id name).cast h.context)
  | .binary _ _ left right, s | .logical _ _ left right, s => by
    have h := left.walked s
    exact h.trans ((right.walked _).cast h.context)
  | .call callee _ arguments, s => by
    have h := callee.walked s
    exact h.trans ((Expr.walkedList arguments _).cast h.context)
  | .get object _, s => object.walked s
  | .grouping inner, s => inner.walked s
  | .literal _, s => .refl s
  | .set object _ value, s => by
    have h := value.walked s
    refine (h.trans ((object.walked _).cast h.context)).mono fun id hid => ?_
    exact List.mem_append.mpr (List.mem_append.mp hid).symm
  | .super id keyword _, s => by
    simp only [Expr.survey]
    split
    · exact (Survey.walked_report s _ _).mono nofun
    · exact (Survey.walked_report s _ _).mono nofun
    · exact Survey.walked_locate s id keyword
  | .this id keyword, s => by
    simp only [Expr.survey]
    split
    · exact (Survey.walked_report s _ _).mono nofun
    · exact Survey.walked_locate s id keyword
    · exact Survey.walked_locate s id keyword
  | .unary _ _ right, s => right.walked s
  | .variable id name, s => Survey.walked_refer s id name

theorem Expr.walkedList : ∀ (es : List Expr) (s : Survey),
    s.Walked (Expr.idsList es) s.context (Expr.surveyList es s)
  | [], s => .refl s
  | e :: es, s => by
    have h := e.walked s
    exact h.trans ((Expr.walkedList es _).cast h.context)

end

/-! ## What is noted stays noted -/

namespace Survey

/-- The walk from `s` to `s'`, through the nodes `ids`, has ended without errors, and what it noted
for these nodes is what the distances say. -/
structure Noted (distances : Distances) (s : Survey) (ids : List ExprId) (s' : Survey) : Prop where
  nodup : ids.Nodup
  fresh : ∀ id ∈ ids, s.distances[id]? = none
  accepted : s'.errors = #[]
  agrees : ∀ id ∈ ids, distances[id]? = s'.distances[id]?

namespace Noted

variable {distances : Distances} {s s₁ s₂ : Survey} {ids ids' : List ExprId} {Γ Γ' : Context}

theorem left (h : Noted distances s (ids ++ ids') s₂) (w' : s₁.Walked ids' Γ' s₂) :
    Noted distances s ids s₁ := by
  have apart := List.nodup_append.mp h.nodup
  refine ⟨apart.1, fun id hid => h.fresh id (List.mem_append_left _ hid), w'.errors h.accepted,
    fun id hid => ?_⟩
  rw [h.agrees id (List.mem_append_left _ hid)]
  exact w'.distances id fun hid' => apart.2.2 id hid id hid' rfl

theorem right (h : Noted distances s (ids ++ ids') s₂) (w : s.Walked ids Γ s₁) :
    Noted distances s₁ ids' s₂ := by
  have apart := List.nodup_append.mp h.nodup
  refine ⟨apart.2.1, fun id hid => ?_, h.accepted,
    fun id hid => h.agrees id (List.mem_append_right _ hid)⟩
  rw [w.distances id fun hid' => apart.2.2 id hid' id hid rfl]
  exact h.fresh id (List.mem_append_right _ hid)

theorem perm (h : Noted distances s ids s₁) (p : ids.Perm ids') : Noted distances s ids' s₁ :=
  ⟨p.nodup_iff.mp h.nodup, fun id hid => h.fresh id (p.mem_iff.mpr hid), h.accepted,
    fun id hid => h.agrees id (p.mem_iff.mpr hid)⟩

/-- What comes before a step that notes nothing. -/
theorem before (h : Noted distances s ids s₂) (w : s₁.Walked [] Γ' s₂) :
    Noted distances s ids s₁ := by
  rw [← List.append_nil ids] at h
  exact h.left w

/-- What comes after a step that notes nothing. -/
theorem after (h : Noted distances s ids s₂) (w : s.Walked [] Γ s₁) :
    Noted distances s₁ ids s₂ := by
  rw [← List.nil_append ids] at h
  exact h.right w

theorem locate {id : ExprId} {name : Lexeme} (h : Noted distances s [id] (s.locate id name)) :
    distances[id]? = s.context.distance? name.text := by
  have fresh := h.fresh id (List.mem_singleton_self id)
  have agrees := h.agrees id (List.mem_singleton_self id)
  rw [agrees]
  unfold Survey.locate Context.distance? context
  split
  · rename_i e
    rw [e]
    simp
  · rename_i e
    rw [e, fresh]

theorem refer {id : ExprId} {name : Lexeme} (h : Noted distances s [id] (s.refer id name)) :
    s.context.Refers distances id name := by
  have accepted := h.accepted
  unfold Survey.refer at h accepted
  dsimp only at h accepted
  split at h
  · rename_i pending
    rw [if_pos pending] at accepted
    have := (walked_locate _ id name).errors accepted
    simp [report] at this
  · rename_i readable
    refine ⟨?_, h.locate⟩
    rintro ⟨scope, first, declared⟩
    refine readable ?_
    have scopes : s.scopes.head? = some scope := first
    rw [status?, List.headD_eq_head?_getD, scopes]
    exact declared

end Noted

end Survey

section
variable {T : Token → Prop} {distances : Distances}

theorem Lexeme.From.isName (spelt : ∀ t, T t → t.Spelt) {l : Lexeme}
    (h : l.From T .identifier) : l.IsName := by
  obtain ⟨t, ht, kind, rfl⟩ := h
  have := spelt t ht
  unfold Token.Spelt at this
  rwa [kind] at this

theorem Lexeme.From.text_eq (spelt : ∀ t, T t → t.Spelt) {k : Keyword} {l : Lexeme}
    (h : l.From T (.keyword k)) : l.text = k.text := by
  obtain ⟨t, ht, kind, rfl⟩ := h
  have := spelt t ht
  unfold Token.Spelt at this
  rwa [kind] at this

theorem FunctionDecl.isName_of_wellFormed (spelt : ∀ t, T t → t.Spelt) {decl : FunctionDecl}
    (h : decl.WellFormed T) : decl.name.IsName := by
  obtain ⟨name, params, body⟩ := decl
  exact Lexeme.From.isName spelt h.1

mutual

theorem Expr.located_of_survey (spelt : ∀ t, T t → t.Spelt) : ∀ (e : Expr) (s : Survey),
    e.WellFormed T → Survey.Noted distances s e.ids (e.survey s) → e.Located distances s.context
  | .assign id name value, s, wf, h => by
    have w := value.walked s
    refine ⟨value.located_of_survey spelt s wf.2 (h.left (Survey.walked_locate _ id name)),
      wf.1.isName spelt, ?_⟩
    rw [(h.right w).locate, w.context]
  | .binary _ _ left right, s, wf, h | .logical _ _ left right, s, wf, h => by
    have w := left.walked s
    refine ⟨left.located_of_survey spelt s wf.1 (h.left (right.walked _)), ?_⟩
    have := right.located_of_survey spelt _ wf.2 (h.right w)
    rwa [w.context] at this
  | .call callee _ arguments, s, wf, h => by
    have w := callee.walked s
    refine ⟨callee.located_of_survey spelt s wf.1 (h.left (Expr.walkedList arguments _)), ?_⟩
    have := Expr.locatedList_of_survey spelt arguments _ wf.2 (h.right w)
    rwa [w.context] at this
  | .get object _, s, wf, h => object.located_of_survey spelt s wf.1 h
  | .grouping inner, s, wf, h => inner.located_of_survey spelt s wf h
  | .literal _, _, _, _ => trivial
  | .set object _ value, s, wf, h => by
    -- the value is surveyed before the object
    replace h := h.perm List.perm_append_comm
    have w := value.walked s
    refine ⟨value.located_of_survey spelt s wf.2.2 (h.left (object.walked _)), ?_⟩
    have := object.located_of_survey spelt _ wf.1 (h.right w)
    rwa [w.context] at this
  | .super id keyword _, s, wf, h => by
    simp only [Expr.survey] at h
    split at h
    · exact absurd h.accepted (by simp [Survey.report])
    · exact absurd h.accepted (by simp [Survey.report])
    · rename_i derived
      have text := wf.1.text_eq spelt
      exact ⟨derived, by rw [h.locate, text]; rfl⟩
  | .this id keyword, s, wf, h => by
    have text : keyword.text = "this" := Lexeme.From.text_eq spelt wf
    simp only [Expr.survey] at h
    split at h
    · exact absurd h.accepted (by simp [Survey.report])
    · rename_i root
      exact ⟨fun e => (nomatch root.symm.trans e), text, by rw [h.locate, text]⟩
    · rename_i derived
      exact ⟨fun e => (nomatch derived.symm.trans e), text, by rw [h.locate, text]⟩
  | .unary _ _ right, s, wf, h => right.located_of_survey spelt s wf h
  | .variable _ _, _, _, h => h.refer

theorem Expr.locatedList_of_survey (spelt : ∀ t, T t → t.Spelt) : ∀ (es : List Expr)
    (s : Survey), Expr.WellFormedList T es →
    Survey.Noted distances s (Expr.idsList es) (Expr.surveyList es s) →
    Expr.LocatedList distances s.context es
  | [], _, _, _ => trivial
  | e :: es, s, wf, h => by
    have w := e.walked s
    refine ⟨e.located_of_survey spelt s wf.1 (h.left (Expr.walkedList es _)), ?_⟩
    have := Expr.locatedList_of_survey spelt es _ wf.2 (h.right w)
    rwa [w.context] at this

end

end

/-! ## Statements -/

namespace Context

/-- Outside the innermost scope. -/
def leave (Γ : Context) : Context :=
  { Γ with scopes := Γ.scopes.tail }

theorem leave_bind (Γ : Context) (name : String) : (Γ.bind name).leave = Γ.leave := by
  obtain ⟨scopes, body, enclosingClass⟩ := Γ
  cases scopes <;> rfl

theorem leave_enterBody (Γ : Context) (kind : BodyKind) (params : List Lexeme) :
    (Γ.enterBody kind params).leave = { Γ with body := kind } := by
  unfold enterBody
  generalize e : ({ Γ with body := kind } : Context).enter = Δ
  have start : Δ.leave = { Γ with body := kind } := by rw [← e]; rfl
  clear e
  induction params generalizing Δ with
  | nil => exact start
  | cons param params ih => exact ih _ ((leave_bind Δ param.text).trans start)

end Context

theorem Stmt.leave_after (s : Stmt) (Γ : Context) : (s.after Γ).leave = Γ.leave := by
  cases s <;> first | rfl | exact Γ.leave_bind _

theorem Stmt.leave_afterList (ss : List Stmt) (Γ : Context) :
    (Stmt.afterList ss Γ).leave = Γ.leave := by
  induction ss generalizing Γ with
  | nil => rfl
  | cons s ss ih => exact (ih _).trans (s.leave_after Γ)

/-! ## Names of the innermost scope -/

namespace Context

variable {Γ : Context} {name other : String}

/-- The innermost scope does not declare the name. -/
def Free (Γ : Context) (name : String) : Prop :=
  ∀ scope ∈ Γ.scopes.head?, scope.contains name = false

theorem free_bind (isLocal : Γ.scopes ≠ []) :
    (Γ.bind name).Free other ↔ name ≠ other ∧ Γ.Free other := by
  obtain ⟨scopes, body, enclosingClass⟩ := Γ
  cases scopes with
  | nil => exact absurd rfl isLocal
  | cons scope outer =>
    simp [Free, bind, declare, define, mark, Std.TreeMap.contains_insert]

theorem scopes_bind (isLocal : Γ.scopes ≠ []) : (Γ.bind name).scopes ≠ [] := by
  obtain ⟨scopes, body, enclosingClass⟩ := Γ
  cases scopes with
  | nil => exact absurd rfl isLocal
  | cons scope outer => exact List.cons_ne_nil _ _

theorem scopes_bindAll (isLocal : Γ.scopes ≠ []) (names : List Lexeme) :
    (names.foldl (fun Γ name => Γ.bind name.text) Γ).scopes ≠ [] := by
  induction names generalizing Γ with
  | nil => exact isLocal
  | cons name names ih => exact ih (scopes_bind isLocal)

end Context

theorem Stmt.after_of_declared? {s : Stmt} {name : String} (e : s.declared? = some name)
    (Γ : Context) : s.after Γ = Γ.bind name := by
  cases s <;> cases e <;> rfl

theorem Stmt.after_of_declared?_none {s : Stmt} (e : s.declared? = none) (Γ : Context) :
    s.after Γ = Γ := by
  cases s <;> first | rfl | cases e

theorem Stmt.scopes_after {Γ : Context} (s : Stmt) (isLocal : Γ.scopes ≠ []) :
    (s.after Γ).scopes ≠ [] := by
  cases e : s.declared? with
  | none => rwa [s.after_of_declared?_none e]
  | some name =>
    rw [s.after_of_declared? e]
    exact Context.scopes_bind isLocal

namespace Survey

theorem free_of_declare {s : Survey} {name : Lexeme} (h : (s.declare name).errors = #[]) :
    s.context.Free name.text := by
  intro scope first
  obtain ⟨scopes, globals, body, enclosingClass, distances, errors⟩ := s
  cases scopes with
  | nil => cases first
  | cons innermost outer =>
    cases first
    refine Bool.eq_false_iff.mpr fun declared => ?_
    simp [declare, declared, report] at h

theorem walked_leave {s s₁ : Survey} {ids : List ExprId} {Γ : Context} (h : s.Walked ids Γ s₁) :
    s.Walked ids Γ.leave s₁.leave :=
  h.close (by rw [← h.context]; rfl) rfl rfl

theorem walked_bindAll (s : Survey) (names : List Lexeme) :
    s.Walked [] (names.foldl (fun Γ name => Γ.bind name.text) s.context)
      (names.foldl (fun s name => (s.declare name).define name.text) s) := by
  induction names generalizing s with
  | nil => exact .refl s
  | cons name names ih =>
    have bound := walked_bind s name
    exact bound.step ((ih _).cast (by rw [bound.context]; rfl))

theorem walked_enterBody (s : Survey) (kind : BodyKind) (params : List Lexeme) :
    s.Walked [] (s.context.enterBody kind params)
      (params.foldl (fun s param => (s.declare param).define param.text)
        { s with body := kind }.enter) := by
  have opened : s.Walked [] ({ s.context with body := kind } : Context).enter
      ({ s with body := kind } : Survey).enter := ⟨rfl, fun _ _ => rfl, id⟩
  exact opened.step (walked_bindAll _ params)

/-- The check that a class does not inherit from itself. -/
theorem walked_superclassCheck (s : Survey) (name : Lexeme) (c : Superclass) :
    s.Walked [] { s.context with enclosingClass := .derived }
      { (if c.name.text = name.text then s.report .inheritsItself c.name else s) with
        enclosingClass := .derived } := by
  have checked := walked_reportIf s (c.name.text = name.text) .inheritsItself c.name
  exact checked.close (by rw [← checked.context]; rfl) rfl rfl

theorem walked_enterClass (s : Survey) (name : Lexeme) (superclass : Option Superclass) :
    s.Walked (superclass.map Superclass.id).toList (s.context.enterClass superclass)
      (s.enterClass name superclass) := by
  cases superclass with
  | none =>
    have start : s.Walked [] { s.context with enclosingClass := .root }
        { s with enclosingClass := .root } := ⟨rfl, fun _ _ => rfl, id⟩
    exact start.step (walked_enterWith _ _)
  | some c =>
    have inside := s.walked_superclassCheck name c
    have referred := inside.trans ((walked_refer _ c.id c.name).cast inside.context)
    refine (referred.step (walked_enterWith _ "super")).step (walked_enterWith _ "this") |>.cast ?_
    rw [context_enterWith, referred.context]
    rfl

end Survey

/-- The checks of a return statement with a value. -/
theorem Survey.walked_returnChecks (s : Survey) (keyword : Lexeme) :
    s.Walked [] s.context
      (if s.body = .initializer then
        (if s.body = .none then s.report .returnOutsideFunction keyword else s).report
          .returnFromInitializer keyword
      else if s.body = .none then s.report .returnOutsideFunction keyword else s) := by
  have first := s.walked_reportIf (s.body = .none) .returnOutsideFunction keyword
  exact first.step ((Survey.walked_reportIf _ _ _ _).cast first.context)

theorem Survey.Noted.superclass {distances : Distances} {s : Survey} {name : Lexeme}
    {c : Superclass} (h : Survey.Noted distances s [c.id] (s.enterClass name (some c))) :
    s.context.Refers distances c.id c.name := by
  have inside := s.walked_superclassCheck name c
  have referred := ((h.before (Survey.walked_enterWith _ "this")).before
    (Survey.walked_enterWith _ "super")).after inside
  have := referred.refer
  rw [inside.context] at this
  exact this

/-- Outside the scopes of a class again. -/
theorem Survey.context_leaveClass {s : Survey} {Γ : Context} {superclass : Option Superclass}
    (h : s.context = Γ.enterClass superclass) (c : ClassKind) :
    ({ s.leaveClass superclass with enclosingClass := c } : Survey).context =
      { Γ with enclosingClass := c } := by
  obtain ⟨scopes, globals, body, enclosingClass, distances, errors⟩ := s
  cases superclass with
  | none =>
    simp only [Survey.context, Context.enterClass, Context.aroundThis, Context.enterWith,
      Context.enter, Context.define, Context.mark, Context.mk.injEq] at h
    obtain ⟨rfl, rfl, rfl⟩ := h
    rfl
  | some _ =>
    simp only [Survey.context, Context.enterClass, Context.aroundThis, Context.enterWith,
      Context.enter, Context.define, Context.mark, Context.mk.injEq] at h
    obtain ⟨rfl, rfl, rfl⟩ := h
    rfl

section
variable {T : Token → Prop} {distances : Distances}

mutual

theorem Stmt.walked : ∀ (stmt : Stmt) (s : Survey), stmt.WellFormed T →
    s.Walked stmt.ids (stmt.after s.context) (stmt.survey s)
  | .block body, s, wf => by
    have inside := (Survey.walked_enter s).trans (Stmt.walkedList body s.enter wf)
    exact (Survey.walked_leave inside).cast (Stmt.leave_afterList body _)
  | .classDecl name superclass methods, s, wf => by
    have bound := Survey.walked_bind s name
    have inside := bound.trans ((Survey.walked_enterClass _ name superclass).cast
      (by rw [bound.context]))
    have whole := inside.trans ((FunctionDecl.walkedMethods methods _ wf.2.2).cast inside.context)
    refine whole.close ?_ ?_ ?_
    · refine (Survey.context_leaveClass whole.context _).trans ?_
      obtain ⟨scopes, globals, body, enclosingClass, distances, errors⟩ := s
      cases scopes <;> rfl
    · cases superclass <;> rfl
    · cases superclass <;> rfl
  | .expression e, s, _ => e.walked s
  | .function decl, s, wf => by
    have bound := Survey.walked_bind s decl.name
    exact bound.trans ((decl.walked .function _ wf).cast bound.context)
  | .ifThen condition thenBranch, s, wf => by
    have h := condition.walked s
    refine h.trans ((thenBranch.walked _ wf.2.1).cast ?_)
    rw [Stmt.after_of_declared?_none wf.2.2, h.context]
    rfl
  | .ifElse condition thenBranch elseBranch, s, wf => by
    have h := condition.walked s
    have h' := (thenBranch.walked (condition.survey s) wf.2.1).cast
      ((Stmt.after_of_declared?_none wf.2.2.1 _).trans h.context)
    refine h.trans (h'.trans ((elseBranch.walked _ wf.2.2.2.1).cast ?_))
    rw [Stmt.after_of_declared?_none wf.2.2.2.2, h'.context]
    rfl
  | .print e, s, _ => e.walked s
  | .returning keyword none, s, _ => Survey.walked_reportIf s _ _ keyword
  | .returning keyword (some value), s, _ => by
    have checked := s.walked_returnChecks keyword
    exact checked.trans ((value.walked _).cast checked.context)
  | .varDecl name none, s, _ => Survey.walked_bind s name
  | .varDecl name (some initializer), s, _ => by
    have declared := Survey.walked_declare s name
    have read := declared.trans ((initializer.walked _).cast declared.context)
    exact (read.step (Survey.walked_define _ _)).cast (by rw [read.context]; rfl)
  | .while condition body, s, wf => by
    have h := condition.walked s
    refine h.trans ((body.walked _ wf.2.1).cast ?_)
    rw [Stmt.after_of_declared?_none wf.2.2, h.context]
    rfl

theorem Stmt.walkedList : ∀ (stmts : List Stmt) (s : Survey), Stmt.WellFormedList T stmts →
    s.Walked (Stmt.idsList stmts) (Stmt.afterList stmts s.context) (Stmt.surveyList stmts s)
  | [], s, _ => .refl s
  | stmt :: stmts, s, wf => by
    have h := stmt.walked s wf.1
    exact h.trans ((Stmt.walkedList stmts _ wf.2).cast (by rw [h.context]; rfl))

theorem FunctionDecl.walked : ∀ (decl : FunctionDecl) (kind : BodyKind) (s : Survey),
    decl.WellFormed T → s.Walked decl.ids s.context (decl.survey kind s)
  | ⟨_, params, body⟩, kind, s, wf => by
    have opened := Survey.walked_enterBody s kind params
    have inside := opened.trans ((Stmt.walkedList body _ wf.2.2).cast (by rw [opened.context]))
    refine (Survey.walked_leave inside).close ?_ rfl rfl
    have closed := (Survey.walked_leave inside).context
    rw [Stmt.leave_afterList, Context.leave_enterBody] at closed
    exact congrArg (fun Γ => ({ Γ with body := s.body } : Context)) closed

theorem FunctionDecl.walkedMethods : ∀ (methods : List FunctionDecl) (s : Survey),
    FunctionDecl.WellFormedList T methods →
    s.Walked (FunctionDecl.idsList methods) s.context (FunctionDecl.surveyMethods methods s)
  | [], s, _ => .refl s
  | method :: methods, s, wf => by
    have h := method.walked method.methodBody s wf.1
    exact h.trans ((FunctionDecl.walkedMethods methods _ wf.2).cast h.context)

end

/-! ## No scope declares a name twice -/

theorem Stmt.free_of_survey {stmt : Stmt} {s : Survey} (wf : stmt.WellFormed T)
    (h : (stmt.survey s).errors = #[]) : ∀ name ∈ stmt.declared?, s.context.Free name := by
  intro name declared
  cases stmt with
  | classDecl lexeme superclass methods =>
    cases declared
    have opened := (Survey.walked_define (s.declare lexeme) lexeme.text).trans
      (Survey.walked_enterClass _ lexeme superclass)
    have whole := opened.trans (FunctionDecl.walkedMethods methods _ wf.2.2)
    refine Survey.free_of_declare (whole.errors ?_)
    cases superclass <;> exact h
  | function decl =>
    cases declared
    have whole := (Survey.walked_define (s.declare decl.name) decl.name.text).trans
      (decl.walked .function _ wf)
    exact Survey.free_of_declare (whole.errors h)
  | varDecl lexeme initializer =>
    cases declared
    cases initializer with
    | none => exact Survey.free_of_declare ((Survey.walked_define _ _).errors h)
    | some initializer =>
      exact Survey.free_of_declare
        ((initializer.walked _).errors ((Survey.walked_define _ _).errors h))
  | _ => cases declared

/-- The statements of a local scope declare different names, none of which is declared before. -/
theorem Stmt.free_of_surveyList {stmts : List Stmt} {s : Survey}
    (isLocal : s.context.scopes ≠ [])
    (wf : Stmt.WellFormedList T stmts) (h : (Stmt.surveyList stmts s).errors = #[]) :
    (stmts.filterMap Stmt.declared?).Nodup ∧
      ∀ name ∈ stmts.filterMap Stmt.declared?, s.context.Free name := by
  induction stmts generalizing s with
  | nil => exact ⟨List.nodup_nil, nofun⟩
  | cons stmt stmts ih =>
    have w := stmt.walked s wf.1
    have free := Stmt.free_of_survey wf.1 ((Stmt.walkedList stmts _ wf.2).errors h)
    obtain ⟨nodup, later⟩ := ih (by rw [w.context]; exact stmt.scopes_after isLocal) wf.2 h
    rw [w.context] at later
    cases e : stmt.declared? with
    | none =>
      rw [List.filterMap_cons_none e]
      rw [stmt.after_of_declared?_none e] at later
      exact ⟨nodup, later⟩
    | some name =>
      rw [List.filterMap_cons_some e]
      rw [stmt.after_of_declared? e] at later
      refine ⟨List.nodup_cons.mpr ⟨fun inside => ?_, nodup⟩, fun other inside => ?_⟩
      · exact ((Context.free_bind isLocal).mp (later name inside)).1 rfl
      · rcases List.mem_cons.mp inside with rfl | inside
        · exact free _ e
        · exact ((Context.free_bind isLocal).mp (later other inside)).2

/-- The same of parameters before other names. -/
theorem Survey.free_of_bindAll {params : List Lexeme} {s : Survey} {names : List String}
    (isLocal : s.context.scopes ≠ [])
    (h : (params.foldl (fun s param => (s.declare param).define param.text) s).errors = #[])
    (nodup : names.Nodup)
    (later : ∀ name ∈ names,
      (params.foldl (fun Γ param => Γ.bind param.text) s.context).Free name) :
    (params.map Lexeme.text ++ names).Nodup ∧
      ∀ name ∈ params.map Lexeme.text ++ names, s.context.Free name := by
  induction params generalizing s with
  | nil => exact ⟨nodup, later⟩
  | cons param params ih =>
    have bound := Survey.walked_bind s param
    have free : s.context.Free param.text := Survey.free_of_declare
      (((Survey.walked_define _ _).step (Survey.walked_bindAll _ params)).errors h)
    obtain ⟨nodup, later⟩ := ih (by rw [bound.context]; exact Context.scopes_bind isLocal) h
      (by rwa [bound.context])
    rw [bound.context] at later
    refine ⟨List.nodup_cons.mpr ⟨fun inside => ?_, nodup⟩, fun other inside => ?_⟩
    · exact ((Context.free_bind isLocal).mp (later param.text inside)).1 rfl
    · rcases List.mem_cons.mp inside with rfl | inside
      · exact free
      · exact ((Context.free_bind isLocal).mp (later other inside)).2

mutual

/-- If the survey of the whole ended without errors, the statement is located where it stands. -/
theorem Stmt.located_of_survey (spelt : ∀ t, T t → t.Spelt) : ∀ (stmt : Stmt) (s : Survey),
    stmt.WellFormed T → Survey.Noted distances s stmt.ids (stmt.survey s) →
    stmt.Located distances s.context
  | .block body, s, wf, h => by
    have inside := h.after (Survey.walked_enter s)
    refine ⟨Stmt.locatedList_of_survey spelt body s.enter wf
      ⟨inside.nodup, inside.fresh, inside.accepted, inside.agrees⟩, ?_⟩
    exact (Stmt.free_of_surveyList (s := s.enter) (List.cons_ne_nil _ _) wf inside.accepted).1
  | .classDecl name superclass methods, s, wf, h => by
    have bound := Survey.walked_bind s name
    have opened := (Survey.walked_enterClass ((s.declare name).define name.text) name
      superclass).cast (by rw [bound.context])
    have inside : Survey.Noted distances s
        ((superclass.map Superclass.id).toList ++ FunctionDecl.idsList methods)
        (FunctionDecl.surveyMethods methods
          (((s.declare name).define name.text).enterClass name superclass)) := by
      refine ⟨h.nodup, h.fresh, ?_, fun id hid => ?_⟩
      · have accepted := h.accepted
        cases superclass <;> exact accepted
      · refine (h.agrees id hid).trans ?_
        cases superclass <;> rfl
    replace inside := inside.after bound
    refine ⟨wf.1.isName spelt, ?_, ?_⟩
    · intro c hc
      cases hc
      have referred := inside.left (FunctionDecl.walkedMethods methods _ wf.2.2)
      rw [← bound.context]
      exact referred.superclass
    · have := FunctionDecl.locatedMethods_of_survey spelt methods _ wf.2.2 (inside.right opened)
      rwa [opened.context] at this
  | .expression e, s, wf, h => e.located_of_survey spelt s wf h
  | .function decl, s, wf, h => by
    have bound := Survey.walked_bind s decl.name
    refine ⟨FunctionDecl.isName_of_wellFormed spelt wf, ?_⟩
    have := decl.located_of_survey spelt .function _ wf (h.after bound)
    rwa [bound.context] at this
  | .ifThen condition thenBranch, s, wf, h => by
    have w := condition.walked s
    refine ⟨condition.located_of_survey spelt s wf.1 (h.left (thenBranch.walked _ wf.2.1)), ?_⟩
    have := thenBranch.located_of_survey spelt _ wf.2.1 (h.right w)
    rwa [w.context] at this
  | .ifElse condition thenBranch elseBranch, s, wf, h => by
    have w := condition.walked s
    have w' := (thenBranch.walked (condition.survey s) wf.2.1).cast
      ((Stmt.after_of_declared?_none wf.2.2.1 _).trans w.context)
    have w'' := elseBranch.walked (thenBranch.survey (condition.survey s)) wf.2.2.2.1
    refine ⟨condition.located_of_survey spelt s wf.1 (h.left (w'.trans w'')), ?_, ?_⟩
    · have := thenBranch.located_of_survey spelt _ wf.2.1 ((h.right w).left w'')
      rwa [w.context] at this
    · have := elseBranch.located_of_survey spelt _ wf.2.2.2.1 ((h.right w).right w')
      rwa [w'.context] at this
  | .print e, s, wf, h => e.located_of_survey spelt s wf h
  | .returning _ none, _, _, h => Survey.not_of_reportIf h.accepted
  | .returning keyword (some value), s, wf, h => by
    have checked := s.walked_returnChecks keyword
    have accepted := (value.walked _).errors h.accepted
    refine ⟨?_, Survey.not_of_reportIf accepted, ?_⟩
    · exact Survey.not_of_reportIf ((Survey.walked_reportIf _ _ _ _).errors accepted)
    · have := value.located_of_survey spelt _ wf (h.after checked)
      rwa [checked.context] at this
  | .varDecl name none, s, wf, h => wf.isName spelt
  | .varDecl name (some initializer), s, wf, h => by
    have declared := Survey.walked_declare s name
    refine ⟨wf.1.isName spelt, ?_⟩
    have := initializer.located_of_survey spelt _ wf.2
      ((h.before (Survey.walked_define _ _)).after declared)
    rwa [declared.context] at this
  | .while condition body, s, wf, h => by
    have w := condition.walked s
    refine ⟨condition.located_of_survey spelt s wf.1 (h.left (body.walked _ wf.2.1)), ?_⟩
    have := body.located_of_survey spelt _ wf.2.1 (h.right w)
    rwa [w.context] at this

theorem Stmt.locatedList_of_survey (spelt : ∀ t, T t → t.Spelt) : ∀ (stmts : List Stmt)
    (s : Survey), Stmt.WellFormedList T stmts →
    Survey.Noted distances s (Stmt.idsList stmts) (Stmt.surveyList stmts s) →
    Stmt.LocatedList distances stmts s.context
  | [], _, _, _ => trivial
  | stmt :: stmts, s, wf, h => by
    have w := stmt.walked s wf.1
    refine ⟨stmt.located_of_survey spelt s wf.1 (h.left (Stmt.walkedList stmts _ wf.2)), ?_⟩
    have := Stmt.locatedList_of_survey spelt stmts _ wf.2 (h.right w)
    rwa [w.context] at this

theorem FunctionDecl.located_of_survey (spelt : ∀ t, T t → t.Spelt) : ∀ (decl : FunctionDecl)
    (kind : BodyKind) (s : Survey), decl.WellFormed T →
    Survey.Noted distances s decl.ids (decl.survey kind s) →
    decl.Located distances kind s.context
  | ⟨_, params, body⟩, kind, s, wf, h => by
    have opened := Survey.walked_enterBody s kind params
    have inside : Survey.Noted distances s (Stmt.idsList body) (Stmt.surveyList body
        (params.foldl (fun s param => (s.declare param).define param.text)
          { s with body := kind }.enter)) := ⟨h.nodup, h.fresh, h.accepted, h.agrees⟩
    refine ⟨fun param hp => (wf.2.1 param hp).isName spelt, ?_, ?_⟩
    · have := Stmt.locatedList_of_survey spelt body _ wf.2.2 (inside.after opened)
      rwa [opened.context] at this
    · have bound := (Stmt.walkedList body _ wf.2.2).errors inside.accepted
      have isLocal : ({ s with body := kind } : Survey).enter.context.scopes ≠ [] :=
        List.cons_ne_nil _ _
      have still := Context.scopes_bindAll isLocal params
      obtain ⟨nodup, free⟩ := Stmt.free_of_surveyList
        (by rw [opened.context]; exact still) wf.2.2 inside.accepted
      exact (Survey.free_of_bindAll isLocal bound nodup (by rwa [opened.context] at free)).1

theorem FunctionDecl.locatedMethods_of_survey (spelt : ∀ t, T t → t.Spelt) :
    ∀ (methods : List FunctionDecl) (s : Survey), FunctionDecl.WellFormedList T methods →
    Survey.Noted distances s (FunctionDecl.idsList methods)
      (FunctionDecl.surveyMethods methods s) →
    FunctionDecl.LocatedMethods distances methods s.context
  | [], _, _, _ => trivial
  | method :: methods, s, wf, h => by
    have w := method.walked method.methodBody s wf.1
    refine ⟨method.located_of_survey spelt _ s wf.1
      (h.left (FunctionDecl.walkedMethods methods _ wf.2)), ?_⟩
    have := FunctionDecl.locatedMethods_of_survey spelt methods _ wf.2 (h.right w)
    rwa [w.context] at this

end

/-- The statements of a program without scope errors are located where they stand. -/
theorem Stmt.located_of_distancesOf (spelt : ∀ t, T t → t.Spelt) {ss : List Stmt}
    (wf : Stmt.WellFormedList T ss) (nodup : (Stmt.idsList ss).Nodup)
    (h : distancesOf ss = .ok distances) : Stmt.LocatedList distances ss Context.top := by
  unfold distancesOf at h
  dsimp only at h
  split at h
  · rename_i accepted
    cases h
    refine Stmt.locatedList_of_survey spelt ss Survey.start wf
      ⟨nodup, fun id _ => ?_, Array.isEmpty_iff.mp accepted, fun id _ => rfl⟩
    exact Std.TreeMap.getElem?_emptyc
  · cases h

end

/-! ## Sources -/

namespace Source

theorem check_eq_ok {source : String} {p : Checked} (h : check source = .ok p) :
    lexicalErrorsOf source = [] ∧ (Program.ofTokens (tokensOf source)).errors = [] ∧
      (Program.ofTokens (tokensOf source)).statements = p.statements ∧
      distancesOf p.statements = .ok p.distances := by
  unfold check Program.statements? at h
  dsimp only at h
  split at h
  · cases h
  · rename_i statements read
    split at read
    · rename_i noErrors
      cases read
      split at h
      · rename_i noLexical
        split at h
        · cases h
        · rename_i distances located
          cases h
          refine ⟨?_, List.isEmpty_iff.mp noErrors, rfl, located⟩
          rwa [List.isEmpty_iff, List.map_eq_nil_iff] at noLexical
      · cases h
    · cases read

/-- A source is accepted if no stage finds an error. -/
theorem check_of_distancesOf {source : String} {ss : List Stmt} {distances : Distances}
    (lexical : lexicalErrorsOf source = [])
    (noErrors : (Program.ofTokens (tokensOf source)).errors = [])
    (statements : (Program.ofTokens (tokensOf source)).statements = ss)
    (located : distancesOf ss = .ok distances) : check source = .ok ⟨ss, distances⟩ := by
  simp only [check, Program.statements?, noErrors, lexical, statements, located, List.isEmpty_nil,
    if_true, List.map_nil]

/-- The names in an accepted source are lexemes of its tokens, and its nodes have numbers of their
own. -/
theorem read_of_check {T : Token → Prop} {source : String} {p : Checked}
    (h : check source = .ok p) (tokens : ∀ t ∈ tokensOf source, T t) :
    Stmt.WellFormedList T p.statements ∧ (Stmt.idsList p.statements).Nodup := by
  obtain ⟨-, noErrors, e, -⟩ := check_eq_ok h
  have read := Program.read_ofTokens tokens noErrors
  rw [e] at read
  exact ⟨read.1, read.2.nodup⟩

/-- The statements of an accepted source are located where they stand. -/
theorem located_of_check {source : String} {p : Checked} (h : check source = .ok p) :
    Stmt.LocatedList p.distances p.statements Context.top := by
  obtain ⟨wf, nodup⟩ := read_of_check h fun _ => spelt_of_mem_tokensOf
  exact Stmt.located_of_distancesOf (fun _ => id) wf nodup (check_eq_ok h).2.2.2

end Source

end Lox
