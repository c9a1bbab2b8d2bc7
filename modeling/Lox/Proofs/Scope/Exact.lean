import Mathlib
import Lox.Proofs.Scope.Stands
import Lox.Proofs.Syntax.Reading
import Lox.Proofs.Token.Words

/-!
# The survey finds what the scope rules say

A survey that stands at a place goes through the sites of a part of the program: it adds one error
for each breach among them and notes a distance for each reference to a local name
(`Survey.Finds`). So the survey of a whole program reports its breaches, each once, and where there
are none it notes the references to local names and nothing else (`survey_is_exact`).
-/

namespace Lox

namespace Survey

/-! ## What a survey finds -/

/-- From `s` to `s'` each breach at the sites has been reported, and a distance has been noted for
each reference of the sites that has one, and for nothing else. -/
structure Finds (s : Survey) (sites : List Site) (s' : Survey) : Prop where
  errors : s'.errors.toList.Perm (s.errors.toList ++ sites.filterMap Site.breach?)
  noted : ∀ id, s.distances[id]?.isSome ∨ (∃ site ∈ sites, ∃ n, site.note? = some (id, n)) →
    s'.distances[id]?.isSome
  only : ∀ id n, s'.distances[id]? = some n →
    s.distances[id]? = some n ∨ ∃ site ∈ sites, site.note? = some (id, n)

namespace Finds

variable {s s' s₁ s₂ : Survey} {sites sites' : List Site}

/-- Nothing is reported and nothing is noted. -/
theorem of_eq (errors : s'.errors = s.errors) (distances : s'.distances = s.distances) :
    s.Finds [] s' := by
  refine ⟨?_, fun id known => ?_, fun id n known => .inl (distances ▸ known)⟩
  · rw [errors, List.filterMap_nil, List.append_nil]
  · obtain known | ⟨site, inside, -⟩ := known
    · rwa [distances]
    · cases inside

theorem refl (s : Survey) : s.Finds [] s :=
  of_eq rfl rfl

theorem trans (h : s.Finds sites s₁) (h' : s₁.Finds sites' s₂) :
    s.Finds (sites ++ sites') s₂ := by
  refine ⟨?_, fun id known => h'.noted id ?_, fun id n known => ?_⟩
  · rw [List.filterMap_append, ← List.append_assoc]
    exact h'.errors.trans (h.errors.append_right _)
  · obtain known | ⟨site, inside, entry⟩ := known
    · exact .inl (h.noted id (.inl known))
    · rcases List.mem_append.mp inside with inside | inside
      · exact .inl (h.noted id (.inr ⟨site, inside, entry⟩))
      · exact .inr ⟨site, inside, entry⟩
  · obtain known | ⟨site, inside, entry⟩ := h'.only id n known
    · obtain known | ⟨site, inside, entry⟩ := h.only id n known
      · exact .inl known
      · exact .inr ⟨site, List.mem_append_left _ inside, entry⟩
    · exact .inr ⟨site, List.mem_append_right _ inside, entry⟩

theorem perm (h : s.Finds sites s') (p : sites.Perm sites') : s.Finds sites' s' := by
  refine ⟨h.errors.trans ((p.filterMap _).append_left _), fun id known => h.noted id ?_,
    fun id n known => ?_⟩
  · exact known.imp_right fun ⟨site, inside, entry⟩ => ⟨site, p.mem_iff.mpr inside, entry⟩
  · exact (h.only id n known).imp_right fun ⟨site, inside, entry⟩ =>
      ⟨site, p.mem_iff.mp inside, entry⟩

/-- Before steps that report and note nothing. -/
theorem before (h : s.Finds sites s₁) (errors : s₂.errors = s₁.errors)
    (distances : s₂.distances = s₁.distances) : s.Finds sites s₂ := by
  have := h.trans (of_eq errors distances)
  rwa [List.append_nil] at this

/-- After steps that report and note nothing. -/
theorem after (h : s₁.Finds sites s₂) (errors : s₁.errors = s.errors)
    (distances : s₁.distances = s.distances) : s.Finds sites s₂ :=
  (of_eq errors distances).trans h

/-- What one site comes to. -/
theorem site {site : Site} (errors : s'.errors.toList = s.errors.toList ++ site.breach?.toList)
    (distances : s'.distances = site.note?.elim s.distances fun e => s.distances.insert e.1 e.2) :
    s.Finds [site] s' := by
  refine ⟨?_, fun id known => ?_, fun id n known => ?_⟩
  · rw [errors]
    cases e : site.breach? <;> simp [e]
  · rw [distances]
    cases e : site.note? with
    | none => simpa [e] using known
    | some entry =>
      simp only [Option.elim_some, Std.TreeMap.getElem?_insert, Std.LawfulEqCmp.compare_eq_iff_eq]
      split
      · rfl
      · rename_i apart
        refine known.resolve_right ?_
        rintro ⟨other, inside, n, e'⟩
        rw [List.mem_singleton.mp inside, e] at e'
        exact apart (congrArg Prod.fst (Option.some.inj e'))
  · rw [distances] at known
    cases e : site.note? with
    | none => exact .inl (by simpa [e] using known)
    | some entry =>
      simp only [e, Option.elim_some, Std.TreeMap.getElem?_insert,
        Std.LawfulEqCmp.compare_eq_iff_eq] at known
      split at known
      · rename_i same
        cases known
        exact .inr ⟨site, List.mem_singleton_self site, by rw [e, ← same]⟩
      · exact .inl known

/-- A rule is broken at a site that is no reference. -/
theorem report {site : Site} {cause : ScopeCause} {blamed : Lexeme}
    (breach : site.breach? = some ⟨cause, blamed⟩) (entry : site.note? = none) :
    s.Finds [site] (s.report cause blamed) :=
  .site (by rw [breach]; simp [Survey.report]) (by rw [entry]; rfl)

/-- No rule is broken at a site that is no reference. -/
theorem skip {site : Site} (breach : site.breach? = none) (entry : site.note? = none) :
    s.Finds [site] s :=
  .site (by simp [breach]) (by rw [entry]; rfl)

/-- The name that is referred to is looked for. -/
theorem locate {site : Site} {id : ExprId} {name : Lexeme}
    (errors : s.errors.toList = s₁.errors.toList ++ site.breach?.toList)
    (distances : s.distances = s₁.distances)
    (entry : site.note? = (s.scopes.findIdx? (·.contains name.text)).map (id, ·)) :
    s₁.Finds [site] (s.locate id name) := by
  unfold Survey.locate
  split
  · rename_i d e
    exact .site errors (by rw [entry, e, ← distances]; rfl)
  · rename_i e
    exact .site errors (by rw [entry, e, ← distances]; rfl)

/-- A variable is read. -/
theorem refer {p : Path} {id : ExprId} {name : Lexeme}
    (distance : s.scopes.findIdx? (·.contains name.text) = p.distance? name.text)
    (pending : s.status? name.text = some .declared ↔ p.Pending name.text) :
    s.Finds [⟨p, .reads id name⟩] (s.refer id name) := by
  unfold Survey.refer
  dsimp only
  split
  · rename_i declared
    refine locate ?_ rfl (by rw [Site.note?, ← distance]; rfl)
    simp [Survey.report, Site.breach?, pending.mp declared]
  · rename_i readable
    refine locate ?_ rfl (by rw [Site.note?, ← distance])
    simp [Site.breach?, mt pending.mpr readable]

/-- A name is declared. -/
theorem declare {p : Path} (h : s.Stands p) (name : Lexeme) :
    s.Finds [⟨p, .declares name⟩] (s.declare name) := by
  have known := h.scopes
  unfold Survey.declare
  split
  · rename_i e
    rw [e, List.forall₂_nil_left_iff] at known
    exact .site (by simp [Site.breach?, known]) rfl
  · rename_i scope outer e
    rw [e] at known
    obtain ⟨names, outer', first, -, known'⟩ := List.forall₂_cons_left_iff.mp known
    dsimp only
    rw [first.contains]
    by_cases again : name.text ∈ names
    · exact .site (by simp [again, Survey.report, Site.breach?, known']) (by simp [again]; rfl)
    · exact .site (by simp [again, Site.breach?, known']) (by simp [again]; rfl)

theorem bind {p : Path} (h : s.Stands p) (name : Lexeme) :
    s.Finds [⟨p, .declares name⟩] ((s.declare name).define name.text) :=
  (declare h name).before (distances_define _ _).1 (distances_define _ _).2

end Finds

end Survey

/-! ## Expressions -/

namespace Survey

/-- Only distances and errors are noted on the way from `s` to `s'`. -/
def Alike (s s' : Survey) : Prop :=
  s' = { s with distances := s'.distances, errors := s'.errors }

theorem Sees.alike {s s' : Survey} {p : Path} (h : s.Sees p) (alike : s.Alike s') : s'.Sees p := by
  rw [alike]
  exact ⟨h.distance, h.pending, h.enclosingClass⟩

theorem Stands.alike {s s' : Survey} {p : Path} (h : s.Stands p) (alike : s.Alike s') :
    s'.Stands p := by
  rw [alike]
  exact ⟨h.scopes, h.globals, h.body, h.enclosingClass, h.readable⟩

theorem Alike.trans {s s₁ s₂ : Survey} (h : s.Alike s₁) (h' : s₁.Alike s₂) : s.Alike s₂ := by
  rw [Alike, h', h]

theorem alike_locate (s : Survey) (id : ExprId) (name : Lexeme) : s.Alike (s.locate id name) := by
  unfold locate
  split <;> rfl

theorem alike_refer (s : Survey) (id : ExprId) (name : Lexeme) : s.Alike (s.refer id name) := by
  unfold refer
  dsimp only
  split
  · have reported : s.Alike (s.report .readInInitializer name) := rfl
    exact reported.trans (alike_locate _ id name)
  · exact alike_locate s id name

end Survey

mutual

theorem Expr.alike_survey : ∀ (e : Expr) (s : Survey), s.Alike (e.survey s)
  | .assign id name value, s => (value.alike_survey s).trans (Survey.alike_locate _ id name)
  | .binary _ _ left right, s | .logical _ _ left right, s =>
    (left.alike_survey s).trans (right.alike_survey _)
  | .call callee _ arguments, s =>
    (callee.alike_survey s).trans (Expr.alike_surveyList arguments _)
  | .get object _, s => object.alike_survey s
  | .grouping inner, s => inner.alike_survey s
  | .literal _, _ => rfl
  | .set object _ value, s => (value.alike_survey s).trans (object.alike_survey _)
  | .super id keyword _, s => by
    simp only [Expr.survey]
    split
    · rfl
    · rfl
    · exact Survey.alike_locate s id keyword
  | .this id keyword, s => by
    simp only [Expr.survey]
    split
    · rfl
    · exact Survey.alike_locate s id keyword
    · exact Survey.alike_locate s id keyword
  | .unary _ _ right, s => right.alike_survey s
  | .variable id name, s => Survey.alike_refer s id name

theorem Expr.alike_surveyList : ∀ (es : List Expr) (s : Survey), s.Alike (Expr.surveyList es s)
  | [], _ => rfl
  | e :: es, s => (e.alike_survey s).trans (Expr.alike_surveyList es _)

end

mutual

/-- The survey of an expression finds what is at its sites. -/
theorem Expr.finds {p : Path} : ∀ (e : Expr) (s : Survey), s.Sees p →
    s.Finds (e.sites p) (e.survey s)
  | .assign id name value, s, h => by
    have after := h.alike (value.alike_survey s)
    refine (value.finds s h).trans (.locate (by simp [Site.breach?]) rfl ?_)
    rw [after.distance]
    rfl
  | .binary _ _ left right, s, h | .logical _ _ left right, s, h =>
    (left.finds s h).trans (right.finds _ (h.alike (left.alike_survey s)))
  | .call callee _ arguments, s, h =>
    (callee.finds s h).trans (Expr.findsList arguments _ (h.alike (callee.alike_survey s)))
  | .get object _, s, h => object.finds s h
  | .grouping inner, s, h => inner.finds s h
  | .literal _, s, _ => .refl s
  | .set object _ value, s, h =>
    ((value.finds s h).trans (object.finds _ (h.alike (value.alike_survey s)))).perm
      List.perm_append_comm
  | .super id keyword _, s, h => by
    have known := h.enclosingClass
    simp only [Expr.survey]
    split
    · rename_i e
      rw [e] at known
      exact .report (by simp [Site.breach?, ← known]) (by simp [Site.note?, ← known])
    · rename_i e
      rw [e] at known
      exact .report (by simp [Site.breach?, ← known]) (by simp [Site.note?, ← known])
    · rename_i e
      rw [e] at known
      exact .locate (by simp [Site.breach?, ← known]) rfl
        (by simp [Site.note?, ← known, h.distance])
  | .this id keyword, s, h => by
    have known := h.enclosingClass
    simp only [Expr.survey]
    split
    · rename_i e
      rw [e] at known
      exact .report (by simp [Site.breach?, ← known]) (by simp [Site.note?, ← known])
    all_goals
      rename_i e
      rw [e] at known
      exact .locate (by simp [Site.breach?, ← known]) rfl
        (by simp [Site.note?, ← known, h.distance])
  | .unary _ _ right, s, h => right.finds s h
  | .variable _ name, _, h => .refer (h.distance name.text) (h.pending name.text)

theorem Expr.findsList {p : Path} : ∀ (es : List Expr) (s : Survey), s.Sees p →
    s.Finds (Expr.sitesList es p) (Expr.surveyList es s)
  | [], s, _ => .refl s
  | e :: es, s, h => (e.finds s h).trans (Expr.findsList es _ (h.alike (e.alike_survey s)))

end

/-! ## Statements -/

theorem Path.body_pass (s : Stmt) (p : Path) : Path.body (s.pass p) = p.body := by
  unfold Stmt.pass
  split <;> rfl

theorem Path.body_passList (ss : List Stmt) (p : Path) : (Stmt.passList ss p).body = p.body := by
  induction ss generalizing p with
  | nil => rfl
  | cons s ss ih => exact (ih (s.pass p)).trans (Path.body_pass s p)

namespace Survey

variable {s : Survey} {p : Path}

theorem finds_params (params : List Lexeme) : ∀ {s : Survey} {p : Path}, s.Stands p →
    s.Finds (Lexeme.sites params p)
        (params.foldl (fun s param => (s.declare param).define param.text) s) ∧
      (params.foldl (fun s param => (s.declare param).define param.text) s).Stands
        (Lexeme.pass params p) := by
  induction params with
  | nil => exact fun h => ⟨.refl _, h⟩
  | cons param params ih =>
    intro s p h
    obtain ⟨finds, stands⟩ := ih (h.bind param)
    exact ⟨(Finds.bind h param).trans finds, stands⟩

/-- What is reported of a return statement, before its value is surveyed. -/
def noteReturn (s : Survey) (keyword : Lexeme) (withValue : Bool) : Survey :=
  match s.body with
  | .none => s.report .returnOutsideFunction keyword
  | .initializer => if withValue then s.report .returnFromInitializer keyword else s
  | .function | .method => s

theorem returns_eq (s : Survey) (keyword : Lexeme) (value : Option Expr) :
    s.returns keyword value =
      value.elim (s.noteReturn keyword value.isSome) (·.survey (s.noteReturn keyword true)) := by
  obtain ⟨scopes, globals, body, enclosingClass, distances, errors⟩ := s
  cases value <;> cases body <;> rfl

theorem finds_noteReturn (keyword : Lexeme) (withValue : Bool) (h : s.Stands p) :
    s.Finds [⟨p, .returns keyword withValue⟩] (s.noteReturn keyword withValue) ∧
      s.Alike (s.noteReturn keyword withValue) := by
  have known := h.body
  unfold noteReturn
  split
  · rename_i e
    rw [e] at known
    exact ⟨.report (by simp [Site.breach?, ← known]) rfl, rfl⟩
  · rename_i e
    rw [e] at known
    cases withValue
    · exact ⟨.skip (by simp [Site.breach?, ← known]) rfl, rfl⟩
    · exact ⟨.report (by simp [Site.breach?, ← known]) rfl, rfl⟩
  all_goals
    rename_i e
    rw [e] at known
    exact ⟨.skip (by simp [Site.breach?, ← known]) rfl, rfl⟩

theorem finds_returns (keyword : Lexeme) (value : Option Expr) (h : s.Stands p) :
    s.Finds (Stmt.sites (.returning keyword value) p) (s.returns keyword value) ∧
      s.Alike (s.returns keyword value) := by
  rw [returns_eq]
  cases value with
  | none => exact finds_noteReturn keyword false h
  | some value =>
    obtain ⟨finds, alike⟩ := finds_noteReturn keyword true h
    exact ⟨finds.trans (value.finds _ (h.alike alike).sees),
      alike.trans (value.alike_survey _)⟩

theorem finds_enterClass (name : Lexeme) (superclass : Option Superclass) (h : s.Stands p) :
    s.Finds (Superclass.sites name superclass p) (s.enterClass name superclass) ∧
      (s.enterClass name superclass).Stands (.methods superclass.isSome :: p) := by
  cases superclass with
  | none =>
    refine ⟨.of_eq rfl rfl, ?_⟩
    exact ⟨.cons (Scope.Holds.empty.insert "this") h.scopes, h.globals, h.body, rfl,
      Path.not_pending_methods false p⟩
  | some c =>
    unfold enterClass
    dsimp only
    generalize told : (if c.name.text = name.text then _ else _ : Survey) = s'
    have here : s.Finds [⟨p, .inherits name c.name⟩] s' ∧ s.Alike s' := by
      subst told
      split
      · exact ⟨.report (by simp [Site.breach?, *]) rfl, rfl⟩
      · exact ⟨.skip (by simp [Site.breach?, *]) rfl, rfl⟩
    obtain ⟨finds, alike⟩ := here
    have after := h.alike alike
    have referred : s'.Finds [⟨p, .reads c.id c.name⟩]
        (({ s' with enclosingClass := .derived } : Survey).refer c.id c.name) :=
      .after (.refer (after.sees.distance _) (after.sees.pending _)) rfl rfl
    refine ⟨finds.trans (.before referred rfl rfl), ?_⟩
    have kept : ({ s' with enclosingClass := .derived } : Survey).Alike _ :=
      alike_refer _ c.id c.name
    rw [kept]
    exact ⟨.cons (Scope.Holds.empty.insert "this")
        (.cons (Scope.Holds.empty.insert "super") after.scopes),
      after.globals, after.body, rfl, Path.not_pending_methods true p⟩

theorem finds_leaveClass {s' : Survey} (superclass : Option Superclass) (h : s.Stands p)
    (inside : s'.Stands (.methods superclass.isSome :: p)) :
    ({ s'.leaveClass superclass with enclosingClass := s.enclosingClass } : Survey).Stands p := by
  have known := inside.scopes
  cases superclass with
  | none =>
    obtain ⟨scope, outer, -, others, e⟩ := List.forall₂_cons_right_iff.mp known
    refine ⟨?_, inside.globals, inside.body, h.enclosingClass, h.readable⟩
    simp only [leaveClass, leave, e]
    exact others
  | some c =>
    obtain ⟨scope, outer, -, others, e⟩ := List.forall₂_cons_right_iff.mp known
    obtain ⟨scope', outer', -, others', rfl⟩ := List.forall₂_cons_right_iff.mp others
    refine ⟨?_, inside.globals, inside.body, h.enclosingClass, h.readable⟩
    simp only [leaveClass, leave, e]
    exact others'

end Survey

section
variable {T : Token → Prop}

mutual

/-- The survey of a statement finds what is at its sites, and comes to the place after it. -/
theorem Stmt.finds : ∀ (stmt : Stmt) {s : Survey} {p : Path}, stmt.WellFormed T → s.Stands p →
    s.Finds (stmt.sites p) (stmt.survey s) ∧ (stmt.survey s).Stands (stmt.pass p)
  | .block body, s, p, wf, h => by
    obtain ⟨finds, stands⟩ := Stmt.findsList body wf h.enter
    have same : (Stmt.surveyList body s.enter).body = s.body :=
      stands.body.trans ((Path.body_passList body _).trans h.body.symm)
    refine ⟨.after (.before finds rfl rfl) rfl rfl, ?_⟩
    exact (stands.leave ((Path.Within.block p).passList body) h).congr rfl rfl same rfl
  | .classDecl name superclass methods, s, p, wf, h => by
    have atClass := h.bind name
    obtain ⟨entered, inside⟩ := Survey.finds_enterClass name superclass atClass
    obtain ⟨finds, stands⟩ := FunctionDecl.findsMethods methods wf.2.2 inside
    have same : ((s.declare name).define name.text).enclosingClass = s.enclosingClass :=
      atClass.enclosingClass.trans h.enclosingClass.symm
    refine ⟨(Survey.Finds.bind h name).trans (entered.trans (.before finds ?_ ?_)), ?_⟩
    · simp only [Stmt.survey]
      cases superclass <;> rfl
    · simp only [Stmt.survey]
      cases superclass <;> rfl
    · have left := Survey.finds_leaveClass superclass atClass stands
      rw [same] at left
      exact left
  | .expression e, s, p, _, h | .print e, s, p, _, h =>
    ⟨e.finds s h.sees, h.alike (e.alike_survey s)⟩
  | .function decl, s, p, wf, h => by
    obtain ⟨finds, stands⟩ := decl.finds .function wf (h.bind decl.name)
    exact ⟨(Survey.Finds.bind h decl.name).trans finds, stands⟩
  | .ifThen condition thenBranch, s, p, wf, h => by
    have after := h.alike (condition.alike_survey s)
    obtain ⟨finds, stands⟩ := thenBranch.finds wf.2.1 after
    rw [Stmt.pass_of_none wf.2.2] at stands
    exact ⟨(condition.finds s h.sees).trans finds, stands⟩
  | .ifElse condition thenBranch elseBranch, s, p, wf, h => by
    have after := h.alike (condition.alike_survey s)
    obtain ⟨finds, stands⟩ := thenBranch.finds wf.2.1 after
    rw [Stmt.pass_of_none wf.2.2.1] at stands
    obtain ⟨finds', stands'⟩ := elseBranch.finds wf.2.2.2.1 stands
    rw [Stmt.pass_of_none wf.2.2.2.2] at stands'
    exact ⟨(condition.finds s h.sees).trans (finds.trans finds'), stands'⟩
  | .returning keyword value, s, p, _, h => by
    obtain ⟨finds, alike⟩ := Survey.finds_returns keyword value h
    exact ⟨finds, h.alike alike⟩
  | .varDecl name none, s, p, _, h => ⟨.bind h name, h.bind name⟩
  | .varDecl name (some initializer), s, p, _, h => by
    have finds := initializer.finds _ (h.initializer name)
    have alike := initializer.alike_survey (s.declare name)
    have declared := Survey.rest_declare s name
    refine ⟨(Survey.Finds.declare h name).trans (.before finds ?_ ?_), h.define ?_ ?_ ?_ ?_⟩
    · exact (Survey.distances_define _ _).1
    · exact (Survey.distances_define _ _).2
    · rw [alike]
    · rw [alike]
    · rw [alike]
      exact declared.1
    · rw [alike]
      exact declared.2
  | .while condition body, s, p, wf, h => by
    have after := h.alike (condition.alike_survey s)
    obtain ⟨finds, stands⟩ := body.finds wf.2.1 after
    rw [Stmt.pass_of_none wf.2.2] at stands
    exact ⟨(condition.finds s h.sees).trans finds, stands⟩

theorem Stmt.findsList : ∀ (stmts : List Stmt) {s : Survey} {p : Path},
    Stmt.WellFormedList T stmts → s.Stands p →
    s.Finds (Stmt.sitesList stmts p) (Stmt.surveyList stmts s) ∧
      (Stmt.surveyList stmts s).Stands (Stmt.passList stmts p)
  | [], s, _, _, h => ⟨.refl s, h⟩
  | stmt :: stmts, s, p, wf, h => by
    obtain ⟨finds, stands⟩ := stmt.finds wf.1 h
    obtain ⟨finds', stands'⟩ := Stmt.findsList stmts wf.2 stands
    exact ⟨finds.trans finds', stands'⟩

theorem FunctionDecl.finds : ∀ (decl : FunctionDecl) (kind : BodyKind) {s : Survey} {p : Path},
    decl.WellFormed T → s.Stands p →
    s.Finds (decl.sites kind p) (decl.survey kind s) ∧ (decl.survey kind s).Stands p
  | ⟨_, params, body⟩, kind, s, p, wf, h => by
    obtain ⟨finds, stands⟩ := Survey.finds_params params (h.enterBody kind)
    obtain ⟨finds', stands'⟩ := Stmt.findsList body wf.2.2 stands
    refine ⟨.before (.trans (.after finds rfl rfl) finds') rfl rfl, ?_⟩
    exact stands'.leave (((Path.Within.body kind p).pass params).passList body) h

theorem FunctionDecl.findsMethods : ∀ (methods : List FunctionDecl) {s : Survey} {p : Path},
    FunctionDecl.WellFormedList T methods → s.Stands p →
    s.Finds (FunctionDecl.sitesMethods methods p) (FunctionDecl.surveyMethods methods s) ∧
      (FunctionDecl.surveyMethods methods s).Stands p
  | [], s, _, _, h => ⟨.refl s, h⟩
  | method :: methods, s, p, wf, h => by
    obtain ⟨finds, stands⟩ := method.finds method.methodBody wf.1 h
    obtain ⟨finds', stands'⟩ := FunctionDecl.findsMethods methods wf.2 stands
    exact ⟨finds.trans finds', stands'⟩

end

end

/-! ## Programs -/

/-- The survey of a program whose nodes have numbers of their own finds the breaches at its sites,
and the distances at them. -/
theorem Stmt.distancesOf_exact {T : Token → Prop} {ss : List Stmt} (wf : Stmt.WellFormedList T ss)
    (nodup : (Stmt.idsList ss).Nodup) :
    (∀ errors, distancesOf ss = .error errors → errors.Perm (breachesOf ss)) ∧
    ((∃ distances, distancesOf ss = .ok distances) ↔ breachesOf ss = []) ∧
    ∀ distances, distancesOf ss = .ok distances → ∀ id n,
      distances[id]? = some n ↔ ∃ site ∈ Site.all ss, site.note? = some (id, n) := by
  obtain ⟨finds, -⟩ := Stmt.findsList ss wf Survey.Stands.start
  have reported : (Stmt.surveyList ss Survey.start).errors.toList.Perm (breachesOf ss) :=
    finds.errors
  rw [← Stmt.nodes_sitesList ss []] at nodup
  unfold distancesOf
  dsimp only
  split
  · rename_i none
    have none' : breachesOf ss = [] := by
      rw [Array.isEmpty_iff] at none
      rw [none] at reported
      exact List.nil_perm.mp reported
    refine ⟨nofun, ⟨fun _ => none', fun _ => ⟨_, rfl⟩⟩, ?_⟩
    rintro _ ⟨⟩ id n
    refine ⟨fun known => ?_, fun ⟨site, inside, entry⟩ => ?_⟩
    · refine (finds.only id n known).resolve_left ?_
      simp [Survey.start]
    · obtain ⟨m, known⟩ := Option.isSome_iff_exists.mp
        (finds.noted id (.inr ⟨site, inside, n, entry⟩))
      obtain old | ⟨site', inside', entry'⟩ := finds.only id m known
      · simp [Survey.start] at old
      · rw [known, Site.note?_unique nodup inside inside' entry entry']
  · rename_i some
    refine ⟨fun errors e => ?_, ⟨nofun, fun none' => ?_⟩, nofun⟩
    · cases e
      exact reported
    · rw [none', List.perm_nil, Array.toList_eq_nil_iff] at reported
      exact absurd (Array.isEmpty_iff.mpr reported) some

/-- The survey of a program that was read from a source is exact. Its errors are the breaches of
the scope rules, one for each site where a rule is broken; it succeeds if there are none; and then a
node has a distance if and only if it is a reference whose name an enclosing scope has declared. -/
theorem survey_is_exact {source : String} {ss : List Stmt}
    (read : (Program.ofTokens (tokensOf source)).statements? = .ok ss) :
    (∀ errors, distancesOf ss = .error errors → errors.Perm (breachesOf ss)) ∧
    ((∃ distances, distancesOf ss = .ok distances) ↔ breachesOf ss = []) ∧
    ∀ distances, distancesOf ss = .ok distances → ∀ id n,
      distances[id]? = some n ↔ ∃ site ∈ Site.all ss, site.note? = some (id, n) := by
  obtain ⟨noErrors, rfl⟩ := Program.statements?_eq_ok read
  obtain ⟨wf, numbered⟩ := Program.read_ofTokens (fun _ => spelt_of_mem_tokensOf) noErrors
  exact Stmt.distancesOf_exact wf numbered.nodup

theorem all_breaches_are_reported : ∃ ss errors,
    (Program.ofTokens (tokensOf
      "\x7b var a = a; var a; \x7d class C < C \x7b init() \x7b return this; \x7d \x7d return super.m;"
      )).statements? = .ok ss ∧
    distancesOf ss = .error errors ∧ errors.Perm (breachesOf ss) ∧
    (breachesOf ss).map (·.cause) = [.readInInitializer, .redeclared, .inheritsItself,
      .returnFromInitializer, .returnOutsideFunction, .superOutsideClass] := by
  let ss : List Stmt :=
    [.block [.varDecl ⟨"a", 1⟩ (some (.variable 0 ⟨"a", 1⟩)), .varDecl ⟨"a", 1⟩ none],
      .classDecl ⟨"C", 1⟩ (some ⟨1, ⟨"C", 1⟩⟩)
        [⟨⟨"init", 1⟩, [], [.returning ⟨"return", 1⟩ (some (.this 2 ⟨"this", 1⟩))]⟩],
      .returning ⟨"return", 1⟩ (some (.super 3 ⟨"super", 1⟩ ⟨"m", 1⟩))]
  have read : (Program.ofTokens (tokensOf
      "\x7b var a = a; var a; \x7d class C < C \x7b init() \x7b return this; \x7d \x7d return super.m;"
      )).statements? = .ok ss := by
    cbv
  have causes : (breachesOf ss).map (·.cause) = [.readInInitializer, .redeclared,
      .inheritsItself, .returnFromInitializer, .returnOutsideFunction, .superOutsideClass] := by
    cbv
  obtain ⟨reported, accepted, -⟩ := survey_is_exact read
  cases found : distancesOf ss with
  | error errors => exact ⟨ss, errors, read, found, reported errors found, causes⟩
  | ok distances =>
    rw [accepted.mp ⟨distances, found⟩] at causes
    cases causes

end Lox
