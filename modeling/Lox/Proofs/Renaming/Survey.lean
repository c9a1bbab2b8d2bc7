import Lox.Proofs.Renaming.Rename

/-!
# Renaming and the survey

A survey of a renamed program goes along with that of the program itself: its scopes hold the same
names, but renamed where they are marked (`Survey.Renamed`). A reference that is renamed together
with the scope in which it was found is found there again, as many scopes out, for no other scope
holds the new name (`findIdx?_renamed`). So the renamed program is accepted with the same distances
(`Stmt.distancesOf_renamed`).
-/

namespace Lox

section
variable (R : Renaming)

/-- The second scope holds the names of the first, renamed if `here`. -/
structure Scope.Renamed (here : Bool) (scope scope' : Scope) : Prop where
  names : ∀ name, scope'[R.swap here name]? = scope[name]?
  fresh : scope[R.new]? = none

/-- The same of each of the scopes, according to its mark. -/
inductive Scope.RenamedList : List Bool → List Scope → List Scope → Prop
  | nil : Scope.RenamedList [] [] []
  | cons {here : Bool} {marks : List Bool} {scope scope' : Scope} {scopes scopes' : List Scope}
    (innermost : scope.Renamed R here scope') (outer : Scope.RenamedList marks scopes scopes') :
    Scope.RenamedList (here :: marks) (scope :: scopes) (scope' :: scopes')

/-- The second survey knows the same as the first, but with the names of the marked scopes renamed,
and has found no error if the first has not. -/
structure Survey.Renamed (marks : List Bool) (s s' : Survey) : Prop where
  scopes : Scope.RenamedList R marks s.scopes s'.scopes
  globals : s'.globals = s.globals
  body : s'.body = s.body
  enclosingClass : s'.enclosingClass = s.enclosingClass
  distances : s'.distances = s.distances
  accepted : s.errors = #[] → s'.errors = #[]

end

section
variable {R : Renaming} {here : Bool} {marks : List Bool}

/-! ## Scopes -/

namespace Scope

variable {scope scope' : Scope} {scopes scopes' : List Scope} {name : String}

theorem renamed_empty (here : Bool) : Scope.Renamed R here ∅ ∅ :=
  ⟨fun name => by rw [Std.TreeMap.getElem?_emptyc, Std.TreeMap.getElem?_emptyc],
    Std.TreeMap.getElem?_emptyc⟩

theorem Renamed.insert (h : scope.Renamed R here scope') (fresh : name ≠ R.new)
    (status : Status) :
    Scope.Renamed R here (scope.insert name status)
      (scope'.insert (R.swap here name) status) := by
  refine ⟨fun other => ?_, ?_⟩
  · rw [getElem?_insert, getElem?_insert, h.names]
    simp only [(R.swap here).injective.eq_iff]
  · rw [getElem?_insert, if_neg fresh, h.fresh]

theorem Renamed.getElem?_swap (h : scope.Renamed R here scope') (name : String) :
    scope'[name]? = scope[R.swap here name]? := by
  rw [← h.names, R.swap_swap]

theorem Renamed.contains (h : scope.Renamed R here scope') (name : String) :
    scope'.contains (R.swap here name) = scope.contains name := by
  rw [Std.TreeMap.contains_eq_isSome_getElem?, Std.TreeMap.contains_eq_isSome_getElem?, h.names]

/-- A name that is renamed as in another scope is in this one only if it was. -/
theorem Renamed.getElem?_cases (h : scope.Renamed R here scope') (fresh : name ≠ R.new)
    (there : Bool) :
    scope'[R.swap there name]? = scope[name]? ∨ scope'[R.swap there name]? = none := by
  rw [h.getElem?_swap]
  rcases R.swap_swap_cases here there fresh with e | e
  · rw [e]
    exact .inl rfl
  · rw [e]
    exact .inr h.fresh

/-- A name that is renamed as in the scope that holds it is found there. -/
theorem findIdx?_renamed (h : Scope.RenamedList R marks scopes scopes') (fresh : name ≠ R.new) :
    scopes'.findIdx? (·.contains
        (R.swap (Renaming.markAt marks (scopes.findIdx? (·.contains name))) name)) =
      scopes.findIdx? (·.contains name) := by
  induction h with
  | nil => rfl
  | @cons here marks scope scope' scopes scopes' innermost outer ih =>
    rw [List.findIdx?_cons, List.findIdx?_cons]
    cases held : scope.contains name with
    | true =>
      rw [if_pos rfl, if_pos]
      exact (innermost.contains name).trans held
    | false =>
      rw [if_neg Bool.false_ne_true]
      have mark : Renaming.markAt (here :: marks)
          (Option.map (· + 1) (scopes.findIdx? (·.contains name))) =
          Renaming.markAt marks (scopes.findIdx? (·.contains name)) := by
        cases scopes.findIdx? (·.contains name) <;> rfl
      rw [mark, ih, if_neg]
      rw [Std.TreeMap.contains_eq_isSome_getElem?] at held ⊢
      rcases innermost.getElem?_cases fresh _ with e | e
      · rw [e, held]
        exact Bool.false_ne_true
      · rw [e]
        exact Bool.false_ne_true

end Scope

/-! ## Steps of a survey -/

namespace Survey.Renamed

variable {s s' : Survey}

/-- Breaches may be noted in the first survey alone, or in both. -/
theorem report (h : s.Renamed R marks s') (cause cause' : ScopeCause) (blamed blamed' : Lexeme) :
    (s.report cause blamed).Renamed R marks (s'.report cause' blamed') :=
  ⟨h.scopes, h.globals, h.body, h.enclosingClass, h.distances,
    fun e => absurd e (by simp [Survey.report])⟩

theorem reportIf (h : s.Renamed R marks s') {p p' : Prop} [Decidable p] [Decidable p']
    (sub : p' → p) (cause : ScopeCause) (blamed blamed' : Lexeme) :
    (if p then s.report cause blamed else s).Renamed R marks
      (if p' then s'.report cause blamed' else s') := by
  by_cases holds : p
  · rw [if_pos holds]
    refine ⟨?_, ?_, ?_, ?_, ?_, fun e => absurd e (by simp [Survey.report])⟩ <;>
      split <;>
      first
        | exact h.scopes
        | exact h.globals
        | exact h.body
        | exact h.enclosingClass
        | exact h.distances
  · rw [if_neg holds, if_neg fun holds' => holds (sub holds')]
    exact h

theorem enter (h : s.Renamed R marks s') (here : Bool) :
    s.enter.Renamed R (here :: marks) s'.enter :=
  ⟨.cons (Scope.renamed_empty here) h.scopes, h.globals, h.body, h.enclosingClass, h.distances,
    h.accepted⟩

theorem leave (h : s.Renamed R (here :: marks) s') : s.leave.Renamed R marks s'.leave := by
  refine ⟨?_, h.globals, h.body, h.enclosingClass, h.distances, h.accepted⟩
  obtain ⟨scopes, globals, body, enclosingClass, distances, errors⟩ := s
  obtain ⟨scopes', globals', body', enclosingClass', distances', errors'⟩ := s'
  cases h.scopes with
  | cons _ outer => exact outer

theorem inBody (h : s.Renamed R marks s') (kind : BodyKind) :
    ({ s with body := kind } : Survey).Renamed R marks { s' with body := kind } :=
  ⟨h.scopes, h.globals, rfl, h.enclosingClass, h.distances, h.accepted⟩

theorem inClass (h : s.Renamed R marks s') (kind : ClassKind) :
    ({ s with enclosingClass := kind } : Survey).Renamed R marks
      { s' with enclosingClass := kind } :=
  ⟨h.scopes, h.globals, h.body, rfl, h.distances, h.accepted⟩

theorem declare (h : s.Renamed R marks s') {name : Lexeme} (fresh : name.text ≠ R.new) :
    (s.declare name).Renamed R marks (s'.declare (R.lexeme (marks.headD false) name)) := by
  obtain ⟨scopes, globals, body, enclosingClass, distances, errors⟩ := s
  obtain ⟨scopes', globals', body', enclosingClass', distances', errors'⟩ := s'
  obtain ⟨hs, rfl, rfl, rfl, rfl, accepted⟩ := h
  cases hs with
  | nil =>
    refine ⟨.nil, ?_, rfl, rfl, rfl, accepted⟩
    rw [List.headD_nil, R.lexeme_false]
    rfl
  | cons innermost outer =>
    simp only [Survey.declare, List.headD_cons, R.text_lexeme _ fresh]
    rw [innermost.contains]
    have inserted : Survey.Renamed R _
        ⟨_ :: _, globals', body', enclosingClass', distances', errors⟩
        ⟨_ :: _, globals', body', enclosingClass', distances', errors'⟩ :=
      ⟨.cons (innermost.insert fresh .declared) outer, rfl, rfl, rfl, rfl, accepted⟩
    exact inserted.reportIf id _ _ _

theorem define (h : s.Renamed R marks s') {name : String} (fresh : name ≠ R.new) :
    (s.define name).Renamed R marks (s'.define (R.swap (marks.headD false) name)) := by
  obtain ⟨scopes, globals, body, enclosingClass, distances, errors⟩ := s
  obtain ⟨scopes', globals', body', enclosingClass', distances', errors'⟩ := s'
  obtain ⟨hs, rfl, rfl, rfl, rfl, accepted⟩ := h
  cases hs with
  | nil => exact ⟨.nil, rfl, rfl, rfl, rfl, accepted⟩
  | cons innermost outer =>
    exact ⟨.cons (innermost.insert fresh _) outer, rfl, rfl, rfl, rfl, accepted⟩

theorem bind (h : s.Renamed R marks s') {name : Lexeme} (fresh : name.text ≠ R.new) :
    ((s.declare name).define name.text).Renamed R marks
      ((s'.declare (R.lexeme (marks.headD false) name)).define
        (R.lexeme (marks.headD false) name).text) := by
  rw [R.text_lexeme _ fresh]
  exact (h.declare fresh).define fresh

/-- A name that is kept in the innermost scope. -/
theorem bindKept (h : s.Renamed R marks s') {name : Lexeme}
    (keeps : R.Keeps (marks.headD false) name.text) :
    ((s.declare name).define name.text).Renamed R marks
      ((s'.declare name).define name.text) := by
  have bound := h.bind keeps.new
  rwa [R.lexeme_of_keeps keeps] at bound

theorem bindAll (h : s.Renamed R (here :: marks) s') {names : List Lexeme}
    (fresh : ∀ name ∈ names, name.text ≠ R.new) :
    (names.foldl (fun s name => (s.declare name).define name.text) s).Renamed R (here :: marks)
      ((names.map (R.lexeme here)).foldl (fun s name => (s.declare name).define name.text) s') := by
  induction names generalizing s s' with
  | nil => exact h
  | cons name names ih =>
    exact ih (h.bind (fresh name List.mem_cons_self))
      fun other inside => fresh other (List.mem_cons_of_mem _ inside)

theorem enterWith (h : s.Renamed R marks s') (k : Keyword) :
    (s.enterWith k.text).Renamed R (false :: marks) (s'.enterWith k.text) :=
  (h.enter false).define (R.new_isName k).symm

/-- A reference that is renamed with the scope in which it is found. -/
theorem locate (h : s.Renamed R marks s') (id : ExprId) {name : Lexeme}
    (fresh : name.text ≠ R.new) (found : R.distances[id]? = s.context.distance? name.text) :
    (s.locate id name).Renamed R marks (s'.locate id (R.lexeme (R.reaches marks id) name)) := by
  have same := Scope.findIdx?_renamed h.scopes fresh
  unfold Survey.locate
  rw [R.text_lexeme _ fresh, Renaming.reaches, found]
  simp only [Context.distance?, Survey.context]
  rw [same]
  split
  · exact ⟨h.scopes, h.globals, h.body, h.enclosingClass, by rw [h.distances], h.accepted⟩
  · exact h

theorem locateKeyword (h : s.Renamed R marks s') {id : ExprId} {keyword : Lexeme} {k : Keyword}
    (from' : keyword.From R.Fresh (.keyword k))
    (found : R.distances[id]? = s.context.distance? k.text) :
    (s.locate id keyword).Renamed R marks (s'.locate id keyword) := by
  have located := h.locate id from'.ne_of_keyword.2
    (by rw [from'.text_eq fun _ => And.left]; exact found)
  rwa [R.lexeme_of_ne _ from'.ne_of_keyword.1] at located

theorem refer (h : s.Renamed R marks s') (id : ExprId) {name : Lexeme} (fresh : name.text ≠ R.new)
    (found : R.distances[id]? = s.context.distance? name.text) :
    (s.refer id name).Renamed R marks (s'.refer id (R.lexeme (R.reaches marks id) name)) := by
  have readable : s'.status? (R.lexeme (R.reaches marks id) name).text = some .declared →
      s.status? name.text = some .declared := by
    intro declared
    rw [R.text_lexeme _ fresh, Renaming.reaches, found] at declared
    obtain ⟨scopes, globals, body, enclosingClass, distances, errors⟩ := s
    obtain ⟨scopes', globals', body', enclosingClass', distances', errors'⟩ := s'
    obtain ⟨hs, rfl, rfl, rfl, rfl, accepted⟩ := h
    cases hs with
    | nil => exact declared
    | cons innermost outer =>
      simp only [Survey.status?, List.headD_cons] at declared ⊢
      rcases innermost.getElem?_cases fresh _ with e | e
      · exact e.symm.trans declared
      · rw [e] at declared
        cases declared
  have context : (if s.status? name.text = some .declared then
      s.report .readInInitializer name else s).context = s.context := by
    split <;> rfl
  exact (h.reportIf readable _ _ _).locate id fresh (by rw [context]; exact found)

theorem enterClass (h : s.Renamed R marks s') {name : Lexeme} {superclass : Option Superclass}
    (kept : name.text ≠ R.new) (fresh : ∀ c ∈ superclass, c.name.text ≠ R.new)
    (found : ∀ c ∈ superclass, R.distances[c.id]? = s.context.distance? c.name.text) :
    (s.enterClass name superclass).Renamed R (false :: marksAroundThis superclass marks)
      (s'.enterClass name (superclass.map (Superclass.rename R (R.reaches marks)))) := by
  cases superclass with
  | none => exact (h.inClass .root).enterWith .this
  | some c =>
    have fresh := fresh c rfl
    have sub : (R.lexeme (R.reaches marks c.id) c.name).text = name.text →
        c.name.text = name.text := by
      intro e
      unfold Renaming.lexeme at e
      split at e
      · exact absurd e kept.symm
      · exact e
    have checked := h.reportIf sub .inheritsItself c.name
      (R.lexeme (R.reaches marks c.id) c.name)
    have context : (if c.name.text = name.text then
        s.report .inheritsItself c.name else s).context.scopes = s.context.scopes := by
      split <;> rfl
    have referred := (checked.inClass .derived).refer c.id fresh
      ((found c rfl).trans (by simp only [Context.distance?]; rw [← context]; rfl))
    exact (referred.enterWith .super).enterWith .this

theorem leaveClass {superclass superclass' : Option Superclass}
    (h : s.Renamed R (false :: marksAroundThis superclass marks) s')
    (same : superclass'.isSome = superclass.isSome) :
    (s.leaveClass superclass).Renamed R marks (s'.leaveClass superclass') := by
  cases superclass <;> cases superclass'
  · exact h.leave
  · cases same
  · cases same
  · exact h.leave.leave

end Survey.Renamed

/-! ## Trees -/

mutual

theorem Expr.survey_renamed : ∀ (e : Expr) {s s' : Survey}, e.WellFormed R.Fresh →
    e.Located R.distances s.context → s.Renamed R marks s' →
    (e.survey s).Renamed R marks ((e.rename R (R.reaches marks)).survey s')
  | .assign id name value, s, s', wf, located, h => by
    have w := value.walked s
    refine (value.survey_renamed wf.2 located.1 h).locate id wf.1.ne_new ?_
    rw [w.context]
    exact located.2.2
  | .binary _ _ left right, s, s', wf, located, h
  | .logical _ _ left right, s, s', wf, located, h => by
    have w := left.walked s
    exact right.survey_renamed wf.2 (w.context ▸ located.2) (left.survey_renamed wf.1 located.1 h)
  | .call callee _ arguments, s, s', wf, located, h => by
    have w := callee.walked s
    exact Expr.surveyList_renamed arguments wf.2 (w.context ▸ located.2)
      (callee.survey_renamed wf.1 located.1 h)
  | .get object _, _, _, wf, located, h => object.survey_renamed wf.1 located h
  | .grouping inner, _, _, wf, located, h => inner.survey_renamed wf located h
  | .literal _, _, _, _, _, h => h
  | .set object _ value, s, s', wf, located, h => by
    have w := value.walked s
    exact object.survey_renamed wf.1 (w.context ▸ located.2)
      (value.survey_renamed wf.2.2 located.1 h)
  | .super id keyword _, s, s', wf, located, h => by
    simp only [Expr.rename, Expr.survey, h.enclosingClass]
    split
    · exact h.report _ _ _ _
    · exact h.report _ _ _ _
    · exact h.locateKeyword wf.1 located.2
  | .this id keyword, s, s', wf, located, h => by
    simp only [Expr.rename, Expr.survey, h.enclosingClass]
    split
    · exact h.report _ _ _ _
    · exact h.locateKeyword wf located.2.2
    · exact h.locateKeyword wf located.2.2
  | .unary _ _ right, _, _, wf, located, h => right.survey_renamed wf located h
  | .variable id name, _, _, wf, located, h => h.refer id wf.ne_new located.2

theorem Expr.surveyList_renamed : ∀ (es : List Expr) {s s' : Survey},
    Expr.WellFormedList R.Fresh es → Expr.LocatedList R.distances s.context es →
    s.Renamed R marks s' →
    (Expr.surveyList es s).Renamed R marks
      (Expr.surveyList (Expr.renameList R (R.reaches marks) es) s')
  | [], _, _, _, _, h => h
  | e :: es, s, _, wf, located, h => by
    have w := e.walked s
    exact Expr.surveyList_renamed es wf.2 (w.context ▸ located.2)
      (e.survey_renamed wf.1 located.1 h)

end

mutual

theorem Stmt.survey_renamed : ∀ (stmt : Stmt) {stmt' : Stmt} {marks : List Bool} {s s' : Survey},
    stmt.WellFormed R.Fresh → stmt.Located R.distances s.context → stmt.Renamed R marks stmt' →
    s.Renamed R marks s' → (stmt.survey s).Renamed R marks (stmt'.survey s')
  | .block body, _, _, s, _, wf, located, renamed, h => by
    cases renamed with
    | block here renamed =>
      have inside := h.enter here
      have walked := Stmt.surveyList_renamed body (s := s.enter) wf located.1 renamed inside
      exact walked.leave
  | .classDecl name superclass methods, _, _, s, s', wf, located, renamed, h => by
    cases renamed with
    | classDecl keeps fresh renamed =>
      have bound := Survey.walked_bind s name
      have opened := Survey.walked_enterClass ((s.declare name).define name.text) name superclass
      have inside := (h.bindKept keeps).enterClass keeps.new fresh fun c hc => by
        rw [bound.context]
        exact (located.2.1 c hc).2
      have walked := FunctionDecl.surveyMethods_renamed methods wf.2.2
        (by rw [opened.context, bound.context]; exact located.2.2) renamed inside
      rw [Stmt.survey, Stmt.survey, h.enclosingClass]
      exact (walked.leaveClass (by cases superclass <;> rfl)).inClass _
  | .expression e, _, _, _, _, wf, located, renamed, h => by
    cases renamed with
    | expression _ => exact e.survey_renamed wf located h
  | .function decl, _, _, s, _, wf, located, renamed, h => by
    cases renamed with
    | function keeps renamed =>
      have bound := Survey.walked_bind s decl.name
      have walked := decl.survey_renamed wf (by rw [bound.context]; exact located.2) renamed
        (h.bindKept keeps)
      rw [Stmt.survey, Stmt.survey, renamed.name_eq]
      exact walked
  | .ifThen condition thenBranch, _, _, s, _, wf, located, renamed, h => by
    cases renamed with
    | ifThen _ renamed =>
      have w := condition.walked s
      have walked := condition.survey_renamed wf.1 located.1 h
      rw [Stmt.survey, Stmt.survey]
      exact thenBranch.survey_renamed wf.2.1 (w.context ▸ located.2) renamed walked
  | .ifElse condition thenBranch elseBranch, _, _, s, _, wf, located, renamed, h => by
    cases renamed with
    | ifElse _ renamed renamed' =>
      have w := condition.walked s
      have w' := (thenBranch.walked (condition.survey s) wf.2.1).cast
        ((Stmt.after_of_declared?_none wf.2.2.1 _).trans w.context)
      have walked := thenBranch.survey_renamed wf.2.1 (w.context ▸ located.2.1) renamed
        (condition.survey_renamed wf.1 located.1 h)
      rw [Stmt.survey, Stmt.survey]
      exact elseBranch.survey_renamed wf.2.2.2.1 (w'.context ▸ located.2.2) renamed' walked
  | .print e, _, _, _, _, wf, located, renamed, h => by
    cases renamed with
    | print _ => exact e.survey_renamed wf located h
  | .returning keyword value, _, _, s, _, wf, located, renamed, h => by
    cases renamed with
    | returning _ =>
      have checked := h.reportIf (id : s.body = .none → s.body = .none) .returnOutsideFunction
        keyword keyword
      simp only [Stmt.survey, Survey.returns, h.body]
      cases value with
      | none => exact checked
      | some value =>
        have checked' := s.walked_returnChecks keyword
        refine value.survey_renamed wf (by rw [checked'.context]; exact located.2.2) ?_
        exact checked.reportIf id _ _ _
  | .varDecl name initializer, _, _, s, _, wf, located, renamed, h => by
    cases renamed with
    | varDecl fresh _ =>
      cases initializer with
      | none => exact h.bind fresh
      | some initializer =>
        have declared := Survey.walked_declare s name
        have walked := initializer.survey_renamed wf.2 (by rw [declared.context]; exact located.2)
          (h.declare fresh)
        have defined := walked.define fresh
        rw [← R.text_lexeme _ fresh] at defined
        exact defined
  | .while condition body, _, _, s, _, wf, located, renamed, h => by
    cases renamed with
    | «while» _ renamed =>
      have w := condition.walked s
      have walked := condition.survey_renamed wf.1 located.1 h
      rw [Stmt.survey, Stmt.survey]
      exact body.survey_renamed wf.2.1 (w.context ▸ located.2) renamed walked

theorem Stmt.surveyList_renamed : ∀ (stmts : List Stmt) {stmts' : List Stmt} {marks : List Bool}
    {s s' : Survey}, Stmt.WellFormedList R.Fresh stmts →
    Stmt.LocatedList R.distances stmts s.context → Stmt.RenamedList R marks stmts stmts' →
    s.Renamed R marks s' →
    (Stmt.surveyList stmts s).Renamed R marks (Stmt.surveyList stmts' s')
  | [], _, _, _, _, _, _, renamed, h => by
    cases renamed
    exact h
  | stmt :: stmts, _, _, s, _, wf, located, renamed, h => by
    cases renamed with
    | cons first later =>
      have w := stmt.walked s wf.1
      have walked := stmt.survey_renamed wf.1 located.1 first h
      rw [Stmt.surveyList, Stmt.surveyList]
      exact Stmt.surveyList_renamed stmts wf.2 (w.context ▸ located.2) later walked

theorem FunctionDecl.survey_renamed : ∀ (decl : FunctionDecl) {decl' : FunctionDecl}
    {marks : List Bool} {kind : BodyKind} {s s' : Survey}, decl.WellFormed R.Fresh →
    decl.Located R.distances kind s.context → decl.Renamed R marks decl' →
    s.Renamed R marks s' → (decl.survey kind s).Renamed R marks (decl'.survey kind s')
  | ⟨name, params, body⟩, _, _, kind, s, s', wf, located, renamed, h => by
    cases renamed with
    | mk here fresh renamed =>
      have opened := Survey.walked_enterBody s kind params
      have inside := ((h.inBody kind).enter here).bindAll fresh
      have walked := Stmt.surveyList_renamed body wf.2.2
        (by rw [opened.context]; exact located.2.1) renamed inside
      rw [FunctionDecl.survey, FunctionDecl.survey, h.body]
      exact walked.leave.inBody s.body

theorem FunctionDecl.surveyMethods_renamed : ∀ (methods : List FunctionDecl)
    {methods' : List FunctionDecl} {marks : List Bool} {s s' : Survey},
    FunctionDecl.WellFormedList R.Fresh methods →
    FunctionDecl.LocatedMethods R.distances methods s.context →
    FunctionDecl.RenamedList R marks methods methods' → s.Renamed R marks s' →
    (FunctionDecl.surveyMethods methods s).Renamed R marks
      (FunctionDecl.surveyMethods methods' s')
  | [], _, _, _, _, _, _, renamed, h => by
    cases renamed
    exact h
  | method :: methods, _, _, s, _, wf, located, renamed, h => by
    cases renamed with
    | cons first later =>
      have w := method.walked method.methodBody s wf.1
      have walked := method.survey_renamed wf.1 located.1 first h
      rw [FunctionDecl.surveyMethods, FunctionDecl.surveyMethods, first.methodBody_eq]
      exact FunctionDecl.surveyMethods_renamed methods wf.2 (w.context ▸ located.2) later walked

end

/-- The renamed program is accepted, with the same distances. -/
theorem Stmt.distancesOf_renamed {stmts stmts' : List Stmt} (wf : Stmt.WellFormedList R.Fresh stmts)
    (located : Stmt.LocatedList R.distances stmts Context.top)
    (accepted : distancesOf stmts = .ok R.distances)
    (renamed : Stmt.RenamedList R [] stmts stmts') :
    distancesOf stmts' = .ok R.distances := by
  have start : Survey.start.Renamed R [] Survey.start := ⟨.nil, rfl, rfl, rfl, rfl, id⟩
  have walked := Stmt.surveyList_renamed stmts (s := Survey.start) wf located renamed start
  unfold distancesOf at accepted ⊢
  dsimp only at accepted ⊢
  split at accepted
  · rename_i noErrors
    rw [if_pos, walked.distances]
    · exact accepted
    · rw [walked.accepted (Array.isEmpty_iff.mp noErrors)]
      rfl
  · cases accepted

end

end Lox
