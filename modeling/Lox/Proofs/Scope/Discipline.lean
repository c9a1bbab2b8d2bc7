import Lox.Proofs.Scope.Settled
import Lox.Proofs.Scope.Visits

/-!
# The discipline of the scopes

A part of a program may touch what a survey knows only in a few ways (`Survey.Touches`): the scopes
around the innermost one, the body and the class are those from before, the innermost scope has a
new status for the names that the part declares there, and distances and errors are only added. A
statement also leaves every name defined that it declares (`Survey.Returns`, `Stmt.returns`).

While a program is surveyed, one name at most is declared and not yet defined, and it lies in the
innermost scope (`Survey.Awaits`). Each visit finds what its errand needs of this (`Visit.Tidy`),
and hands it on to the visits that it calls (`Visit.Calls.tidy`).
-/

namespace Lox

/-- The names that a statement declares in the scope around it. -/
def Stmt.declares : Stmt → List String
  | .classDecl name _ _ => [name.text]
  | .function decl => [decl.name.text]
  | .varDecl name _ => [name.text]
  | .ifThen _ thenBranch => thenBranch.declares
  | .ifElse _ thenBranch elseBranch => thenBranch.declares ++ elseBranch.declares
  | .while _ body => body.declares
  | .block _ | .expression _ | .print _ | .returning _ _ => []

/-- The names that statements declare in the scope around them. -/
def Stmt.declaresList (stmts : List Stmt) : List String :=
  stmts.flatMap Stmt.declares

namespace Survey

/-! ## What a survey adds -/

/-- From `s` to `s'` distances were noted for the nodes `ids` only, no node lost its distance, and
errors were added behind those that were there. -/
structure Adds (s : Survey) (ids : List ExprId) (s' : Survey) : Prop where
  others : ∀ id, id ∉ ids → s'.distances[id]? = s.distances[id]?
  noted : ∀ id, id ∈ s.distances → id ∈ s'.distances
  errors : s.errors.toList <+: s'.errors.toList

namespace Adds

variable {s s₁ s' : Survey} {ids ids' : List ExprId}

theorem of_eq (distances : s'.distances = s.distances) (errors : s'.errors = s.errors) :
    s.Adds [] s' :=
  ⟨fun _ _ => by rw [distances], fun _ known => distances ▸ known, errors ▸ List.prefix_refl _⟩

theorem of_same (same : s' = s) : s.Adds [] s' :=
  of_eq (congrArg _ same) (congrArg _ same)

theorem refl (s : Survey) : s.Adds [] s :=
  of_same rfl

theorem trans (h : s.Adds ids s₁) (h' : s₁.Adds ids' s') : s.Adds (ids ++ ids') s' := by
  refine ⟨fun id hid => ?_, fun id known => h'.noted id (h.noted id known),
    h.errors.trans h'.errors⟩
  rw [List.mem_append, not_or] at hid
  rw [h'.others id hid.2, h.others id hid.1]

theorem mono (h : s.Adds ids s') (sub : ∀ id ∈ ids, id ∈ ids') : s.Adds ids' s' :=
  ⟨fun id hid => h.others id fun inside => hid (sub id inside), h.noted, h.errors⟩

/-- After a step that notes and reports nothing. -/
theorem before (h : s.Adds ids s₁) (distances : s'.distances = s₁.distances)
    (errors : s'.errors = s₁.errors) : s.Adds ids s' := by
  have := h.trans (of_eq distances errors)
  rwa [List.append_nil] at this

end Adds

theorem adds_report (s : Survey) (cause : ScopeCause) (blamed : Lexeme) :
    s.Adds [] (s.report cause blamed) :=
  ⟨fun _ _ => rfl, fun _ known => known, by simp [report]⟩

theorem adds_locate (s : Survey) (id : ExprId) (name : Lexeme) :
    s.Adds [id] (s.locate id name) := by
  unfold locate
  split
  · refine ⟨fun other hid => ?_, fun other known => ?_, List.prefix_refl _⟩
    · rw [List.mem_singleton] at hid
      simp only [Std.TreeMap.getElem?_insert, Std.LawfulEqCmp.compare_eq_iff_eq, Ne.symm hid,
        if_false]
    · exact Std.TreeMap.mem_insert.mpr (.inr known)
  · exact (Adds.refl s).mono fun _ inside => absurd inside List.not_mem_nil

theorem adds_declare (s : Survey) (name : Lexeme) : s.Adds [] (s.declare name) := by
  unfold declare
  split
  · exact .of_eq rfl rfl
  · dsimp only
    split
    · exact ⟨fun _ _ => rfl, fun _ known => known, by simp [report]⟩
    · exact .of_eq rfl rfl

theorem adds_define (s : Survey) (name : String) : s.Adds [] (s.define name) :=
  .of_eq (distances_define s name).2 (distances_define s name).1

/-! ## What a survey touches -/

/-- The tables of names, innermost first: the scopes, and the globals around them. -/
def tables (s : Survey) : List Scope :=
  s.scopes ++ [s.globals]

/-- From `s` to `s'` the scopes are as they were but for the innermost one, where only names among
`names` have another status; so have only names among `names` of the globals, if there is no scope.
The body and the class are as they were. Distances were noted for the nodes `ids` only. -/
structure Touches (s : Survey) (names : List String) (ids : List ExprId) (s' : Survey) : Prop
    extends s.Adds ids s' where
  height : s'.scopes.length = s.scopes.length
  outer : s'.scopes.tail = s.scopes.tail
  globals : s.scopes ≠ [] → s'.globals = s.globals
  status : ∀ name, name ∉ names → s'.status? name = s.status? name
  body : s'.body = s.body
  enclosingClass : s'.enclosingClass = s.enclosingClass

namespace Touches

variable {s s₁ s' : Survey} {names names' : List String} {ids ids' : List ExprId}

/-- Where neither scopes nor globals have changed. -/
theorem of_eq (adds : s.Adds ids s') (scopes : s'.scopes = s.scopes)
    (globals : s'.globals = s.globals) (body : s'.body = s.body)
    (enclosingClass : s'.enclosingClass = s.enclosingClass) : s.Touches [] ids s' := by
  refine ⟨adds, by rw [scopes], by rw [scopes], fun _ => globals, fun name _ => ?_, body,
    enclosingClass⟩
  rw [status?, status?, scopes, globals]

theorem refl (s : Survey) : s.Touches [] [] s :=
  of_eq (.refl s) rfl rfl rfl rfl

theorem trans (h : s.Touches names ids s₁) (h' : s₁.Touches names' ids' s') :
    s.Touches (names ++ names') (ids ++ ids') s' := by
  refine ⟨h.toAdds.trans h'.toAdds, h'.height.trans h.height, h'.outer.trans h.outer,
    fun local_ => ?_, fun name hname => ?_, h'.body.trans h.body,
    h'.enclosingClass.trans h.enclosingClass⟩
  · have local' : s₁.scopes ≠ [] := by
      rw [← List.length_pos_iff, h.height]
      exact List.length_pos_iff.mpr local_
    rw [h'.globals local', h.globals local_]
  · rw [List.mem_append, not_or] at hname
    rw [h'.status name hname.2, h.status name hname.1]

theorem mono (h : s.Touches names ids s') (sub : ∀ name ∈ names, name ∈ names')
    (sub' : ∀ id ∈ ids, id ∈ ids') : s.Touches names' ids' s' :=
  { h with
    toAdds := h.toAdds.mono sub'
    status := fun name hname => h.status name fun inside => hname (sub name inside) }

/-- All tables of names but the innermost one are as they were. -/
theorem tables (h : s.Touches names ids s') : s'.tables.tail = s.tables.tail := by
  have height := h.height
  unfold Survey.tables
  cases e : s.scopes with
  | nil =>
    rw [e] at height
    rw [List.eq_nil_of_length_eq_zero height]
    rfl
  | cons scope outer =>
    rw [e, List.length_cons] at height
    obtain ⟨scope', outer', e'⟩ := List.exists_cons_of_length_eq_add_one height
    have around := h.outer
    rw [e, e'] at around
    have same : outer' = outer := around
    rw [e', same, h.globals (e ▸ List.cons_ne_nil _ _)]
    rfl

end Touches

theorem touches_report (s : Survey) (cause : ScopeCause) (blamed : Lexeme) :
    s.Touches [] [] (s.report cause blamed) :=
  .of_eq (adds_report s cause blamed) rfl rfl rfl rfl

theorem touches_locate (s : Survey) (id : ExprId) (name : Lexeme) :
    s.Touches [] [id] (s.locate id name) := by
  have alike : s.Alike _ := alike_locate s id name
  refine .of_eq (adds_locate s id name) ?_ ?_ ?_ ?_ <;> rw [alike]

theorem touches_checkRead (s : Survey) (name : Lexeme) : s.Touches [] [] (s.checkRead name) := by
  unfold checkRead
  split
  · exact touches_report s _ _
  · exact .refl s

theorem touches_refer (s : Survey) (id : ExprId) (name : Lexeme) :
    s.Touches [] [id] (s.refer id name) :=
  (touches_checkRead s name).trans (touches_locate _ id name)

/-- A step that changes the innermost table only, and there the status of one name only. -/
theorem touches_mark {s s' : Survey} {name : String} (adds : s.Adds [] s')
    (height : s'.scopes.length = s.scopes.length) (outer : s'.scopes.tail = s.scopes.tail)
    (globals : s.scopes ≠ [] → s'.globals = s.globals)
    (status : ∀ other, name ≠ other → s'.status? other = s.status? other)
    (rest : s'.body = s.body ∧ s'.enclosingClass = s.enclosingClass) :
    s.Touches [name] [] s' :=
  ⟨adds, height, outer, globals,
    fun other apart => status other fun same => apart (List.mem_singleton.mpr same.symm), rest.1,
    rest.2⟩

theorem touches_declare (s : Survey) (name : Lexeme) :
    s.Touches [name.text] [] (s.declare name) := by
  have adds := s.adds_declare name
  have rest := s.rest_declare name
  obtain ⟨scopes, globals, body, enclosingClass, distances, errors⟩ := s
  cases scopes with
  | nil =>
    refine touches_mark adds rfl rfl (absurd rfl) (fun other apart => ?_) rest
    simp only [status?, declare, List.headD_nil, Std.TreeMap.getElem?_insertIfNew,
      Std.LawfulEqCmp.compare_eq_iff_eq, apart, false_and, if_false]
  | cons scope outer =>
    have scopes : (declare ⟨scope :: outer, globals, body, enclosingClass, distances, errors⟩
        name).scopes = scope.insert name.text .declared :: outer := by
      unfold declare
      dsimp only
      split <;> rfl
    refine touches_mark adds (by rw [scopes]; rfl) (by rw [scopes]; rfl) (fun _ => ?_)
      (fun other apart => ?_) rest
    · unfold declare
      dsimp only
      split <;> rfl
    · simp only [status?, scopes, List.headD_cons, Scope.getElem?_insert, if_neg apart]

theorem touches_define (s : Survey) (name : String) : s.Touches [name] [] (s.define name) := by
  have adds := s.adds_define name
  obtain ⟨scopes, globals, body, enclosingClass, distances, errors⟩ := s
  cases scopes with
  | nil =>
    refine touches_mark adds rfl rfl (absurd rfl) (fun other apart => ?_) ⟨rfl, rfl⟩
    simp only [status?, define, List.headD_nil, Scope.getElem?_insert, if_neg apart]
  | cons scope outer =>
    refine touches_mark adds rfl rfl (fun _ => rfl) (fun other apart => ?_) ⟨rfl, rfl⟩
    simp only [status?, define, List.headD_cons, Scope.getElem?_insert, if_neg apart]

theorem status?_define_self (s : Survey) (name : String) :
    (s.define name).status? name = some .defined := by
  obtain ⟨scopes, globals, body, enclosingClass, distances, errors⟩ := s
  cases scopes <;> simp [status?, define]

end Survey

/-! ## Expressions -/

mutual

theorem Expr.touches : ∀ (e : Expr) (s : Survey), s.Touches [] e.ids (e.survey s)
  | .assign id name value, s => (value.touches s).trans (Survey.touches_locate _ id name)
  | .binary _ _ left right, s | .logical _ _ left right, s =>
    (left.touches s).trans (right.touches _)
  | .call callee _ arguments, s => (callee.touches s).trans (Expr.touchesList arguments _)
  | .get object _, s => object.touches s
  | .grouping inner, s => inner.touches s
  | .literal _, s => .refl s
  | .set object _ value, s =>
    ((value.touches s).trans (object.touches _)).mono nofun fun _ hid =>
      List.mem_append.mpr (List.mem_append.mp hid).symm
  | .super id keyword _, s => by
    simp only [Expr.survey]
    split
    · exact (Survey.touches_report s _ _).mono nofun nofun
    · exact (Survey.touches_report s _ _).mono nofun nofun
    · exact Survey.touches_locate s id keyword
  | .this id keyword, s => by
    simp only [Expr.survey]
    split
    · exact (Survey.touches_report s _ _).mono nofun nofun
    all_goals exact Survey.touches_locate s id keyword
  | .unary _ _ right, s => right.touches s
  | .variable id name, s => Survey.touches_refer s id name

theorem Expr.touchesList : ∀ (es : List Expr) (s : Survey),
    s.Touches [] (Expr.idsList es) (Expr.surveyList es s)
  | [], s => .refl s
  | e :: es, s => (e.touches s).trans (Expr.touchesList es _)

end

/-! ## Statements -/

namespace Survey

/-- From `s` to `s'` a part of a program was surveyed that declares `names` in the scope around it,
all of which are defined then. -/
structure Returns (s : Survey) (names : List String) (ids : List ExprId) (s' : Survey) : Prop
    extends s.Touches names ids s' where
  defined : ∀ name ∈ names, s'.status? name = some .defined

namespace Returns

variable {s s₁ s' : Survey} {names names' : List String} {ids ids' : List ExprId}

theorem of_touches (h : s.Touches [] ids s') : s.Returns [] ids s' :=
  ⟨h, nofun⟩

theorem refl (s : Survey) : s.Returns [] [] s :=
  of_touches (.refl s)

theorem trans (h : s.Returns names ids s₁) (h' : s₁.Returns names' ids' s') :
    s.Returns (names ++ names') (ids ++ ids') s' := by
  refine ⟨h.toTouches.trans h'.toTouches, fun name inside => ?_⟩
  by_cases later : name ∈ names'
  · exact h'.defined name later
  · rw [h'.status name later]
    exact h.defined name ((List.mem_append.mp inside).resolve_right later)

/-- After an expression. -/
theorem after (h : s.Touches [] ids s₁) (h' : s₁.Returns names ids' s') :
    s.Returns names (ids ++ ids') s' :=
  (of_touches h).trans h'

/-- A declaration ends. -/
theorem define {name : String} (h : s.Touches [name] ids s₁) :
    s.Returns [name] ids (s₁.define name) := by
  have whole := h.trans (touches_define s₁ name)
  rw [List.append_nil] at whole
  refine ⟨whole.mono (fun other inside => ?_) fun _ hid => hid, fun other inside => ?_⟩
  · simpa using inside
  · rw [List.mem_singleton.mp inside]
    exact status?_define_self s₁ name

/-- A name is declared and defined at once. -/
theorem bind (s : Survey) (name : Lexeme) :
    s.Returns [name.text] [] ((s.declare name).define name.text) :=
  define (touches_declare s name)

theorem parameters (params : List Lexeme) (s : Survey) :
    s.Returns (params.map Lexeme.text) [] ((Errand.parameters params).run s) := by
  induction params generalizing s with
  | nil => exact .refl s
  | cons param params ih => exact (bind s param).trans (ih _)

end Returns

theorem touches_noteReturn (s : Survey) (keyword : Lexeme) (withValue : Bool) :
    s.Touches [] [] (s.noteReturn keyword withValue) := by
  unfold noteReturn
  split
  · exact touches_report s _ _
  · split
    · exact touches_report s _ _
    · exact .refl s
  all_goals exact .refl s

theorem adds_atSuperclass (s : Survey) (name : Lexeme) (superclass : Superclass) :
    s.Adds [] (s.atSuperclass name superclass) := by
  unfold atSuperclass
  dsimp only
  split
  · exact (adds_report s _ _).before rfl rfl
  · exact .of_eq rfl rfl

/-- What is known inside a class: the survey before it, with new scopes around. -/
structure Inside (s : Survey) (superclass : Option Superclass) (s' : Survey) : Prop
    extends s.Adds (superclass.map Superclass.id).toList s' where
  scopes : s'.scopes.tail = superclass.elim s.scopes fun _ =>
    (∅ : Scope).insert "super" .defined :: s.scopes
  innermost : s'.scopes ≠ []
  globals : s'.globals = s.globals
  body : s'.body = s.body

theorem inside_enterClass (s : Survey) (name : Lexeme) (superclass : Option Superclass) :
    s.Inside superclass (s.enterClass name superclass) := by
  cases superclass with
  | none => exact ⟨.of_eq rfl rfl, rfl, List.cons_ne_nil _ _, rfl, rfl⟩
  | some c =>
    have alike := alike_refer (s.atSuperclass name c) c.id c.name
    have adds := (adds_atSuperclass s name c).trans (touches_refer _ c.id c.name).toAdds
    have kept : (s.atSuperclass name c).scopes = s.scopes ∧
        (s.atSuperclass name c).globals = s.globals ∧ (s.atSuperclass name c).body = s.body := by
      unfold atSuperclass
      dsimp only
      split <;> exact ⟨rfl, rfl, rfl⟩
    refine ⟨adds.before rfl rfl, ?_, List.cons_ne_nil _ _, ?_, ?_⟩
    · have same : ((s.atSuperclass name c).refer c.id c.name).scopes = s.scopes := by
        rw [alike, kept.1]
      exact congrArg _ same
    · have same : ((s.atSuperclass name c).refer c.id c.name).globals = s.globals := by
        rw [alike, kept.2.1]
      exact same
    · have same : ((s.atSuperclass name c).refer c.id c.name).body = s.body := by
        rw [alike, kept.2.2]
      exact same

/-- The scopes around the methods of a class are closed, and the class is that from before. -/
theorem Inside.leave {s s₁ s' : Survey} {superclass : Option Superclass} {ids : List ExprId}
    (h : s.Inside superclass s₁) (methods : s₁.Returns [] ids s') : s.Touches []
      ((superclass.map Superclass.id).toList ++ ids)
      { s'.leaveClass superclass with enclosingClass := s.enclosingClass } := by
  have adds := h.toAdds.trans methods.toAdds
  have scopes := methods.outer.trans h.scopes
  have globals := (methods.globals h.innermost).trans h.globals
  have body := methods.body.trans h.body
  cases superclass with
  | none => exact .of_eq (adds.before rfl rfl) scopes globals body rfl
  | some c => exact .of_eq (adds.before rfl rfl) (congrArg List.tail scopes) globals body rfl

/-- The scope of a block or of a function is closed. -/
theorem Returns.leave {s s₁ : Survey} {names : List String} {ids : List ExprId}
    (h : s.enter.Returns names ids s₁) : s.Returns [] ids s₁.leave :=
  .of_touches (.of_eq ⟨h.others, h.noted, h.errors⟩ h.outer (h.globals (List.cons_ne_nil _ _))
    h.body h.enclosingClass)

end Survey

mutual

theorem Stmt.returns : ∀ (stmt : Stmt) (s : Survey),
    s.Returns stmt.declares stmt.ids (stmt.survey s)
  | .block body, s => (Stmt.returnsList body s.enter).leave
  | .classDecl name superclass methods, s => by
    have bound := Survey.Returns.bind s name
    have inside := Survey.inside_enterClass ((s.declare name).define name.text) name superclass
    have left := inside.leave (FunctionDecl.returnsMethods methods _)
    rw [bound.enclosingClass] at left
    exact bound.trans (.of_touches left)
  | .expression e, s | .print e, s => .of_touches (e.touches s)
  | .function decl, s => (Survey.Returns.bind s decl.name).trans (decl.returns .function _)
  | .ifThen condition thenBranch, s => .after (condition.touches s) (thenBranch.returns _)
  | .ifElse condition thenBranch elseBranch, s =>
    .after (condition.touches s) ((thenBranch.returns _).trans (elseBranch.returns _))
  | .returning keyword none, s => by
    rw [Stmt.survey, Survey.returns_eq]
    exact .of_touches (s.touches_noteReturn keyword false)
  | .returning keyword (some value), s => by
    rw [Stmt.survey, Survey.returns_eq]
    exact .of_touches ((s.touches_noteReturn keyword true).trans (value.touches _))
  | .varDecl name none, s => .bind s name
  | .varDecl name (some initializer), s =>
    .define ((Survey.touches_declare s name).trans (initializer.touches _))
  | .while condition body, s => .after (condition.touches s) (body.returns _)

theorem Stmt.returnsList : ∀ (stmts : List Stmt) (s : Survey),
    s.Returns (Stmt.declaresList stmts) (Stmt.idsList stmts) (Stmt.surveyList stmts s)
  | [], s => .refl s
  | stmt :: stmts, s => (stmt.returns s).trans (Stmt.returnsList stmts _)

theorem FunctionDecl.returns : ∀ (decl : FunctionDecl) (kind : BodyKind) (s : Survey),
    s.Returns [] decl.ids (decl.survey kind s)
  | ⟨_, params, body⟩, kind, s => by
    have inside : ({ s with body := kind } : Survey).enter.Returns _ _ _ :=
      (Survey.Returns.parameters params _).trans (Stmt.returnsList body _)
    have left := inside.leave
    exact .of_touches (.of_eq ⟨left.others, left.noted, left.errors⟩ inside.outer
      (inside.globals (List.cons_ne_nil _ _)) rfl left.enclosingClass)

theorem FunctionDecl.returnsMethods : ∀ (methods : List FunctionDecl) (s : Survey),
    s.Returns [] (FunctionDecl.idsList methods) (FunctionDecl.surveyMethods methods s)
  | [], s => .refl s
  | method :: methods, s =>
    (method.returns method.methodBody s).trans (FunctionDecl.returnsMethods methods _)

end

/-- The part of a class declaration behind the name. -/
theorem Stmt.touches_classBody (name : Lexeme) (superclass : Option Superclass)
    (methods : List FunctionDecl) (s : Survey) :
    ((s.declare name).define name.text).Touches []
      ((superclass.map Superclass.id).toList ++ FunctionDecl.idsList methods)
      (Stmt.survey (.classDecl name superclass methods) s) := by
  have inside := Survey.inside_enterClass ((s.declare name).define name.text) name superclass
  have left := inside.leave (FunctionDecl.returnsMethods methods _)
  rwa [(Survey.Returns.bind s name).enclosingClass] at left

/-! ## Names that are not yet defined -/

namespace Survey

/-- No name is declared and not yet defined but the pending one, and that only in the innermost
table. -/
structure Awaits (s : Survey) (pending : Option String) : Prop where
  outer : ∀ table ∈ s.tables.tail, table.Complete
  inner : ∀ name, s.status? name = some .declared → pending = some name

namespace Awaits

variable {s s' : Survey} {names : List String} {ids : List ExprId} {pending : Option String}

theorem start : Survey.start.Awaits none :=
  ⟨nofun, fun name known => by simp [status?, Survey.start] at known⟩

theorem mem_tables (h : s.Awaits pending) {table : Scope} (inside : table ∈ s.tables) :
    (∀ name, s.status? name = table[name]?) ∨ table.Complete := by
  have outer := h.outer
  unfold tables at inside outer
  cases e : s.scopes with
  | nil =>
    rw [e] at inside
    obtain rfl : table = s.globals := List.mem_singleton.mp inside
    exact .inl fun name => by rw [status?, e, List.headD_nil]
  | cons scope others =>
    rw [e] at inside outer
    rcases List.mem_cons.mp inside with rfl | inside
    · exact .inl fun name => by rw [status?, e, List.headD_cons]
    · exact .inr (outer table inside)

/-- A pending name is found in the innermost table. -/
theorem status?_of_declared (h : s.Awaits pending) {table : Scope} (inside : table ∈ s.tables)
    {name : String} (known : table[name]? = some .declared) : s.status? name = some .declared := by
  rcases h.mem_tables inside with innermost | complete
  · rw [innermost, known]
  · exact absurd known (complete name)

theorem complete (h : s.Awaits none) {table : Scope} (inside : table ∈ s.tables) :
    table.Complete :=
  fun _ known => nomatch h.inner _ (h.status?_of_declared inside known)

/-- A part that declares nothing leaves the pending name pending. -/
theorem touches (h : s.Awaits pending) (touches : s.Touches [] ids s') : s'.Awaits pending :=
  ⟨touches.tables ▸ h.outer,
    fun name known => h.inner name ((touches.status name List.not_mem_nil) ▸ known)⟩

theorem returns (h : s.Awaits none) (returns : s.Returns names ids s') : s'.Awaits none := by
  refine ⟨returns.tables ▸ h.outer, fun name known => ?_⟩
  by_cases inside : name ∈ names
  · cases (returns.defined name inside).symm.trans known
  · exact h.inner name ((returns.status name inside) ▸ known)

theorem declare (h : s.Awaits none) (name : Lexeme) :
    (s.declare name).Awaits (some name.text) := by
  have touches := s.touches_declare name
  refine ⟨touches.tables ▸ h.outer, fun other known => ?_⟩
  by_cases same : other = name.text
  · rw [same]
  · rw [touches.status other (by simpa using same)] at known
    cases h.inner other known

theorem define {name : String} (h : s.Awaits (some name)) : (s.define name).Awaits none := by
  have touches := s.touches_define name
  refine ⟨touches.tables ▸ h.outer, fun other known => ?_⟩
  by_cases same : other = name
  · rw [same, status?_define_self] at known
    cases known
  · rw [touches.status other (by simpa using same)] at known
    exact absurd (Option.some.inj (h.inner other known)).symm same

theorem bind (h : s.Awaits none) (name : Lexeme) :
    ((s.declare name).define name.text).Awaits none :=
  (h.declare name).define

theorem enter (h : s.Awaits none) : s.enter.Awaits none := by
  refine ⟨fun table inside => h.complete inside, fun name known => ?_⟩
  simp [status?, Survey.enter] at known

theorem congr (h : s.Awaits pending) (scopes : s'.scopes = s.scopes)
    (globals : s'.globals = s.globals) : s'.Awaits pending := by
  obtain ⟨outer, inner⟩ := h
  refine ⟨?_, fun name known => inner name ?_⟩
  · rw [tables, scopes, globals]
    exact outer
  · rw [← known, status?, status?, scopes, globals]

theorem enterWith (h : s.Awaits none) (keyword : String) : (s.enterWith keyword).Awaits none := by
  have entered : s.enter.Awaits (some keyword) :=
    ⟨h.enter.outer, fun name known => nomatch h.enter.inner name known⟩
  exact entered.define

theorem atSuperclass (h : s.Awaits none) (name : Lexeme) (superclass : Superclass) :
    (s.atSuperclass name superclass).Awaits none := by
  unfold Survey.atSuperclass
  dsimp only
  split <;> exact h.congr rfl rfl

theorem enterBody (h : s.Awaits none) (kind : BodyKind) :
    ({ s with body := kind } : Survey).enter.Awaits none :=
  (h.congr rfl rfl : ({ s with body := kind } : Survey).Awaits none).enter

theorem enterClass (h : s.Awaits none) (name : Lexeme) (superclass : Option Superclass) :
    (s.enterClass name superclass).Awaits none := by
  cases superclass with
  | none => exact (h.congr rfl rfl : ({ s with enclosingClass := .root } : Survey).Awaits none)
      |>.enterWith "this"
  | some c =>
    exact (((h.atSuperclass name c).touches (touches_refer _ c.id c.name)).enterWith
      "super").enterWith "this"

end Awaits

end Survey

/-- What the errand may find pending: the name that it defines, or any name if it is a part of an
initializer. -/
def Errand.MayFind : Errand → Option String → Prop
  | definition name, pending => pending = some name
  | expression _, _ | expressions _, _ | reference _ _, _ | location _ _, _ => True
  | statement _, pending | statements _, pending | function _ _, pending | parameters _, pending
  | methods _, pending | declaration _, pending => pending = none

namespace Visit

variable {v w : Visit}

/-- The visit finds no name pending but one that its errand may find so. -/
def Tidy (v : Visit) : Prop :=
  ∃ pending, v.errand.MayFind pending ∧ v.survey.Awaits pending

/-- A visit hands on what it finds to those that it calls. -/
theorem Calls.tidy (h : v.Calls w) (tidy : v.Tidy) : w.Tidy := by
  obtain ⟨pending, may, awaits⟩ := tidy
  cases h with
  | assigned | callee | binaryLeft | logicalLeft | firstExpression | getObject | grouping | unary
    | «variable» | setValue | «super» | this => exact ⟨pending, trivial, awaits⟩
  | assign | arguments | binaryRight | logicalRight | otherExpressions | setObject =>
    exact ⟨pending, trivial, awaits.touches (Expr.touches _ _)⟩
  | located => exact ⟨pending, trivial, awaits.touches (Survey.touches_checkRead _ _)⟩
  | block =>
    cases may
    exact ⟨none, rfl, awaits.enter⟩
  | declaresClass | declaresFunction | declaresVariable | declaresParameter | firstStatement
    | firstMethod =>
    cases may
    exact ⟨none, rfl, awaits⟩
  | definesClass | definesFunction | definesParameter =>
    cases may
    exact ⟨_, rfl, awaits.declare _⟩
  | superclass =>
    cases may
    exact ⟨none, trivial, (awaits.bind _).atSuperclass _ _⟩
  | methods =>
    cases may
    exact ⟨none, rfl, (awaits.bind _).enterClass _ _⟩
  | expression | print | ifThenCondition | ifElseCondition | whileCondition =>
    exact ⟨pending, trivial, awaits⟩
  | function | otherParameters =>
    cases may
    exact ⟨none, rfl, awaits.bind _⟩
  | ifThen | ifElseThen | whileBody =>
    cases may
    exact ⟨none, rfl, awaits.touches (Expr.touches _ _)⟩
  | ifElse =>
    cases may
    exact ⟨none, rfl, (awaits.touches (Expr.touches _ _)).returns (Stmt.returns _ _)⟩
  | returning => exact ⟨pending, trivial, awaits.touches (Survey.touches_noteReturn _ _ _)⟩
  | initializer =>
    cases may
    exact ⟨_, trivial, awaits.declare _⟩
  | @definesVariable name initializer s =>
    cases may
    refine ⟨_, rfl, ?_⟩
    cases initializer with
    | none => exact awaits.declare name
    | some initializer => exact (awaits.declare name).touches (initializer.touches _)
  | otherStatements =>
    cases may
    exact ⟨none, rfl, awaits.returns (Stmt.returns _ _)⟩
  | parameters =>
    cases may
    exact ⟨none, rfl, awaits.enterBody _⟩
  | body =>
    cases may
    exact ⟨none, rfl, (awaits.enterBody _).returns (Survey.Returns.parameters _ _)⟩
  | otherMethods =>
    cases may
    exact ⟨none, rfl, awaits.returns (FunctionDecl.returns _ _ _)⟩

theorem Reaches.tidy (h : v.Reaches w) (tidy : v.Tidy) : w.Tidy := by
  induction h with
  | refl => exact tidy
  | tail _ calls ih => exact calls.tidy ih

/-- What an errand does with the tables: it changes none, or it finds no name pending and leaves none
so, or it is one of the two halves of a declaration. -/
theorem run_cases (v : Visit) :
    v.survey.Touches [] v.errand.ids (v.errand.run v.survey) ∨
    (v.errand.MayFind = (· = none) ∧
      ∃ names, v.survey.Returns names v.errand.ids (v.errand.run v.survey)) ∨
    (∃ name, v.errand = .declaration name) ∨ ∃ name, v.errand = .definition name := by
  obtain ⟨errand, s⟩ := v
  cases errand with
  | expression e => exact .inl (e.touches s)
  | expressions es => exact .inl (Expr.touchesList es s)
  | reference id name => exact .inl (s.touches_refer id name)
  | location id name => exact .inl (s.touches_locate id name)
  | statement stmt => exact .inr (.inl ⟨rfl, _, stmt.returns s⟩)
  | statements stmts => exact .inr (.inl ⟨rfl, _, Stmt.returnsList stmts s⟩)
  | function decl kind => exact .inr (.inl ⟨rfl, _, decl.returns kind s⟩)
  | parameters params => exact .inr (.inl ⟨rfl, _, Survey.Returns.parameters params s⟩)
  | methods decls => exact .inr (.inl ⟨rfl, _, FunctionDecl.returnsMethods decls s⟩)
  | declaration name => exact .inr (.inr (.inl ⟨name, rfl⟩))
  | definition name => exact .inr (.inr (.inr ⟨name, rfl⟩))

/-- What an errand touches. -/
theorem touches_run (v : Visit) :
    ∃ names, v.survey.Touches names v.errand.ids (v.errand.run v.survey) := by
  rcases v.run_cases with quiet | ⟨-, names, returns⟩ | ⟨name, half⟩ | ⟨name, half⟩
  · exact ⟨_, quiet⟩
  · exact ⟨names, returns.toTouches⟩
  · rw [half]
    exact ⟨_, v.survey.touches_declare name⟩
  · rw [half]
    exact ⟨_, v.survey.touches_define name⟩

/-- After its errand too, a visit leaves one name pending at most. -/
theorem Tidy.run (tidy : v.Tidy) : ∃ pending, (v.errand.run v.survey).Awaits pending := by
  obtain ⟨pending, may, awaits⟩ := tidy
  rcases v.run_cases with quiet | ⟨only, _, returns⟩ | ⟨name, half⟩ | ⟨name, half⟩
  · exact ⟨pending, awaits.touches quiet⟩
  · rw [only] at may
    cases may
    exact ⟨none, awaits.returns returns⟩
  · rw [half] at may ⊢
    cases may
    exact ⟨_, awaits.declare name⟩
  · rw [half] at may ⊢
    cases may
    exact ⟨none, awaits.define⟩

/-! ## To the end of a visit -/

open Survey in
/-- After an errand that it called, a visit only adds to what the survey knows. -/
theorem Calls.adds (h : v.Calls w) :
    ∃ ids, (w.errand.run w.survey).Adds ids (v.errand.run v.survey) := by
  cases h with
  | assign | arguments | binaryRight | logicalRight | otherExpressions | setObject | getObject
    | grouping | unary | «variable» | located | expression | print | ifThen | ifElse | whileBody
    | otherStatements | otherMethods | otherParameters | function =>
    exact ⟨_, .refl _⟩
  | assigned => exact ⟨_, adds_locate _ _ _⟩
  | binaryLeft | logicalLeft | setValue => exact ⟨_, (Expr.touches _ _).toAdds⟩
  | callee | firstExpression => exact ⟨_, (Expr.touchesList _ _).toAdds⟩
  | @«super» id keyword method s derived =>
    have same : (Expr.super id keyword method).survey s = s.locate id keyword := by
      simp only [Expr.survey, derived]
    exact ⟨_, .of_same same⟩
  | @this id keyword s inside =>
    have same : (Expr.this id keyword).survey s = s.locate id keyword := by
      cases e : s.enclosingClass with
      | none => exact absurd e inside
      | root | derived => simp only [Expr.survey, e]
    exact ⟨_, .of_same same⟩
  | block | body => exact ⟨_, .of_eq rfl rfl⟩
  | declaresClass =>
    exact ⟨_, (adds_define _ _).trans (Stmt.touches_classBody _ _ _ _).toAdds⟩
  | definesClass => exact ⟨_, (Stmt.touches_classBody _ _ _ _).toAdds⟩
  | @superclass name c methods s =>
    have entered : (((s.declare name).define name.text).atSuperclass name c |>.refer c.id
        c.name).Adds [] (((s.declare name).define name.text).enterClass name (some c)) :=
      .of_eq rfl rfl
    exact ⟨_, (entered.trans (FunctionDecl.returnsMethods methods _).toAdds).before rfl rfl⟩
  | @methods name superclass methods s => cases superclass <;> exact ⟨_, .of_eq rfl rfl⟩
  | declaresFunction => exact ⟨_, (adds_define _ _).trans (FunctionDecl.returns _ _ _).toAdds⟩
  | definesFunction => exact ⟨_, (FunctionDecl.returns _ _ _).toAdds⟩
  | ifThenCondition | ifElseThen | whileCondition => exact ⟨_, (Stmt.returns _ _).toAdds⟩
  | ifElseCondition =>
    exact ⟨_, (Stmt.returns _ _).toAdds.trans (Stmt.returns _ _).toAdds⟩
  | @returning keyword value s =>
    have same : (Stmt.returning keyword (some value)).survey s =
        value.survey (s.noteReturn keyword true) := by
      rw [Stmt.survey, returns_eq]
      rfl
    exact ⟨_, .of_same same⟩
  | @declaresVariable name initializer s =>
    cases initializer with
    | none => exact ⟨_, adds_define _ _⟩
    | some initializer => exact ⟨_, (initializer.touches _).toAdds.trans (adds_define _ _)⟩
  | initializer => exact ⟨_, adds_define _ _⟩
  | @definesVariable name initializer s => cases initializer <;> exact ⟨_, .refl _⟩
  | firstStatement => exact ⟨_, (Stmt.returnsList _ _).toAdds⟩
  | parameters => exact ⟨_, (Stmt.returnsList _ _).toAdds.before rfl rfl⟩
  | declaresParameter =>
    exact ⟨_, (adds_define _ _).trans (Survey.Returns.parameters _ _).toAdds⟩
  | definesParameter => exact ⟨_, (Survey.Returns.parameters _ _).toAdds⟩
  | firstMethod => exact ⟨_, (FunctionDecl.returnsMethods _ _).toAdds⟩

/-- What is known after a visit is still known at the end of the visit that it belongs to. -/
theorem Reaches.adds (h : v.Reaches w) :
    ∃ ids, (w.errand.run w.survey).Adds ids (v.errand.run v.survey) := by
  induction h with
  | refl => exact ⟨_, .refl _⟩
  | tail _ calls ih =>
    obtain ⟨ids, adds⟩ := calls.adds
    obtain ⟨ids', adds'⟩ := ih
    exact ⟨_, adds.trans adds'⟩

/-! ## Initializers -/

/-- The errand is a part of an expression. -/
def InExpression (v : Visit) : Prop :=
  match v.errand with
  | .expression _ | .expressions _ | .reference _ _ | .location _ _ => True
  | _ => False

theorem Calls.inExpression (h : v.Calls w) (inside : v.InExpression) :
    w.InExpression ∧ ∃ ids, v.survey.Touches [] ids w.survey := by
  cases h with
  | assigned | callee | binaryLeft | logicalLeft | firstExpression | getObject | grouping | unary
    | «variable» | setValue | «super» | this => exact ⟨trivial, _, .refl _⟩
  | assign | arguments | binaryRight | logicalRight | otherExpressions | setObject =>
    exact ⟨trivial, _, Expr.touches _ _⟩
  | located => exact ⟨trivial, _, Survey.touches_checkRead _ _⟩
  | _ => cases inside

/-- In the course of an expression no name changes its status. -/
theorem Reaches.inExpression (h : v.Reaches w) (inside : v.InExpression) :
    w.InExpression ∧ ∃ ids, v.survey.Touches [] ids w.survey := by
  induction h with
  | refl => exact ⟨inside, _, .refl _⟩
  | tail _ calls ih =>
    obtain ⟨inside', ids, touches⟩ := ih
    obtain ⟨inside'', ids', touches'⟩ := calls.inExpression inside'
    exact ⟨inside'', _, touches.trans touches'⟩

end Visit

namespace Survey

/-- A name that is declared is not yet defined, unless it is a global name that was known before. -/
theorem status?_declare_self (s : Survey) (name : Lexeme)
    (new : s.scopes = [] → name.text ∉ s.globals) :
    (s.declare name).status? name.text = some .declared := by
  obtain ⟨scopes, globals, body, enclosingClass, distances, errors⟩ := s
  cases scopes with
  | nil =>
    have new : name.text ∉ globals := new rfl
    simp only [status?, declare, List.headD_nil, Std.TreeMap.getElem?_insertIfNew,
      Std.LawfulEqCmp.compare_eq_iff_eq, new, not_false_eq_true, and_self, if_true]
  | cons scope outer =>
    unfold declare
    dsimp only
    split <;> simp [status?, report]

/-- A name that is not yet defined is reported where it is read. -/
theorem reported_of_declared {s : Survey} {id : ExprId} {name : Lexeme}
    (pending : s.status? name.text = some .declared) :
    ⟨.readInInitializer, name⟩ ∈ (s.refer id name).errors.toList := by
  have here : ⟨.readInInitializer, name⟩ ∈ (s.checkRead name).errors.toList := by
    simp [checkRead, pending, report]
  exact ((s.checkRead name).adds_locate id name).errors.subset here

end Survey

/-- The scopes are kept in order. (1) Whatever is known, the survey of an expression changes no
table, and that of a statement changes only the innermost table, and there only the statuses of
names that the statement declares, which are defined then; the body and the class are as before;
distances are noted for the nodes of the part only, none is taken back, and errors are only added.
(2) At each visit in the survey of a program, before its errand and after it, one name at most is
declared and not yet defined, and only in the innermost table. (3) So whatever table has a name that
is read as not yet defined, the read is reported; in particular every read of a variable in its own
initializer is, unless it is a global variable that was known before. (4) In a program that was read
from tokens no visit changes a distance that was noted before. -/
theorem survey_keeps_scopes :
    (∀ (e : Expr) (s : Survey), (e.survey s).scopes = s.scopes ∧
      (e.survey s).globals = s.globals ∧ s.Touches [] e.ids (e.survey s)) ∧
    (∀ (stmt : Stmt) (s : Survey), s.Returns stmt.declares stmt.ids (stmt.survey s)) ∧
    (∀ ss (v : Visit), (Visit.ofProgram ss).Reaches v →
      (∃ pending, v.survey.Awaits pending) ∧
      (∃ pending, (v.errand.run v.survey).Awaits pending)) ∧
    (∀ ss id name s, (Visit.ofProgram ss).Reaches ⟨.reference id name, s⟩ →
      (∃ table ∈ s.tables, table[name.text]? = some .declared) →
      ⟨.readInInitializer, name⟩ ∈ (Stmt.surveyList ss Survey.start).errors.toList) ∧
    (∀ ss name initializer s,
      (Visit.ofProgram ss).Reaches ⟨.statement (.varDecl name (some initializer)), s⟩ →
      (s.scopes = [] → name.text ∉ s.globals) →
      ∀ id read s', Visit.Reaches ⟨.expression initializer, s.declare name⟩
          ⟨.reference id read, s'⟩ → read.text = name.text →
        ⟨.readInInitializer, read⟩ ∈ (Stmt.surveyList ss Survey.start).errors.toList) ∧
    ∀ tokens ss, (Program.ofTokens tokens).statements? = .ok ss →
      ∀ v : Visit, (Visit.ofProgram ss).Reaches v →
        ∀ (id : ExprId) n, v.survey.distances[id]? = some n →
          (v.errand.run v.survey).distances[id]? = some n := by
  -- what is reported at a reference stays in the report
  have reported : ∀ ss id name s, (Visit.ofProgram ss).Reaches ⟨.reference id name, s⟩ →
      s.status? name.text = some .declared →
      ⟨.readInInitializer, name⟩ ∈ (Stmt.surveyList ss Survey.start).errors.toList := by
    intro ss id name s reached pending
    obtain ⟨_, adds⟩ := reached.adds
    exact adds.errors.subset (Survey.reported_of_declared pending)
  have tidy : ∀ ss, (Visit.ofProgram ss).Tidy := fun ss => ⟨none, rfl, .start⟩
  refine ⟨fun e s => ?_, fun stmt s => stmt.returns s, fun ss v reached => ?_, ?_, ?_, ?_⟩
  · have alike := e.alike_survey s
    refine ⟨?_, ?_, e.touches s⟩ <;> rw [alike]
  · have tidy := reached.tidy (tidy ss)
    exact ⟨tidy.imp fun _ h => h.2, tidy.run⟩
  · rintro ss id name s reached ⟨table, inside, known⟩
    obtain ⟨pending, -, awaits⟩ := reached.tidy (tidy ss)
    exact reported ss id name s reached (awaits.status?_of_declared inside known)
  · intro ss name initializer s reached new id read s' inside same
    obtain ⟨-, _, touches⟩ := inside.inExpression trivial
    have whole : (Visit.ofProgram ss).Reaches ⟨.reference id read, s'⟩ :=
      (reached.tail .initializer).trans inside
    refine reported ss id read s' whole ?_
    rw [touches.status _ List.not_mem_nil, same]
    exact Survey.status?_declare_self s name new
  · intro tokens ss read v reached id n known
    have anyToken : ∀ t ∈ tokens, (fun _ => True : Token → Prop) t := fun _ _ => trivial
    obtain ⟨noErrors, rfl⟩ := Program.statements?_eq_ok read
    obtain ⟨wf, numbered⟩ := Program.read_ofTokens anyToken noErrors
    have start : (Visit.ofProgram (Program.ofTokens tokens).statements).Fresh fun _ => True :=
      ⟨wf, numbered.nodup, fun _ _ => Std.TreeMap.getElem?_emptyc⟩
    have fresh := reached.fresh start
    obtain ⟨_, touches⟩ := v.touches_run
    rw [touches.others id fun inside => ?_]
    · exact known
    · cases known.symm.trans (fresh.unnoted id inside)

/-- The variable is read in its own initializer, at a distance that is kept. -/
theorem own_initializer_is_reported : ∃ ss,
    (Program.ofTokens (tokensOf "\x7b var a = a; a; \x7d")).statements? = .ok ss ∧
    ⟨.readInInitializer, ⟨"a", 1⟩⟩ ∈ (Stmt.surveyList ss Survey.start).errors.toList ∧
    ∃ v : Visit, (Visit.ofProgram ss).Reaches v ∧ (∃ pending, v.survey.Awaits pending) ∧
      v.survey.distances[(0 : ExprId)]? = some 0 ∧
      (v.errand.run v.survey).distances[(0 : ExprId)]? = some 0 := by
  let a : Lexeme := ⟨"a", 1⟩
  let first : Stmt := .varDecl a (some (.variable 0 a))
  let second : Stmt := .expression (.variable 1 a)
  let ss : List Stmt := [.block [first, second]]
  have read : (Program.ofTokens (tokensOf "\x7b var a = a; a; \x7d")).statements? = .ok ss := by
    cbv
  have body : (Visit.ofProgram ss).Reaches ⟨.statements [first, second], Survey.start.enter⟩ :=
    .tail (.single .firstStatement) .block
  have later : (Visit.ofProgram ss).Reaches
      ⟨.statements [second], first.survey Survey.start.enter⟩ :=
    body.tail .otherStatements
  have known : (first.survey Survey.start.enter).distances[(0 : ExprId)]? = some 0 := by cbv
  obtain ⟨-, -, moments, -, initializers, kept⟩ := survey_keeps_scopes
  refine ⟨ss, read, ?_, _, later, (moments ss _ later).1, known, kept _ ss read _ later 0 0 known⟩
  exact initializers ss a (.variable 0 a) _ (body.tail .firstStatement)
    (fun outermost => absurd outermost (List.cons_ne_nil _ _)) 0 a _ (.single .variable) rfl

end Lox
