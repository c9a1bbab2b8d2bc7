import Mathlib.Logic.Equiv.Basic
import Lox.Proofs.Scope.Located

/-!
# Renaming a variable

A variable of one scope is renamed together with the references that lie as many scopes out as that
scope does (`Stmt.RenamesOne`). Whether the names of the scopes around a tree are renamed is told by
marks, one for each scope, innermost first. `Stmt.Renamed` is the same for any choice of scopes, and
follows the trees, so that later proofs do not ask which scope was chosen
(`Stmt.renamed_of_renamesOne`).
-/

namespace Lox

/-- A variable gets another name. Neither name is a keyword; that of a variable never is. -/
structure Renaming where
  /-- How far out the references of the program lie. -/
  distances : Distances
  old : String
  new : String
  old_isName : ∀ k : Keyword, old ≠ k.text
  new_isName : ∀ k : Keyword, new ≠ k.text

namespace Renaming

variable (R : Renaming)

/-- The new name for the old one, if names are renamed here. -/
def lexeme (here : Bool) (l : Lexeme) : Lexeme :=
  if here = true ∧ l.text = R.old then { l with text := R.new } else l

/-- Is the scope at the distance one whose names are renamed? Global names are not. -/
def markAt (marks : List Bool) (distance : Option Nat) : Bool :=
  distance.elim false (marks.getD · false)

/-- Does the reference lie in a scope whose names are renamed? -/
def reaches (marks : List Bool) (id : ExprId) : Bool :=
  markAt marks R.distances[id]?

/-- The token is spelt as its kind says, and is not the new name. -/
def Fresh (t : Token) : Prop :=
  t.Spelt ∧ t.lexeme ≠ R.new

end Renaming

/-- The name that a statement declares as a variable in the scope around it. -/
def Stmt.varName? : Stmt → Option String
  | .varDecl name _ => some name.text
  | _ => none

/-- The marks around the scope of `this` in a class: that of `super` is not renamed. -/
def marksAroundThis : Option Superclass → List Bool → List Bool
  | none, marks => marks
  | some _, marks => false :: marks

section
variable (R : Renaming)

mutual

/-- Renames the references for which `here` is true. -/
def Expr.rename (here : ExprId → Bool) : Expr → Expr
  | .assign id name value => .assign id (R.lexeme (here id) name) (value.rename here)
  | .binary op mark left right => .binary op mark (left.rename here) (right.rename here)
  | .call callee paren arguments =>
    .call (callee.rename here) paren (Expr.renameList here arguments)
  | .get object name => .get (object.rename here) name
  | .grouping inner => .grouping (inner.rename here)
  | .literal value => .literal value
  | .logical op mark left right => .logical op mark (left.rename here) (right.rename here)
  | .set object name value => .set (object.rename here) name (value.rename here)
  | .super id keyword method => .super id keyword method
  | .this id keyword => .this id keyword
  | .unary op mark right => .unary op mark (right.rename here)
  | .variable id name => .variable id (R.lexeme (here id) name)

/-- Renames the references of each of the expressions for which `here` is true. -/
def Expr.renameList (here : ExprId → Bool) : List Expr → List Expr
  | [] => []
  | e :: es => e.rename here :: Expr.renameList here es

end

/-- Renames the reference to a superclass if `here` is true for it. -/
def Superclass.rename (here : ExprId → Bool) (c : Superclass) : Superclass :=
  { c with name := R.lexeme (here c.id) c.name }

mutual

/-- Renames the variables that the statement declares, and its references, in the marked scopes
around it. -/
def Stmt.rename : Stmt → List Bool → Stmt
  | .block body, marks => .block (Stmt.renameList body (false :: marks))
  | .classDecl name superclass methods, marks =>
    .classDecl name (superclass.map (Superclass.rename R (R.reaches marks)))
      (FunctionDecl.renameList methods (false :: marksAroundThis superclass marks))
  | .expression e, marks => .expression (e.rename R (R.reaches marks))
  | .function decl, marks => .function (decl.rename marks)
  | .ifThen condition thenBranch, marks =>
    .ifThen (condition.rename R (R.reaches marks)) (thenBranch.rename marks)
  | .ifElse condition thenBranch elseBranch, marks =>
    .ifElse (condition.rename R (R.reaches marks)) (thenBranch.rename marks)
      (elseBranch.rename marks)
  | .print e, marks => .print (e.rename R (R.reaches marks))
  | .returning keyword value, marks =>
    .returning keyword (value.map (Expr.rename R (R.reaches marks)))
  | .varDecl name initializer, marks =>
    .varDecl (R.lexeme (marks.headD false) name) (initializer.map (Expr.rename R (R.reaches marks)))
  | .while condition body, marks =>
    .while (condition.rename R (R.reaches marks)) (body.rename marks)

/-- The same in each of the statements. -/
def Stmt.renameList : List Stmt → List Bool → List Stmt
  | [], _ => []
  | s :: ss, marks => s.rename marks :: Stmt.renameList ss marks

/-- The same in the body of a function. -/
def FunctionDecl.rename : FunctionDecl → List Bool → FunctionDecl
  | ⟨name, params, body⟩, marks => ⟨name, params, Stmt.renameList body (false :: marks)⟩

/-- The same in each of the methods. -/
def FunctionDecl.renameList : List FunctionDecl → List Bool → List FunctionDecl
  | [], _ => []
  | method :: methods, marks => method.rename marks :: FunctionDecl.renameList methods marks

end

mutual

/-- The second statement is the first, with the old name renamed in one of its scopes, where it is
a variable or a parameter: in the declaration, and in exactly the references to it. -/
inductive Stmt.RenamesOne : Stmt → Stmt → Prop
  | block {body : List Stmt} (declared : R.old ∈ body.filterMap Stmt.varName?) :
    Stmt.RenamesOne (.block body) (.block (Stmt.renameList R body [true]))
  | inBlock {body body' : List Stmt} (h : Stmt.RenamesOneOf body body') :
    Stmt.RenamesOne (.block body) (.block body')
  | inClass {name : Lexeme} {superclass : Option Superclass} {methods methods' : List FunctionDecl}
    (h : FunctionDecl.RenamesOneOf methods methods') :
    Stmt.RenamesOne (.classDecl name superclass methods) (.classDecl name superclass methods')
  | inFunction {decl decl' : FunctionDecl} (h : FunctionDecl.RenamesOne decl decl') :
    Stmt.RenamesOne (.function decl) (.function decl')
  | inThen {condition : Expr} {thenBranch thenBranch' : Stmt}
    (h : Stmt.RenamesOne thenBranch thenBranch') :
    Stmt.RenamesOne (.ifThen condition thenBranch) (.ifThen condition thenBranch')
  | inIfTrue {condition : Expr} {thenBranch thenBranch' elseBranch : Stmt}
    (h : Stmt.RenamesOne thenBranch thenBranch') :
    Stmt.RenamesOne (.ifElse condition thenBranch elseBranch)
      (.ifElse condition thenBranch' elseBranch)
  | inIfFalse {condition : Expr} {thenBranch elseBranch elseBranch' : Stmt}
    (h : Stmt.RenamesOne elseBranch elseBranch') :
    Stmt.RenamesOne (.ifElse condition thenBranch elseBranch)
      (.ifElse condition thenBranch elseBranch')
  | inLoop {condition : Expr} {body body' : Stmt} (h : Stmt.RenamesOne body body') :
    Stmt.RenamesOne (.while condition body) (.while condition body')

/-- The same in one of the statements. -/
inductive Stmt.RenamesOneOf : List Stmt → List Stmt → Prop
  | first {s s' : Stmt} {ss : List Stmt} (h : Stmt.RenamesOne s s') :
    Stmt.RenamesOneOf (s :: ss) (s' :: ss)
  | later {s : Stmt} {ss ss' : List Stmt} (h : Stmt.RenamesOneOf ss ss') :
    Stmt.RenamesOneOf (s :: ss) (s :: ss')

/-- The same in a function, whose parameters and body share one scope. -/
inductive FunctionDecl.RenamesOne : FunctionDecl → FunctionDecl → Prop
  | scope {name : Lexeme} {params : List Lexeme} {body : List Stmt}
    (declared : R.old ∈ params.map Lexeme.text ∨ R.old ∈ body.filterMap Stmt.varName?) :
    FunctionDecl.RenamesOne ⟨name, params, body⟩
      ⟨name, params.map (R.lexeme true), Stmt.renameList R body [true]⟩
  | inBody {name : Lexeme} {params : List Lexeme} {body body' : List Stmt}
    (h : Stmt.RenamesOneOf body body') :
    FunctionDecl.RenamesOne ⟨name, params, body⟩ ⟨name, params, body'⟩

/-- The same in one of the methods. -/
inductive FunctionDecl.RenamesOneOf : List FunctionDecl → List FunctionDecl → Prop
  | first {method method' : FunctionDecl} {methods : List FunctionDecl}
    (h : FunctionDecl.RenamesOne method method') :
    FunctionDecl.RenamesOneOf (method :: methods) (method' :: methods)
  | later {method : FunctionDecl} {methods methods' : List FunctionDecl}
    (h : FunctionDecl.RenamesOneOf methods methods') :
    FunctionDecl.RenamesOneOf (method :: methods) (method :: methods')

end

/-! ## Renaming in any scopes -/

/-- The name is not the new one, nor the old one where names are renamed. -/
structure Renaming.Keeps (here : Bool) (name : String) : Prop where
  new : name ≠ R.new
  old : here = true → name ≠ R.old

mutual

/-- The second statement is the first, with the old name renamed in the marked scopes around it and
in some of its own. The new name does not occur in the first, and in a renamed scope the old name is
no function or class. -/
inductive Stmt.Renamed : List Bool → Stmt → Stmt → Prop
  | block {marks : List Bool} {body body' : List Stmt} (here : Bool)
    (h : Stmt.RenamedList (here :: marks) body body') :
    Stmt.Renamed marks (.block body) (.block body')
  | classDecl {marks : List Bool} {name : Lexeme} {superclass : Option Superclass}
    {methods methods' : List FunctionDecl} (keeps : R.Keeps (marks.headD false) name.text)
    (fresh : ∀ c ∈ superclass, c.name.text ≠ R.new)
    (h : FunctionDecl.RenamedList (false :: marksAroundThis superclass marks) methods methods') :
    Stmt.Renamed marks (.classDecl name superclass methods)
      (.classDecl name (superclass.map (Superclass.rename R (R.reaches marks))) methods')
  | expression {marks : List Bool} {e : Expr} (fresh : e.WellFormed R.Fresh) :
    Stmt.Renamed marks (.expression e) (.expression (e.rename R (R.reaches marks)))
  | function {marks : List Bool} {decl decl' : FunctionDecl}
    (keeps : R.Keeps (marks.headD false) decl.name.text)
    (h : FunctionDecl.Renamed marks decl decl') :
    Stmt.Renamed marks (.function decl) (.function decl')
  | ifThen {marks : List Bool} {condition : Expr} {thenBranch thenBranch' : Stmt}
    (fresh : condition.WellFormed R.Fresh) (h : Stmt.Renamed marks thenBranch thenBranch') :
    Stmt.Renamed marks (.ifThen condition thenBranch)
      (.ifThen (condition.rename R (R.reaches marks)) thenBranch')
  | ifElse {marks : List Bool} {condition : Expr}
    {thenBranch thenBranch' elseBranch elseBranch' : Stmt} (fresh : condition.WellFormed R.Fresh)
    (h : Stmt.Renamed marks thenBranch thenBranch')
    (h' : Stmt.Renamed marks elseBranch elseBranch') :
    Stmt.Renamed marks (.ifElse condition thenBranch elseBranch)
      (.ifElse (condition.rename R (R.reaches marks)) thenBranch' elseBranch')
  | print {marks : List Bool} {e : Expr} (fresh : e.WellFormed R.Fresh) :
    Stmt.Renamed marks (.print e) (.print (e.rename R (R.reaches marks)))
  | returning {marks : List Bool} {keyword : Lexeme} {value : Option Expr}
    (fresh : ∀ e ∈ value, e.WellFormed R.Fresh) :
    Stmt.Renamed marks (.returning keyword value)
      (.returning keyword (value.map (Expr.rename R (R.reaches marks))))
  | varDecl {marks : List Bool} {name : Lexeme} {initializer : Option Expr}
    (fresh : name.text ≠ R.new) (fresh' : ∀ e ∈ initializer, e.WellFormed R.Fresh) :
    Stmt.Renamed marks (.varDecl name initializer)
      (.varDecl (R.lexeme (marks.headD false) name)
        (initializer.map (Expr.rename R (R.reaches marks))))
  | while {marks : List Bool} {condition : Expr} {body body' : Stmt}
    (fresh : condition.WellFormed R.Fresh) (h : Stmt.Renamed marks body body') :
    Stmt.Renamed marks (.while condition body)
      (.while (condition.rename R (R.reaches marks)) body')

/-- The same of each of the statements. -/
inductive Stmt.RenamedList : List Bool → List Stmt → List Stmt → Prop
  | nil {marks : List Bool} : Stmt.RenamedList marks [] []
  | cons {marks : List Bool} {s s' : Stmt} {ss ss' : List Stmt} (h : Stmt.Renamed marks s s')
    (h' : Stmt.RenamedList marks ss ss') : Stmt.RenamedList marks (s :: ss) (s' :: ss')

/-- The same of a function. -/
inductive FunctionDecl.Renamed : List Bool → FunctionDecl → FunctionDecl → Prop
  | mk {marks : List Bool} {name : Lexeme} {params : List Lexeme} {body body' : List Stmt}
    (here : Bool) (fresh : ∀ param ∈ params, param.text ≠ R.new)
    (h : Stmt.RenamedList (here :: marks) body body') :
    FunctionDecl.Renamed marks ⟨name, params, body⟩ ⟨name, params.map (R.lexeme here), body'⟩

/-- The same of each of the methods. -/
inductive FunctionDecl.RenamedList : List Bool → List FunctionDecl → List FunctionDecl → Prop
  | nil {marks : List Bool} : FunctionDecl.RenamedList marks [] []
  | cons {marks : List Bool} {method method' : FunctionDecl} {methods methods' : List FunctionDecl}
    (h : FunctionDecl.Renamed marks method method')
    (h' : FunctionDecl.RenamedList marks methods methods') :
    FunctionDecl.RenamedList marks (method :: methods) (method' :: methods')

end

end

/-! ## Where nothing is renamed -/

/-- No mark is set. -/
def Unmarked (marks : List Bool) : Prop :=
  ∀ d : Nat, marks.getD d false = false

theorem Unmarked.cons {marks : List Bool} (h : Unmarked marks) : Unmarked (false :: marks) := by
  intro d
  cases d with
  | zero => rfl
  | succ d => exact h d

theorem Unmarked.aroundThis {marks : List Bool} (h : Unmarked marks)
    (superclass : Option Superclass) : Unmarked (marksAroundThis superclass marks) := by
  cases superclass with
  | none => exact h
  | some _ => exact h.cons

section
variable {R : Renaming}

namespace Renaming

theorem lexeme_false (l : Lexeme) : R.lexeme false l = l :=
  if_neg fun h => nomatch h.1

theorem map_lexeme_false (ls : List Lexeme) : ls.map (R.lexeme false) = ls := by
  rw [funext R.lexeme_false, List.map_id']

theorem reaches_of_unmarked {marks : List Bool} (h : Unmarked marks) (id : ExprId) :
    R.reaches marks id = false := by
  unfold reaches
  cases R.distances[id]? with
  | none => rfl
  | some d => exact h d

/-- Marks matter only through what they say at each distance. -/
theorem reaches_congr {marks marks' : List Bool}
    (h : ∀ d : Nat, marks.getD d false = marks'.getD d false) :
    R.reaches marks = R.reaches marks' := by
  funext id
  unfold reaches
  cases R.distances[id]? with
  | none => rfl
  | some d => exact h d

end Renaming

theorem Lexeme.From.ne_new {kind : TokenKind} {l : Lexeme} (h : l.From R.Fresh kind) :
    l.text ≠ R.new := by
  obtain ⟨t, fresh, -, rfl⟩ := h
  exact fresh.2

mutual

theorem Expr.rename_false : ∀ e : Expr, e.rename R (fun _ => false) = e
  | .assign id name value => by
    rw [Expr.rename, R.lexeme_false, value.rename_false]
  | .binary _ _ left right | .logical _ _ left right => by
    rw [Expr.rename, left.rename_false, right.rename_false]
  | .call callee _ arguments => by
    rw [Expr.rename, callee.rename_false, Expr.renameList_false arguments]
  | .get object _ => by rw [Expr.rename, object.rename_false]
  | .grouping inner => by rw [Expr.rename, inner.rename_false]
  | .literal _ | .super .. | .this .. => by rw [Expr.rename]
  | .set object _ value => by rw [Expr.rename, object.rename_false, value.rename_false]
  | .unary _ _ right => by rw [Expr.rename, right.rename_false]
  | .variable id name => by rw [Expr.rename, R.lexeme_false]

theorem Expr.renameList_false : ∀ es : List Expr, Expr.renameList R (fun _ => false) es = es
  | [] => rfl
  | e :: es => by rw [Expr.renameList, e.rename_false, Expr.renameList_false es]

end

theorem Renaming.rename_of_unmarked {marks : List Bool} (h : Unmarked marks) (e : Expr) :
    e.rename R (R.reaches marks) = e := by
  rw [funext (R.reaches_of_unmarked h), e.rename_false]

theorem Renaming.superclass_of_unmarked {marks : List Bool} (h : Unmarked marks)
    (c : Option Superclass) : c.map (Superclass.rename R (R.reaches marks)) = c := by
  cases c with
  | none => rfl
  | some c =>
    rw [Option.map_some, Superclass.rename, R.reaches_of_unmarked h, R.lexeme_false]

mutual

theorem Stmt.rename_of_unmarked : ∀ (s : Stmt) {marks : List Bool}, Unmarked marks →
    s.rename R marks = s
  | .block body, _, h => by rw [Stmt.rename, Stmt.renameList_of_unmarked body h.cons]
  | .classDecl _ superclass methods, _, h => by
    rw [Stmt.rename, R.superclass_of_unmarked h,
      FunctionDecl.renameList_of_unmarked methods (h.aroundThis superclass).cons]
  | .expression e, _, h => by rw [Stmt.rename, R.rename_of_unmarked h]
  | .function decl, _, h => by rw [Stmt.rename, decl.rename_of_unmarked h]
  | .ifThen _ thenBranch, _, h => by
    rw [Stmt.rename, R.rename_of_unmarked h, thenBranch.rename_of_unmarked h]
  | .ifElse _ thenBranch elseBranch, _, h => by
    rw [Stmt.rename, R.rename_of_unmarked h, thenBranch.rename_of_unmarked h,
      elseBranch.rename_of_unmarked h]
  | .print e, _, h => by rw [Stmt.rename, R.rename_of_unmarked h]
  | .returning _ value, _, h => by
    rw [Stmt.rename, funext (R.rename_of_unmarked h), Option.map_id']
  | .varDecl name initializer, marks, h => by
    have head : marks.headD false = false := by
      rw [List.headD_eq_head?_getD, List.head?_eq_getElem?]
      exact h 0
    rw [Stmt.rename, head, R.lexeme_false, funext (R.rename_of_unmarked h), Option.map_id']
  | .while _ body, _, h => by
    rw [Stmt.rename, R.rename_of_unmarked h, body.rename_of_unmarked h]

theorem Stmt.renameList_of_unmarked : ∀ (ss : List Stmt) {marks : List Bool}, Unmarked marks →
    Stmt.renameList R ss marks = ss
  | [], _, _ => rfl
  | s :: ss, _, h => by
    rw [Stmt.renameList, s.rename_of_unmarked h, Stmt.renameList_of_unmarked ss h]

theorem FunctionDecl.rename_of_unmarked : ∀ (decl : FunctionDecl) {marks : List Bool},
    Unmarked marks → decl.rename R marks = decl
  | ⟨_, _, body⟩, _, h => by
    rw [FunctionDecl.rename, Stmt.renameList_of_unmarked body h.cons]

theorem FunctionDecl.renameList_of_unmarked : ∀ (methods : List FunctionDecl) {marks : List Bool},
    Unmarked marks → FunctionDecl.renameList R methods marks = methods
  | [], _, _ => rfl
  | method :: methods, _, h => by
    rw [FunctionDecl.renameList, method.rename_of_unmarked h,
      FunctionDecl.renameList_of_unmarked methods h]

end

end

/-! ## One scope among all -/

/-- Marks under one more scope. -/
theorem getD_cons_congr {marks marks' : List Bool} (here : Bool)
    (h : ∀ d : Nat, marks.getD d false = marks'.getD d false) (d : Nat) :
    (here :: marks).getD d false = (here :: marks').getD d false := by
  cases d with
  | zero => rfl
  | succ d => exact h d

theorem getD_aroundThis_congr {marks marks' : List Bool} (superclass : Option Superclass)
    (h : ∀ d : Nat, marks.getD d false = marks'.getD d false) (d : Nat) :
    (marksAroundThis superclass marks).getD d false =
      (marksAroundThis superclass marks').getD d false := by
  cases superclass with
  | none => exact h d
  | some _ => exact getD_cons_congr false h d

theorem headD_congr {marks marks' : List Bool}
    (h : ∀ d : Nat, marks.getD d false = marks'.getD d false) :
    marks.headD false = marks'.headD false := by
  simp only [List.headD_eq_head?_getD, List.head?_eq_getElem?, ← List.getD_eq_getElem?_getD]
  exact h 0

theorem Stmt.declared?_of_varName? {s : Stmt} {name : String} (h : s.varName? = some name) :
    s.declared? = some name := by
  cases s with
  | varDecl _ _ => exact h
  | _ => cases h

section
variable (R : Renaming)

/-- If names are renamed here, the statement declares the old name only as a variable. -/
def Stmt.Admits (here : Bool) (s : Stmt) : Prop :=
  here = true → s.declared? = some R.old → s.varName? = some R.old

end

section
variable {R : Renaming}

theorem Stmt.admits_false (s : Stmt) : s.Admits R false :=
  fun e => nomatch e

theorem Stmt.admits_of_none {s : Stmt} (h : s.declared? = none) (here : Bool) :
    s.Admits R here := by
  intro _ e
  rw [h] at e
  cases e

/-- A scope that declares the old name once, as a variable, declares it only as a variable. -/
theorem Stmt.admits_of_nodup {body : List Stmt} (nodup : (body.filterMap Stmt.declared?).Nodup)
    (declared : R.old ∈ body.filterMap Stmt.varName?) : ∀ s ∈ body, s.Admits R true := by
  have sub : ∀ ss : List Stmt, R.old ∈ ss.filterMap Stmt.varName? →
      R.old ∈ ss.filterMap Stmt.declared? := by
    intro ss h
    obtain ⟨s, inside, e⟩ := List.mem_filterMap.mp h
    exact List.mem_filterMap.mpr ⟨s, inside, declared?_of_varName? e⟩
  induction body with
  | nil => exact fun _ h => nomatch h
  | cons s ss ih =>
    intro t inside _ e
    by_cases own : s.declared? = some R.old
    · rw [List.filterMap_cons_some own, List.nodup_cons] at nodup
      have notLater : R.old ∉ ss.filterMap Stmt.varName? := fun h => nodup.1 (sub ss h)
      rcases List.mem_cons.mp inside with rfl | inside
      · obtain ⟨s', inside', e'⟩ := List.mem_filterMap.mp declared
        rcases List.mem_cons.mp inside' with rfl | inside'
        · exact e'
        · exact absurd (List.mem_filterMap.mpr ⟨s', inside', e'⟩) notLater
      · exact absurd (List.mem_filterMap.mpr ⟨t, inside, e⟩) nodup.1
    · have later : R.old ∈ ss.filterMap Stmt.varName? := by
        obtain ⟨s', inside', e'⟩ := List.mem_filterMap.mp declared
        rcases List.mem_cons.mp inside' with rfl | inside'
        · exact absurd (declared?_of_varName? e') own
        · exact List.mem_filterMap.mpr ⟨s', inside', e'⟩
      have nodup' : (ss.filterMap Stmt.declared?).Nodup :=
        nodup.sublist ((List.sublist_cons_self s ss).filterMap _)
      rcases List.mem_cons.mp inside with rfl | inside
      · exact absurd e own
      · exact ih nodup' later t inside rfl e

/-- The same in the scope of a function, which may declare the old name as a parameter. -/
theorem Stmt.admits_of_params {params : List Lexeme} {body : List Stmt}
    (nodup : (params.map Lexeme.text ++ body.filterMap Stmt.declared?).Nodup)
    (declared : R.old ∈ params.map Lexeme.text ∨ R.old ∈ body.filterMap Stmt.varName?) :
    ∀ s ∈ body, s.Admits R true := by
  have apart := List.nodup_append.mp nodup
  rcases declared with param | inBody
  · intro s inside _ e
    exact absurd rfl (apart.2.2 R.old param R.old (List.mem_filterMap.mpr ⟨s, inside, e⟩))
  · exact Stmt.admits_of_nodup apart.2.1 inBody

theorem Stmt.Admits.keeps {s : Stmt} {here : Bool} (h : s.Admits R here) {name : Lexeme}
    (declares : s.declared? = some name.text) (noVariable : s.varName? = none)
    (fresh : name.text ≠ R.new) : R.Keeps here name.text := by
  refine ⟨fresh, fun e old => ?_⟩
  have := h e (by rw [declares, old])
  rw [noVariable] at this
  cases this

mutual

theorem Stmt.renamed_rename : ∀ (s : Stmt) {marks marks' : List Bool},
    (∀ d : Nat, marks'.getD d false = marks.getD d false) → s.WellFormed R.Fresh →
    s.Admits R (marks.headD false) → s.Renamed R marks (s.rename R marks')
  | .block body, _, _, same, wf, _ => by
    rw [Stmt.rename]
    exact .block false (Stmt.renamedList_rename body (getD_cons_congr false same) wf
      fun s _ => s.admits_false)
  | .classDecl name superclass methods, _, _, same, wf, admits => by
    rw [Stmt.rename, R.reaches_congr same]
    exact .classDecl (admits.keeps rfl rfl wf.1.ne_new) (fun c hc => (wf.2.1 c hc).ne_new)
      (FunctionDecl.renamedList_rename methods
        (getD_cons_congr false (getD_aroundThis_congr superclass same)) wf.2.2)
  | .expression e, _, _, same, wf, _ => by
    rw [Stmt.rename, R.reaches_congr same]
    exact .expression wf
  | .function ⟨_, _, _⟩, _, _, same, wf, admits => by
    rw [Stmt.rename]
    exact .function (admits.keeps rfl rfl wf.1.ne_new) (FunctionDecl.renamed_rename _ same wf)
  | .ifThen _ thenBranch, _, _, same, wf, _ => by
    rw [Stmt.rename, R.reaches_congr same]
    exact .ifThen wf.1 (thenBranch.renamed_rename same wf.2.1 (Stmt.admits_of_none wf.2.2 _))
  | .ifElse _ thenBranch elseBranch, _, _, same, wf, _ => by
    rw [Stmt.rename, R.reaches_congr same]
    exact .ifElse wf.1 (thenBranch.renamed_rename same wf.2.1 (Stmt.admits_of_none wf.2.2.1 _))
      (elseBranch.renamed_rename same wf.2.2.2.1 (Stmt.admits_of_none wf.2.2.2.2 _))
  | .print e, _, _, same, wf, _ => by
    rw [Stmt.rename, R.reaches_congr same]
    exact .print wf
  | .returning _ value, _, _, same, wf, _ => by
    rw [Stmt.rename, R.reaches_congr same]
    refine .returning fun e he => ?_
    cases value with
    | none => cases he
    | some value =>
      cases he
      exact wf
  | .varDecl name initializer, _, _, same, wf, _ => by
    rw [Stmt.rename, R.reaches_congr same, headD_congr same]
    cases initializer with
    | none => exact .varDecl wf.ne_new nofun
    | some initializer =>
      refine .varDecl wf.1.ne_new fun e he => ?_
      cases he
      exact wf.2
  | .while _ body, _, _, same, wf, _ => by
    rw [Stmt.rename, R.reaches_congr same]
    exact .while wf.1 (body.renamed_rename same wf.2.1 (Stmt.admits_of_none wf.2.2 _))

theorem Stmt.renamedList_rename : ∀ (ss : List Stmt) {marks marks' : List Bool},
    (∀ d : Nat, marks'.getD d false = marks.getD d false) → Stmt.WellFormedList R.Fresh ss →
    (∀ s ∈ ss, s.Admits R (marks.headD false)) →
    Stmt.RenamedList R marks ss (Stmt.renameList R ss marks')
  | [], _, _, _, _, _ => .nil
  | s :: ss, _, _, same, wf, admits => by
    rw [Stmt.renameList]
    exact .cons (s.renamed_rename same wf.1 (admits s List.mem_cons_self))
      (Stmt.renamedList_rename ss same wf.2 fun t h => admits t (List.mem_cons_of_mem _ h))

theorem FunctionDecl.renamed_rename : ∀ (decl : FunctionDecl) {marks marks' : List Bool},
    (∀ d : Nat, marks'.getD d false = marks.getD d false) → decl.WellFormed R.Fresh →
    decl.Renamed R marks (decl.rename R marks')
  | ⟨name, params, body⟩, marks, marks', same, wf => by
    have h : FunctionDecl.Renamed R marks ⟨name, params, body⟩
        ⟨name, params.map (R.lexeme false), Stmt.renameList R body (false :: marks')⟩ :=
      .mk false (fun param hp => (wf.2.1 param hp).ne_new) (Stmt.renamedList_rename body
        (getD_cons_congr false same) wf.2.2 fun s _ => s.admits_false)
    rwa [R.map_lexeme_false] at h

theorem FunctionDecl.renamedList_rename : ∀ (methods : List FunctionDecl)
    {marks marks' : List Bool},
    (∀ d : Nat, marks'.getD d false = marks.getD d false) →
    FunctionDecl.WellFormedList R.Fresh methods →
    FunctionDecl.RenamedList R marks methods (FunctionDecl.renameList R methods marks')
  | [], _, _, _, _ => .nil
  | method :: methods, _, _, same, wf => by
    rw [FunctionDecl.renameList]
    exact .cons (method.renamed_rename same wf.1)
      (FunctionDecl.renamedList_rename methods same wf.2)

end

theorem Unmarked.headD {marks : List Bool} (h : Unmarked marks) : marks.headD false = false := by
  rw [List.headD_eq_head?_getD, List.head?_eq_getElem?]
  exact h 0

theorem Unmarked.keeps {marks : List Bool} (h : Unmarked marks) {name : String}
    (fresh : name ≠ R.new) : R.Keeps (marks.headD false) name :=
  ⟨fresh, fun e => by rw [h.headD] at e; cases e⟩

theorem Stmt.renamed_self (s : Stmt) {marks : List Bool} (h : Unmarked marks)
    (wf : s.WellFormed R.Fresh) : s.Renamed R marks s := by
  have renamed := s.renamed_rename (fun _ => rfl) wf (h.headD ▸ s.admits_false)
  rwa [s.rename_of_unmarked h] at renamed

theorem Stmt.renamedList_self (ss : List Stmt) {marks : List Bool} (h : Unmarked marks)
    (wf : Stmt.WellFormedList R.Fresh ss) : Stmt.RenamedList R marks ss ss := by
  have renamed := Stmt.renamedList_rename ss (fun _ => rfl) wf
    fun s _ => h.headD ▸ s.admits_false
  rwa [Stmt.renameList_of_unmarked ss h] at renamed

theorem FunctionDecl.renamed_self (decl : FunctionDecl) {marks : List Bool} (h : Unmarked marks)
    (wf : decl.WellFormed R.Fresh) : decl.Renamed R marks decl := by
  have renamed := decl.renamed_rename (fun d => Eq.refl (marks.getD d false)) wf
  rwa [decl.rename_of_unmarked h] at renamed

theorem FunctionDecl.renamedList_self (methods : List FunctionDecl) {marks : List Bool}
    (h : Unmarked marks) (wf : FunctionDecl.WellFormedList R.Fresh methods) :
    FunctionDecl.RenamedList R marks methods methods := by
  have renamed := FunctionDecl.renamedList_rename methods (fun d => Eq.refl (marks.getD d false)) wf
  rwa [FunctionDecl.renameList_of_unmarked methods h] at renamed

/-- Inside the scope that was chosen, only the mark of this scope counts. -/
theorem getD_chosen {marks : List Bool} (h : Unmarked marks) (d : Nat) :
    [true].getD d false = (true :: marks).getD d false :=
  getD_cons_congr true (fun d => by rw [h d]; rfl) d

variable {D : Distances}

mutual

/-- Renaming in one scope is renaming in some scopes. -/
theorem Stmt.renamed_of_renamesOne : ∀ (s s' : Stmt) {marks : List Bool} {Γ : Context},
    Unmarked marks → s.WellFormed R.Fresh → s.Located D Γ → s.RenamesOne R s' →
    s.Renamed R marks s'
  | .block body, _, _, _, unmarked, wf, located, h => by
    cases h with
    | block declared =>
      exact .block true (Stmt.renamedList_rename body (getD_chosen unmarked) wf
        (Stmt.admits_of_nodup located.2 declared))
    | inBlock h =>
      exact .block false (Stmt.renamedList_of_renamesOne body _ unmarked.cons wf located.1 h)
  | .classDecl name superclass methods, _, _, _, unmarked, wf, located, h => by
    cases h with
    | inClass h =>
      have renamed := Stmt.Renamed.classDecl (unmarked.keeps wf.1.ne_new)
        (fun c hc => (wf.2.1 c hc).ne_new)
        (FunctionDecl.renamedList_of_renamesOne methods _ (unmarked.aroundThis superclass).cons
          wf.2.2 located.2.2 h)
      rwa [R.superclass_of_unmarked unmarked] at renamed
  | .function ⟨name, params, body⟩, _, _, _, unmarked, wf, located, h => by
    cases h with
    | inFunction h =>
      exact .function (unmarked.keeps wf.1.ne_new)
        (FunctionDecl.renamed_of_renamesOne _ _ unmarked wf located.2 h)
  | .ifThen condition thenBranch, _, _, _, unmarked, wf, located, h => by
    cases h with
    | inThen h =>
      have renamed := Stmt.Renamed.ifThen wf.1
        (thenBranch.renamed_of_renamesOne _ unmarked wf.2.1 located.2 h)
      rwa [R.rename_of_unmarked unmarked] at renamed
  | .ifElse condition thenBranch elseBranch, _, _, _, unmarked, wf, located, h => by
    cases h with
    | inIfTrue h =>
      have renamed := Stmt.Renamed.ifElse wf.1
        (thenBranch.renamed_of_renamesOne _ unmarked wf.2.1 located.2.1 h)
        (elseBranch.renamed_self unmarked wf.2.2.2.1)
      rwa [R.rename_of_unmarked unmarked] at renamed
    | inIfFalse h =>
      have renamed := Stmt.Renamed.ifElse wf.1 (thenBranch.renamed_self unmarked wf.2.1)
        (elseBranch.renamed_of_renamesOne _ unmarked wf.2.2.2.1 located.2.2 h)
      rwa [R.rename_of_unmarked unmarked] at renamed
  | .while condition body, _, _, _, unmarked, wf, located, h => by
    cases h with
    | inLoop h =>
      have renamed := Stmt.Renamed.while wf.1
        (body.renamed_of_renamesOne _ unmarked wf.2.1 located.2 h)
      rwa [R.rename_of_unmarked unmarked] at renamed
  | .expression _, _, _, _, _, _, _, h | .print _, _, _, _, _, _, _, h
  | .returning _ _, _, _, _, _, _, _, h | .varDecl _ _, _, _, _, _, _, _, h => by
    cases h

theorem Stmt.renamedList_of_renamesOne : ∀ (ss ss' : List Stmt) {marks : List Bool} {Γ : Context},
    Unmarked marks → Stmt.WellFormedList R.Fresh ss → Stmt.LocatedList D ss Γ →
    Stmt.RenamesOneOf R ss ss' → Stmt.RenamedList R marks ss ss'
  | [], _, _, _, _, _, _, h => by cases h
  | s :: ss, _, _, _, unmarked, wf, located, h => by
    cases h with
    | first h =>
      exact .cons (s.renamed_of_renamesOne _ unmarked wf.1 located.1 h)
        (Stmt.renamedList_self ss unmarked wf.2)
    | later h =>
      exact .cons (s.renamed_self unmarked wf.1)
        (Stmt.renamedList_of_renamesOne ss _ unmarked wf.2 located.2 h)

theorem FunctionDecl.renamed_of_renamesOne : ∀ (decl decl' : FunctionDecl) {marks : List Bool}
    {Γ : Context} {kind : BodyKind}, Unmarked marks → decl.WellFormed R.Fresh →
    decl.Located D kind Γ → decl.RenamesOne R decl' → decl.Renamed R marks decl'
  | ⟨name, params, body⟩, _, marks, _, _, unmarked, wf, located, h => by
    cases h with
    | scope declared =>
      exact .mk true (fun param hp => (wf.2.1 param hp).ne_new)
        (Stmt.renamedList_rename body (getD_chosen unmarked) wf.2.2
          (Stmt.admits_of_params located.2.2 declared))
    | inBody h =>
      have renamed : FunctionDecl.Renamed R marks ⟨name, params, body⟩
          ⟨name, params.map (R.lexeme false), _⟩ :=
        .mk false (fun param hp => (wf.2.1 param hp).ne_new)
          (Stmt.renamedList_of_renamesOne body _ unmarked.cons wf.2.2 located.2.1 h)
      rwa [R.map_lexeme_false] at renamed

theorem FunctionDecl.renamedList_of_renamesOne : ∀ (methods methods' : List FunctionDecl)
    {marks : List Bool} {Γ : Context}, Unmarked marks →
    FunctionDecl.WellFormedList R.Fresh methods → FunctionDecl.LocatedMethods D methods Γ →
    FunctionDecl.RenamesOneOf R methods methods' →
    FunctionDecl.RenamedList R marks methods methods'
  | [], _, _, _, _, _, _, h => by cases h
  | method :: methods, _, _, _, unmarked, wf, located, h => by
    cases h with
    | first h =>
      exact .cons (method.renamed_of_renamesOne _ unmarked wf.1 located.1 h)
        (FunctionDecl.renamedList_self methods unmarked wf.2)
    | later h =>
      exact .cons (method.renamed_self unmarked wf.1)
        (FunctionDecl.renamedList_of_renamesOne methods _ unmarked wf.2 located.2 h)

end

theorem FunctionDecl.Renamed.name_eq {marks : List Bool} {decl decl' : FunctionDecl}
    (h : decl.Renamed R marks decl') : decl'.name = decl.name := by
  cases h
  rfl

theorem FunctionDecl.Renamed.methodBody_eq {marks : List Bool} {decl decl' : FunctionDecl}
    (h : decl.Renamed R marks decl') : decl'.methodBody = decl.methodBody := by
  rw [methodBody, methodBody, h.name_eq]

/-! ## Names in renamed scopes -/

namespace Renaming

variable {here : Bool} {name : String} {l : Lexeme}

section
variable (R)

/-- The names of a renamed scope: the old name and the new one change places. -/
def swap (here : Bool) : Equiv.Perm String :=
  if here then Equiv.swap R.old R.new else Equiv.refl String

end

theorem swap_false (name : String) : R.swap false name = name :=
  rfl

theorem swap_swap (here : Bool) (name : String) : R.swap here (R.swap here name) = name := by
  cases here with
  | false => rfl
  | true => exact Equiv.swap_apply_self R.old R.new name

theorem swap_of_ne (here : Bool) (old : name ≠ R.old) (new : name ≠ R.new) :
    R.swap here name = name := by
  cases here with
  | false => rfl
  | true => exact Equiv.swap_apply_of_ne_of_ne old new

theorem swap_of_keeps (h : R.Keeps here name) : R.swap here name = name := by
  cases here with
  | false => rfl
  | true => exact R.swap_of_ne true (h.old rfl) h.new

theorem swap_keyword (here : Bool) (k : Keyword) : R.swap here k.text = k.text :=
  R.swap_of_ne here (R.old_isName k).symm (R.new_isName k).symm

/-- Where two scopes differ in whether they are renamed, a name of one is the new name in the
other, or the same. -/
theorem swap_swap_cases (here there : Bool) (new : name ≠ R.new) :
    R.swap here (R.swap there name) = name ∨ R.swap here (R.swap there name) = R.new := by
  by_cases same : here = there
  · rw [same, R.swap_swap]
    exact .inl rfl
  · by_cases old : name = R.old
    · right
      subst old
      cases here <;> cases there
      · exact absurd rfl same
      · exact Equiv.swap_apply_left R.old R.new
      · exact Equiv.swap_apply_left R.old R.new
      · exact absurd rfl same
    · rw [R.swap_of_ne there old new, R.swap_of_ne here old new]
      exact .inl rfl

theorem text_lexeme (here : Bool) (new : l.text ≠ R.new) :
    (R.lexeme here l).text = R.swap here l.text := by
  cases here with
  | false => rw [R.lexeme_false, R.swap_false]
  | true =>
    by_cases old : l.text = R.old
    · rw [lexeme, if_pos ⟨rfl, old⟩, old]
      exact (Equiv.swap_apply_left R.old R.new).symm
    · rw [lexeme, if_neg fun h => old h.2, R.swap_of_ne true old new]

theorem lexeme_of_ne (here : Bool) (old : l.text ≠ R.old) : R.lexeme here l = l :=
  if_neg fun h => old h.2

theorem lexeme_of_keeps (h : R.Keeps here l.text) : R.lexeme here l = l :=
  if_neg fun h' => h.old h'.1 h'.2

end Renaming

theorem Lexeme.From.ne_of_keyword {k : Keyword} {l : Lexeme} (h : l.From R.Fresh (.keyword k)) :
    l.text ≠ R.old ∧ l.text ≠ R.new := by
  rw [h.text_eq fun _ => And.left]
  exact ⟨(R.old_isName k).symm, (R.new_isName k).symm⟩

end

end Lox
