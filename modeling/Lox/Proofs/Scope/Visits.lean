import Mathlib.Logic.Relation
import Lox.Proofs.Scope.Exact
import Lox.Proofs.Scope.Located

/-!
# The visits of a survey

A survey goes through a program errand by errand (`Errand.run`). A visit is an errand about to be
run, and the survey it finds; a visit calls the visits that its errand consists of, each with the
survey that the errands before it left (`Visit.Calls`, one constructor for each errand that an
errand runs). Distances are noted in errands of one kind only (`Stmt.accounts_list`): those that
locate a node.

Where the nodes have numbers of their own, each part of the program is visited before anything has
been noted of its nodes (`Visit.Reaches.fresh`). Nodes that were read from tokens have numbers of
their own, so that a distance is noted once at most and never replaced
(`nodes_have_own_numbers`).
-/

namespace Lox

/-- What the survey of a program consists of. -/
inductive Errand
  | expression (e : Expr)
  | expressions (es : List Expr)
  | statement (stmt : Stmt)
  | statements (stmts : List Stmt)
  | function (decl : FunctionDecl) (kind : BodyKind)
  | parameters (params : List Lexeme)
  | methods (methods : List FunctionDecl)
  | declaration (name : Lexeme)
  | definition (name : String)
  | reference (id : ExprId) (name : Lexeme)
  | location (id : ExprId) (name : Lexeme)

namespace Errand

/-- The survey after the errand. -/
def run : Errand → Survey → Survey
  | expression e, s => e.survey s
  | expressions es, s => Expr.surveyList es s
  | statement stmt, s => stmt.survey s
  | statements stmts, s => Stmt.surveyList stmts s
  | function decl kind, s => decl.survey kind s
  | parameters params, s => params.foldl (fun s param => (s.declare param).define param.text) s
  | methods decls, s => FunctionDecl.surveyMethods decls s
  | declaration name, s => s.declare name
  | definition name, s => s.define name
  | reference id name, s => s.refer id name
  | location id name, s => s.locate id name

/-- The numbers of the nodes that the errand may locate. -/
def ids : Errand → List ExprId
  | expression e => e.ids
  | expressions es => Expr.idsList es
  | statement stmt => stmt.ids
  | statements stmts => Stmt.idsList stmts
  | function decl _ => decl.ids
  | methods decls => FunctionDecl.idsList decls
  | parameters _ | declaration _ | definition _ => []
  | reference id _ | location id _ => [id]

/-- The statements of the errand are well formed. -/
def WellFormed (T : Token → Prop) : Errand → Prop
  | statement stmt => stmt.WellFormed T
  | statements stmts => Stmt.WellFormedList T stmts
  | function decl _ => decl.WellFormed T
  | methods decls => FunctionDecl.WellFormedList T decls
  | expression _ | expressions _ | parameters _ | declaration _ | definition _ | reference _ _
  | location _ _ => True

end Errand

/-- The survey when the superclass of a class is about to be referred to. -/
def Survey.atSuperclass (s : Survey) (name : Lexeme) (superclass : Superclass) : Survey :=
  { (if superclass.name.text = name.text then s.report .inheritsItself superclass.name else s) with
    enclosingClass := .derived }

/-- The survey when a name is about to be located: a name that cannot be read yet is reported. -/
def Survey.checkRead (s : Survey) (name : Lexeme) : Survey :=
  if s.status? name.text = some .declared then s.report .readInInitializer name else s

/-- An errand about to be run, and the survey so far. -/
structure Visit where
  errand : Errand
  survey : Survey

namespace Visit

/-- The first visit makes the second as a step of its own errand. -/
inductive Calls : Visit → Visit → Prop
  | assigned {id name value s} :
    Calls ⟨.expression (.assign id name value), s⟩ ⟨.expression value, s⟩
  | assign {id name value s} :
    Calls ⟨.expression (.assign id name value), s⟩ ⟨.location id name, value.survey s⟩
  | binaryLeft {op mark left right s} :
    Calls ⟨.expression (.binary op mark left right), s⟩ ⟨.expression left, s⟩
  | binaryRight {op mark left right s} :
    Calls ⟨.expression (.binary op mark left right), s⟩ ⟨.expression right, left.survey s⟩
  | callee {callee paren arguments s} :
    Calls ⟨.expression (.call callee paren arguments), s⟩ ⟨.expression callee, s⟩
  | arguments {callee paren arguments s} :
    Calls ⟨.expression (.call callee paren arguments), s⟩
      ⟨.expressions arguments, callee.survey s⟩
  | getObject {object name s} : Calls ⟨.expression (.get object name), s⟩ ⟨.expression object, s⟩
  | grouping {inner s} : Calls ⟨.expression (.grouping inner), s⟩ ⟨.expression inner, s⟩
  | logicalLeft {op mark left right s} :
    Calls ⟨.expression (.logical op mark left right), s⟩ ⟨.expression left, s⟩
  | logicalRight {op mark left right s} :
    Calls ⟨.expression (.logical op mark left right), s⟩ ⟨.expression right, left.survey s⟩
  | setValue {object name value s} :
    Calls ⟨.expression (.set object name value), s⟩ ⟨.expression value, s⟩
  | setObject {object name value s} :
    Calls ⟨.expression (.set object name value), s⟩ ⟨.expression object, value.survey s⟩
  | super {id keyword method s} (derived : s.enclosingClass = .derived) :
    Calls ⟨.expression (.super id keyword method), s⟩ ⟨.location id keyword, s⟩
  | this {id keyword s} (inside : s.enclosingClass ≠ .none) :
    Calls ⟨.expression (.this id keyword), s⟩ ⟨.location id keyword, s⟩
  | unary {op mark right s} :
    Calls ⟨.expression (.unary op mark right), s⟩ ⟨.expression right, s⟩
  | variable {id name s} : Calls ⟨.expression (.variable id name), s⟩ ⟨.reference id name, s⟩
  | located {id name s} : Calls ⟨.reference id name, s⟩ ⟨.location id name, s.checkRead name⟩
  | firstExpression {e es s} : Calls ⟨.expressions (e :: es), s⟩ ⟨.expression e, s⟩
  | otherExpressions {e es s} : Calls ⟨.expressions (e :: es), s⟩ ⟨.expressions es, e.survey s⟩
  | block {body s} : Calls ⟨.statement (.block body), s⟩ ⟨.statements body, s.enter⟩
  | declaresClass {name superclass methods s} :
    Calls ⟨.statement (.classDecl name superclass methods), s⟩ ⟨.declaration name, s⟩
  | definesClass {name superclass methods s} :
    Calls ⟨.statement (.classDecl name superclass methods), s⟩
      ⟨.definition name.text, s.declare name⟩
  | superclass {name superclass methods s} :
    Calls ⟨.statement (.classDecl name (some superclass) methods), s⟩
      ⟨.reference superclass.id superclass.name,
        ((s.declare name).define name.text).atSuperclass name superclass⟩
  | methods {name superclass methods s} :
    Calls ⟨.statement (.classDecl name superclass methods), s⟩
      ⟨.methods methods, ((s.declare name).define name.text).enterClass name superclass⟩
  | expression {e s} : Calls ⟨.statement (.expression e), s⟩ ⟨.expression e, s⟩
  | declaresFunction {decl s} :
    Calls ⟨.statement (.function decl), s⟩ ⟨.declaration decl.name, s⟩
  | definesFunction {decl s} :
    Calls ⟨.statement (.function decl), s⟩ ⟨.definition decl.name.text, s.declare decl.name⟩
  | function {decl s} :
    Calls ⟨.statement (.function decl), s⟩
      ⟨.function decl .function, (s.declare decl.name).define decl.name.text⟩
  | ifThenCondition {condition thenBranch s} :
    Calls ⟨.statement (.ifThen condition thenBranch), s⟩ ⟨.expression condition, s⟩
  | ifThen {condition thenBranch s} :
    Calls ⟨.statement (.ifThen condition thenBranch), s⟩
      ⟨.statement thenBranch, condition.survey s⟩
  | ifElseCondition {condition thenBranch elseBranch s} :
    Calls ⟨.statement (.ifElse condition thenBranch elseBranch), s⟩ ⟨.expression condition, s⟩
  | ifElseThen {condition thenBranch elseBranch s} :
    Calls ⟨.statement (.ifElse condition thenBranch elseBranch), s⟩
      ⟨.statement thenBranch, condition.survey s⟩
  | ifElse {condition thenBranch elseBranch s} :
    Calls ⟨.statement (.ifElse condition thenBranch elseBranch), s⟩
      ⟨.statement elseBranch, thenBranch.survey (condition.survey s)⟩
  | print {e s} : Calls ⟨.statement (.print e), s⟩ ⟨.expression e, s⟩
  | returning {keyword value s} :
    Calls ⟨.statement (.returning keyword (some value)), s⟩
      ⟨.expression value, s.noteReturn keyword true⟩
  | declaresVariable {name initializer s} :
    Calls ⟨.statement (.varDecl name initializer), s⟩ ⟨.declaration name, s⟩
  | initializer {name initializer s} :
    Calls ⟨.statement (.varDecl name (some initializer)), s⟩
      ⟨.expression initializer, s.declare name⟩
  | definesVariable {name initializer s} :
    Calls ⟨.statement (.varDecl name initializer), s⟩
      ⟨.definition name.text, initializer.elim id Expr.survey (s.declare name)⟩
  | whileCondition {condition body s} :
    Calls ⟨.statement (.while condition body), s⟩ ⟨.expression condition, s⟩
  | whileBody {condition body s} :
    Calls ⟨.statement (.while condition body), s⟩ ⟨.statement body, condition.survey s⟩
  | firstStatement {stmt stmts s} : Calls ⟨.statements (stmt :: stmts), s⟩ ⟨.statement stmt, s⟩
  | otherStatements {stmt stmts s} :
    Calls ⟨.statements (stmt :: stmts), s⟩ ⟨.statements stmts, stmt.survey s⟩
  | parameters {name params body kind s} :
    Calls ⟨.function ⟨name, params, body⟩ kind, s⟩
      ⟨.parameters params, { s with body := kind }.enter⟩
  | body {name params body kind s} :
    Calls ⟨.function ⟨name, params, body⟩ kind, s⟩
      ⟨.statements body, (Errand.parameters params).run { s with body := kind }.enter⟩
  | declaresParameter {param params s} :
    Calls ⟨.parameters (param :: params), s⟩ ⟨.declaration param, s⟩
  | definesParameter {param params s} :
    Calls ⟨.parameters (param :: params), s⟩ ⟨.definition param.text, s.declare param⟩
  | otherParameters {param params s} :
    Calls ⟨.parameters (param :: params), s⟩
      ⟨.parameters params, (s.declare param).define param.text⟩
  | firstMethod {method methods s} :
    Calls ⟨.methods (method :: methods), s⟩ ⟨.function method method.methodBody, s⟩
  | otherMethods {method methods s} :
    Calls ⟨.methods (method :: methods), s⟩
      ⟨.methods methods, method.survey method.methodBody s⟩

/-- The second visit is made in the course of the first. -/
def Reaches : Visit → Visit → Prop :=
  Relation.ReflTransGen Calls

/-! ## Where distances are noted -/

/-- From the survey of the visit to `s'`, distances have been noted only by visits in its course
that locate the node. -/
def Accounts (v : Visit) (s' : Survey) : Prop :=
  ∀ id n, s'.distances[id]? = some n → v.survey.distances[id]? = some n ∨
    ∃ name s, v.Reaches ⟨.location id name, s⟩ ∧
      s.scopes.findIdx? (·.contains name.text) = some n

namespace Accounts

variable {v w : Visit} {s s' : Survey}

theorem of_eq (e : s'.distances = v.survey.distances) : v.Accounts s' :=
  fun _ _ known => .inl (e ▸ known)

theorem congr (h : v.Accounts s) (e : s'.distances = s.distances) : v.Accounts s' :=
  fun id n known => h id n (e ▸ known)

/-- One more step of the errand. -/
theorem call (h : v.Accounts w.survey) (calls : v.Calls w) (inner : w.Accounts s') :
    v.Accounts s' := by
  intro id n known
  obtain known | ⟨name, at_, reached, found⟩ := inner id n known
  · exact h id n known
  · exact .inr ⟨name, at_, .head calls reached, found⟩

/-- The first step of an errand. -/
theorem first (calls : v.Calls w) (e : w.survey.distances = v.survey.distances)
    (inner : w.Accounts s') : v.Accounts s' :=
  (of_eq e).call calls inner

end Accounts

theorem accounts_location (id : ExprId) (name : Lexeme) (s : Survey) :
    Accounts ⟨.location id name, s⟩ (s.locate id name) := by
  intro other n known
  unfold Survey.locate at known
  split at known
  · rename_i distance found
    simp only [Std.TreeMap.getElem?_insert, Std.LawfulEqCmp.compare_eq_iff_eq] at known
    split at known
    · rename_i same
      cases same
      cases known
      exact .inr ⟨name, s, .refl, found⟩
    · exact .inl known
  · exact .inl known

theorem accounts_reference (id : ExprId) (name : Lexeme) (s : Survey) :
    Accounts ⟨.reference id name, s⟩ (s.refer id name) := by
  have checked : (s.checkRead name).distances = s.distances := by
    unfold Survey.checkRead
    split <;> rfl
  exact .first .located checked (accounts_location id name _)

end Visit

open Visit in
mutual

theorem Expr.accounts : ∀ (e : Expr) (s : Survey), Accounts ⟨.expression e, s⟩ (e.survey s)
  | .assign id name value, s =>
    (Accounts.first .assigned rfl (value.accounts s)).call .assign (accounts_location id name _)
  | .binary _ _ left right, s =>
    (Accounts.first .binaryLeft rfl (left.accounts s)).call .binaryRight (right.accounts _)
  | .call callee _ arguments, s =>
    (Accounts.first .callee rfl (callee.accounts s)).call .arguments
      (Expr.accounts_list arguments _)
  | .get object _, s => .first .getObject rfl (object.accounts s)
  | .grouping inner, s => .first .grouping rfl (inner.accounts s)
  | .literal _, _ => .of_eq rfl
  | .logical _ _ left right, s =>
    (Accounts.first .logicalLeft rfl (left.accounts s)).call .logicalRight (right.accounts _)
  | .set object _ value, s =>
    (Accounts.first .setValue rfl (value.accounts s)).call .setObject (object.accounts _)
  | .super id keyword _, s => by
    simp only [Expr.survey]
    split
    · exact .of_eq rfl
    · exact .of_eq rfl
    · exact .first (.super ‹_›) rfl (accounts_location id keyword s)
  | .this id keyword, s => by
    simp only [Expr.survey]
    split
    · exact .of_eq rfl
    all_goals
      exact .first (.this (by simp [*])) rfl (accounts_location id keyword s)
  | .unary _ _ right, s => .first .unary rfl (right.accounts s)
  | .variable id name, s => .first .variable rfl (accounts_reference id name s)

theorem Expr.accounts_list : ∀ (es : List Expr) (s : Survey),
    Accounts ⟨.expressions es, s⟩ (Expr.surveyList es s)
  | [], _ => .of_eq rfl
  | e :: es, s =>
    (Accounts.first .firstExpression rfl (e.accounts s)).call .otherExpressions
      (Expr.accounts_list es _)

end

namespace Survey

theorem distances_declare (s : Survey) (name : Lexeme) :
    (s.declare name).distances = s.distances := by
  unfold declare
  split
  · rfl
  · dsimp only
    split <;> rfl

theorem distances_bind (s : Survey) (name : Lexeme) :
    ((s.declare name).define name.text).distances = s.distances :=
  (distances_define _ _).2.trans (distances_declare s name)

theorem distances_bindAll (s : Survey) (params : List Lexeme) :
    ((Errand.parameters params).run s).distances = s.distances := by
  induction params generalizing s with
  | nil => rfl
  | cons param params ih => exact (ih _).trans (distances_bind s param)

theorem distances_atSuperclass (s : Survey) (name : Lexeme) (superclass : Superclass) :
    (s.atSuperclass name superclass).distances = s.distances := by
  unfold atSuperclass
  dsimp only
  split <;> rfl

theorem distances_noteReturn (s : Survey) (keyword : Lexeme) (withValue : Bool) :
    (s.noteReturn keyword withValue).distances = s.distances := by
  unfold noteReturn
  split
  · rfl
  · split <;> rfl
  all_goals rfl

theorem distances_leaveClass (s : Survey) (superclass : Option Superclass) :
    (s.leaveClass superclass).distances = s.distances := by
  cases superclass <;> rfl

end Survey

open Visit in
mutual

theorem Stmt.accounts : ∀ (stmt : Stmt) (s : Survey), Accounts ⟨.statement stmt, s⟩ (stmt.survey s)
  | .block body, s =>
    (Accounts.first .block rfl (Stmt.accounts_list body s.enter)).congr rfl
  | .classDecl name none methods, s => by
    have calls : Calls ⟨.statement (.classDecl name none methods), s⟩ _ := .methods
    have inside := Accounts.first calls (s.distances_bind name)
      (FunctionDecl.accounts_methods methods _)
    exact inside.congr (Survey.distances_leaveClass _ none)
  | .classDecl name (some c) methods, s => by
    have reached := ((s.declare name).define name.text).distances_atSuperclass name c
    have calls : Calls ⟨.statement (.classDecl name (some c) methods), s⟩ _ := .superclass
    have referred := Accounts.first calls (reached.trans (s.distances_bind name))
      (accounts_reference c.id c.name _)
    have entered : Accounts _ (((s.declare name).define name.text).enterClass name c) :=
      referred.congr rfl
    have inside := entered.call .methods (FunctionDecl.accounts_methods methods _)
    exact inside.congr (Survey.distances_leaveClass _ (some c))
  | .expression e, s => .first .expression rfl (e.accounts s)
  | .function decl, s =>
    .first .function (s.distances_bind decl.name) (decl.accounts .function _)
  | .ifThen condition thenBranch, s =>
    (Accounts.first .ifThenCondition rfl (condition.accounts s)).call .ifThen
      (thenBranch.accounts _)
  | .ifElse condition thenBranch elseBranch, s =>
    ((Accounts.first .ifElseCondition rfl (condition.accounts s)).call .ifElseThen
      (thenBranch.accounts _)).call .ifElse (elseBranch.accounts _)
  | .print e, s => .first .print rfl (e.accounts s)
  | .returning keyword none, s =>
    .of_eq (by rw [Stmt.survey, Survey.returns_eq]; exact s.distances_noteReturn keyword false)
  | .returning keyword (some value), s => by
    rw [Stmt.survey, Survey.returns_eq]
    exact .first .returning (s.distances_noteReturn keyword true) (value.accounts _)
  | .varDecl name none, s => .of_eq (s.distances_bind name)
  | .varDecl name (some initializer), s =>
    (Accounts.first .initializer (s.distances_declare name) (initializer.accounts _)).congr
      (Survey.distances_define _ _).2
  | .while condition body, s =>
    (Accounts.first .whileCondition rfl (condition.accounts s)).call .whileBody (body.accounts _)

theorem Stmt.accounts_list : ∀ (stmts : List Stmt) (s : Survey),
    Accounts ⟨.statements stmts, s⟩ (Stmt.surveyList stmts s)
  | [], _ => .of_eq rfl
  | stmt :: stmts, s =>
    (Accounts.first .firstStatement rfl (stmt.accounts s)).call .otherStatements
      (Stmt.accounts_list stmts _)

theorem FunctionDecl.accounts : ∀ (decl : FunctionDecl) (kind : BodyKind) (s : Survey),
    Accounts ⟨.function decl kind, s⟩ (decl.survey kind s)
  | ⟨_, params, body⟩, _, _ =>
    (Accounts.first .body (Survey.distances_bindAll _ params) (Stmt.accounts_list body _)).congr rfl

theorem FunctionDecl.accounts_methods : ∀ (methods : List FunctionDecl) (s : Survey),
    Accounts ⟨.methods methods, s⟩ (FunctionDecl.surveyMethods methods s)
  | [], _ => .of_eq rfl
  | method :: methods, s =>
    (Accounts.first .firstMethod rfl (method.accounts method.methodBody s)).call .otherMethods
      (FunctionDecl.accounts_methods methods _)

end

/-! ## Nothing is noted twice -/

namespace Visit

variable {T : Token → Prop} {v w : Visit}

/-- The nodes that the errand may locate differ, and nothing has been noted of them. -/
structure Fresh (T : Token → Prop) (v : Visit) : Prop where
  wellFormed : v.errand.WellFormed T
  nodup : v.errand.ids.Nodup
  unnoted : ∀ id ∈ v.errand.ids, v.survey.distances[id]? = none

/-- A part of an errand is run after the nodes `before` may have been noted. -/
theorem Fresh.part (before after : List ExprId) (h : v.Fresh T) (wf : w.errand.WellFormed T)
    (ids : v.errand.ids.Perm (before ++ (w.errand.ids ++ after)))
    (kept : ∀ id, id ∉ before → w.survey.distances[id]? = v.survey.distances[id]?) :
    w.Fresh T := by
  obtain ⟨-, rest, apart⟩ := List.nodup_append.mp (ids.nodup_iff.mp h.nodup)
  refine ⟨wf, (List.nodup_append.mp rest).1, fun id hid => ?_⟩
  have inRest := List.mem_append_left after hid
  rw [kept id fun hid' => apart id hid' id inRest rfl]
  exact h.unnoted id (ids.mem_iff.mpr (List.mem_append_right _ inRest))

/-- The first part of an errand. -/
theorem Fresh.head {after : List ExprId} (h : v.Fresh T) (wf : w.errand.WellFormed T)
    (ids : v.errand.ids = w.errand.ids ++ after)
    (kept : w.survey.distances = v.survey.distances) : w.Fresh T :=
  h.part [] after wf (by rw [ids]; rfl) fun id _ => by rw [kept]

/-- All of an errand. -/
theorem Fresh.whole (h : v.Fresh T) (wf : w.errand.WellFormed T) (ids : v.errand.ids = w.errand.ids)
    (kept : w.survey.distances = v.survey.distances) : w.Fresh T :=
  have first : v.errand.ids = w.errand.ids ++ [] := by rw [ids, List.append_nil]
  h.head wf first kept

/-- The last part of an errand. -/
theorem Fresh.last {before : List ExprId} (h : v.Fresh T) (wf : w.errand.WellFormed T)
    (ids : v.errand.ids = before ++ w.errand.ids)
    (kept : ∀ id, id ∉ before → w.survey.distances[id]? = v.survey.distances[id]?) :
    w.Fresh T :=
  h.part before [] wf (by rw [ids, List.append_nil]) kept

/-- A part of an errand that locates no nodes. -/
theorem Fresh.of_nil (wf : w.errand.WellFormed T) (ids : w.errand.ids = []) : w.Fresh T := by
  refine ⟨wf, ?_, ?_⟩ <;> rw [ids]
  · exact List.nodup_nil
  · exact List.forall_mem_nil _

/-- A visit is made before anything is noted of its nodes, if that which makes it is. -/
theorem Calls.fresh (h : v.Calls w) (fresh : v.Fresh T) : w.Fresh T := by
  have wf := fresh.wellFormed
  cases h with
  | assigned | callee | binaryLeft | logicalLeft | firstExpression =>
    exact fresh.head trivial rfl rfl
  | getObject | grouping | unary | «variable» => exact fresh.whole trivial rfl rfl
  | assign | arguments | binaryRight | logicalRight | otherExpressions =>
    exact fresh.last trivial rfl (Expr.walked _ _).distances
  | setValue =>
    exact fresh.part [] _ trivial List.perm_append_comm fun _ _ => rfl
  | setObject =>
    refine fresh.part _ [] trivial ?_ (Expr.walked _ _).distances
    rw [List.append_nil]
    exact List.perm_append_comm
  | «super» | this => exact fresh.whole trivial rfl rfl
  | located =>
    refine fresh.whole trivial rfl ?_
    dsimp only
    unfold Survey.checkRead
    split <;> rfl
  | block => exact fresh.whole wf rfl rfl
  | declaresClass | definesClass | declaresFunction | definesFunction | declaresVariable
    | definesVariable | parameters | declaresParameter | definesParameter | otherParameters =>
    exact .of_nil trivial rfl
  | superclass =>
    refine fresh.head trivial rfl ?_
    exact (Survey.distances_atSuperclass _ _ _).trans (Survey.distances_bind _ _)
  | methods =>
    refine fresh.last wf.2.2 rfl fun id hid => ?_
    dsimp only
    rw [(Survey.walked_enterClass _ _ _).distances id hid, Survey.distances_bind]
  | expression | print => exact fresh.whole trivial rfl rfl
  | function => exact fresh.whole wf rfl (Survey.distances_bind _ _)
  | ifThenCondition | ifElseCondition | whileCondition => exact fresh.head trivial rfl rfl
  | ifThen => exact fresh.last wf.2.1 rfl (Expr.walked _ _).distances
  | whileBody => exact fresh.last wf.2.1 rfl (Expr.walked _ _).distances
  | ifElseThen => exact fresh.part _ _ wf.2.1 (.refl _) (Expr.walked _ _).distances
  | ifElse =>
    refine fresh.last wf.2.2.2.1 (List.append_assoc _ _ _).symm fun id hid => ?_
    rw [List.mem_append, not_or] at hid
    dsimp only
    rw [(Stmt.walked _ _ wf.2.1).distances id hid.2, (Expr.walked _ _).distances id hid.1]
  | returning => exact fresh.whole trivial rfl (Survey.distances_noteReturn _ _ true)
  | initializer => exact fresh.whole trivial rfl (Survey.distances_declare _ _)
  | firstStatement => exact fresh.head wf.1 rfl rfl
  | otherStatements => exact fresh.last wf.2 rfl (Stmt.walked _ _ wf.1).distances
  | body => exact fresh.whole wf.2.2 rfl (Survey.distances_bindAll _ _)
  | firstMethod => exact fresh.head wf.1 rfl rfl
  | otherMethods => exact fresh.last wf.2 rfl (FunctionDecl.walked _ _ _ wf.1).distances

/-- Every visit in the course of one whose nodes are fresh is made before anything is noted of its
nodes. -/
theorem Reaches.fresh (h : v.Reaches w) (fresh : v.Fresh T) : w.Fresh T := by
  induction h with
  | refl => exact fresh
  | tail _ calls ih => exact calls.fresh ih

end Visit

/-- The visit with which the survey of a program begins. -/
def Visit.ofProgram (statements : List Stmt) : Visit :=
  ⟨.statements statements, Survey.start⟩

/-! ## Nodes that were read -/

theorem Site.filter_node?_eq_singleton {sites : List Site} {site : Site} {id : ExprId}
    (nodup : (sites.filterMap Site.node?).Nodup) (inside : site ∈ sites)
    (node : site.node? = some id) : sites.filter (·.node? = some id) = [site] := by
  induction sites with
  | nil => cases inside
  | cons first sites ih =>
    cases e : first.node? with
    | none =>
      rw [List.filterMap_cons_none e] at nodup
      have other : site ≠ first := by
        rintro rfl
        rw [e] at node
        cases node
      rw [List.filter_cons_of_neg (by simp [e])]
      exact ih nodup (List.mem_of_ne_of_mem other inside)
    | some first' =>
      rw [List.filterMap_cons_some e, List.nodup_cons] at nodup
      by_cases same : first' = id
      · subst same
        have others : ∀ s ∈ sites, s.node? ≠ some first' := fun s hs e' =>
          nodup.1 (List.mem_filterMap.mpr ⟨s, hs, e'⟩)
        have here : site = first := by
          rcases List.mem_cons.mp inside with here | later
          · exact here
          · exact absurd node (others site later)
        rw [here, List.filter_cons_of_pos (by simp [e]),
          List.filter_eq_nil_iff.mpr fun s hs => by simpa using others s hs]
      · have other : site ≠ first := by
          rintro rfl
          rw [e] at node
          exact same (Option.some.inj node)
        rw [List.filter_cons_of_neg (by simp [e, same])]
        exact ih nodup.2 (List.mem_of_ne_of_mem other inside)

/-- Nodes have numbers of their own, below the number that the next node would have, both in the
statements of a program and in a single expression. So the survey of a program, even one that is
rejected, notes a distance for a node only where nothing has been noted for it yet; and every
distance was noted there, and is that of one site of the program, which is the only one with this
node. -/
theorem nodes_have_own_numbers (tokens : List Token) :
    (∀ ss, (Program.ofTokens tokens).statements? = .ok ss →
      (Stmt.idsList ss).Nodup ∧ (∀ id ∈ Stmt.idsList ss, id < (Program.ofTokens tokens).nextId) ∧
      (∀ id name s, (Visit.ofProgram ss).Reaches ⟨.location id name, s⟩ →
        s.distances[id]? = none) ∧
      ∀ id n, (Stmt.surveyList ss Survey.start).distances[id]? = some n →
        (∃ name s, (Visit.ofProgram ss).Reaches ⟨.location id name, s⟩ ∧
          s.scopes.findIdx? (·.contains name.text) = some n) ∧
        ∃ site, (Site.all ss).filter (·.node? = some id) = [site] ∧
          site.note? = some (id, n)) ∧
    ∀ e, Expr.ofTokens tokens = .ok e →
      ∃ c, Rule.wholeExpression (depth tokens) ⟨tokens, 0⟩ = .ok e c ∧
        e.ids.Nodup ∧ ∀ id ∈ e.ids, id < c.nextId := by
  have anyToken : ∀ t ∈ tokens, (fun _ => True : Token → Prop) t := fun _ _ => trivial
  refine ⟨fun ss read => ?_, fun e read => ?_⟩
  · obtain ⟨noErrors, rfl⟩ := Program.statements?_eq_ok read
    obtain ⟨wf, numbered⟩ := Program.read_ofTokens anyToken noErrors
    have start : (Visit.ofProgram (Program.ofTokens tokens).statements).Fresh fun _ => True :=
      ⟨wf, numbered.nodup, fun _ _ => Std.TreeMap.getElem?_emptyc⟩
    refine ⟨numbered.nodup, fun id hid => (numbered.bounds id hid).2, ?_, ?_⟩
    · intro id name s reached
      exact (reached.fresh start).unnoted id (List.mem_singleton_self id)
    · intro id n known
      have noted := Stmt.accounts_list _ _ id n known
      obtain ⟨finds, -⟩ := Stmt.findsList _ wf Survey.Stands.start
      have sites := finds.only id n known
      have unknown : Survey.start.distances[id]? ≠ some n := by
        simp [Survey.start]
      obtain ⟨site, inside, entry⟩ := sites.resolve_left unknown
      have nodup := numbered.nodup
      rw [← Stmt.nodes_sitesList _ []] at nodup
      exact ⟨noted.resolve_left unknown, site,
        Site.filter_node?_eq_singleton nodup inside (Site.node?_of_note? entry), entry⟩
  · have whole : Rule.Ensures (fun _ => True) (Rule.wholeExpression (depth tokens)) 0
        fun e hi => e.Read (fun _ => True) 0 hi := by
      refine Rule.ensures_bind ((Rule.expressions _).expression _) fun e _ read => ?_
      refine Rule.ensures_bind Rule.ensures_atEnd fun ended _ same => ?_
      subst same
      split
      · exact Rule.ensures_pure read
      · exact Rule.ensures_fail
    unfold Expr.ofTokens at read
    split at read
    · rename_i e' c found
      cases read
      obtain ⟨-, -, numbered⟩ := whole ⟨tokens, 0⟩ anyToken rfl e c found
      exact ⟨c, found, numbered.nodup, fun id hid => (numbered.bounds id hid).2⟩
    · cases read

theorem own_numbers_in_class : ∃ ss e,
    (Program.ofTokens (tokensOf
      "class B < A \x7b m(x) \x7b this.f = x; return super.m(x); \x7d \x7d")).statements? = .ok ss ∧
    Stmt.idsList ss = [0, 1, 2, 3, 4] ∧
    (Stmt.surveyList ss Survey.start).distances[3]? = some 2 ∧
    (∃ name s, (Visit.ofProgram ss).Reaches ⟨.location 3 name, s⟩ ∧ s.distances[3]? = none) ∧
    (∃ site, (Site.all ss).filter (·.node? = some 3) = [site] ∧ site.note? = some (3, 2)) ∧
    Expr.ofTokens (tokensOf "(a = b).c = d(a)") = .ok e ∧ e.ids = [1, 2, 3, 4] ∧
    ∃ c, Rule.wholeExpression (depth (tokensOf "(a = b).c = d(a)"))
      ⟨tokensOf "(a = b).c = d(a)", 0⟩ = .ok e c ∧ ∀ id ∈ e.ids, id < c.nextId := by
  let ss : List Stmt :=
    [.classDecl ⟨"B", 1⟩ (some ⟨0, ⟨"A", 1⟩⟩) [⟨⟨"m", 1⟩, [⟨"x", 1⟩],
      [.expression (.set (.this 1 ⟨"this", 1⟩) ⟨"f", 1⟩ (.variable 2 ⟨"x", 1⟩)),
        .returning ⟨"return", 1⟩ (some (.call (.super 3 ⟨"super", 1⟩ ⟨"m", 1⟩) ⟨")", 1⟩
          [.variable 4 ⟨"x", 1⟩]))]⟩]]
  let e : Expr :=
    .set (.grouping (.assign 2 ⟨"a", 1⟩ (.variable 1 ⟨"b", 1⟩))) ⟨"c", 1⟩
      (.call (.variable 3 ⟨"d", 1⟩) ⟨")", 1⟩ [.variable 4 ⟨"a", 1⟩])
  have read : (Program.ofTokens (tokensOf
      "class B < A \x7b m(x) \x7b this.f = x; return super.m(x); \x7d \x7d")).statements? =
        .ok ss := by
    cbv
  have read' : Expr.ofTokens (tokensOf "(a = b).c = d(a)") = .ok e := by cbv
  have known : (Stmt.surveyList ss Survey.start).distances[3]? = some 2 := by cbv
  obtain ⟨-, -, unnoted, noted⟩ := (nodes_have_own_numbers _).1 ss read
  obtain ⟨c, all, -, below⟩ := (nodes_have_own_numbers _).2 e read'
  obtain ⟨⟨name, s, reached, -⟩, owner⟩ := noted 3 2 known
  exact ⟨ss, e, read, rfl, known, ⟨name, s, reached, unnoted 3 name s reached⟩, owner, read', rfl,
    c, all, below⟩

end Lox
