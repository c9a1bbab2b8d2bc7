import Mathlib.Data.List.Forall2
import Lox.Proofs.Scope.Places
import Lox.Proofs.Scope.Context

/-!
# Where a survey stands

A survey that has come to a place knows the scopes, the body and the class around it
(`Survey.Stands`); what an expression depends on is known in the initializer of a variable too
(`Survey.Sees`). Scopes are opened and closed and names are declared as the path says.
-/

namespace Lox

/-! ## Scopes and places -/

/-- The scope declares those names, and all of them are defined. -/
def Scope.Holds (scope : Scope) (names : List String) : Prop :=
  ∀ name : String, scope[name]? = if name ∈ names then some .defined else none

namespace Scope.Holds

variable {scope : Scope} {names : List String}

theorem empty : Scope.Holds ∅ [] := by
  intro name
  rw [Std.TreeMap.getElem?_emptyc, if_neg List.not_mem_nil]

theorem contains (h : scope.Holds names) (name : String) :
    scope.contains name = decide (name ∈ names) := by
  rw [Std.TreeMap.contains_eq_isSome_getElem?, h name]
  split <;> simp [*]

theorem contains_insert (h : scope.Holds names) (name : String) (status : Status)
    (other : String) :
    (scope.insert name status).contains other = decide (other ∈ name :: names) := by
  rw [Std.TreeMap.contains_eq_isSome_getElem?, Scope.getElem?_insert, h other]
  by_cases e : name = other
  · simp [e]
  · by_cases inside : other ∈ names <;> simp [e, Ne.symm e, inside]

theorem ne_declared (h : scope.Holds names) (name : String) : scope[name]? ≠ some .declared := by
  rw [h name]
  split <;> nofun

/-- One more name is defined, whatever its status was before. -/
theorem define (h : ∀ other, other ≠ name → scope[other]? = if other ∈ names then some .defined
    else none) : Scope.Holds (scope.insert name .defined) (name :: names) := by
  intro other
  rw [Scope.getElem?_insert]
  by_cases e : name = other
  · simp [e]
  · rw [if_neg e, h other (Ne.symm e)]
    simp [Ne.symm e]

theorem insert (h : scope.Holds names) (name : String) :
    Scope.Holds (scope.insert name .defined) (name :: names) :=
  define fun other _ => h other

end Scope.Holds

/-- The scopes hold the names, so a name is found equally far out. -/
theorem findIdx?_of_holds {scopes : List Scope} {names : List (List String)}
    (h : List.Forall₂ Scope.Holds scopes names) (name : String) :
    scopes.findIdx? (·.contains name) = names.findIdx? (name ∈ ·) := by
  induction h with
  | nil => rfl
  | cons first _ ih => simp only [List.findIdx?_cons, first.contains, ih]

namespace Path

theorem not_pending_past (name : String) (p : Path) (other : String) :
    ¬ Path.Pending (.past name :: p) other :=
  fun h => nomatch h.1

theorem not_pending_block (p : Path) (other : String) : ¬ Path.Pending (.block :: p) other :=
  fun h => nomatch h.1

theorem not_pending_body (kind : BodyKind) (p : Path) (other : String) :
    ¬ Path.Pending (.body kind :: p) other :=
  fun h => nomatch h.1

theorem not_pending_methods (derived : Bool) (p : Path) (other : String) :
    ¬ Path.Pending (.methods derived :: p) other :=
  fun h => nomatch h.1

/-- The innermost scope of `q` lies in `p`. -/
structure Within (q p : Path) : Prop where
  scopes : ∃ names, q.scopes = names :: p.scopes
  globals : q.globals = p.globals
  enclosingClass : q.enclosingClass = p.enclosingClass

namespace Within

variable {p q : Path}

theorem block (p : Path) : Within (.block :: p) p :=
  ⟨⟨[], rfl⟩, rfl, rfl⟩

theorem body (kind : BodyKind) (p : Path) : Within (.body kind :: p) p :=
  ⟨⟨[], rfl⟩, rfl, rfl⟩

theorem past (h : q.Within p) (name : String) : Within (.past name :: q) p := by
  obtain ⟨⟨names, scopes⟩, globals, enclosingClass⟩ := h
  refine ⟨⟨name :: names, ?_⟩, ?_, enclosingClass⟩
  · rw [Path.scopes, scopes, addName]
  · rw [Path.globals, if_neg (by rw [scopes]; exact List.cons_ne_nil _ _), globals]

end Within

end Path

/-- The place after statements. -/
def Stmt.passList (ss : List Stmt) (p : Path) : Path :=
  ss.foldl (fun p s => s.pass p) p

theorem Stmt.pass_of_none {s : Stmt} (h : s.declared? = none) (p : Path) : s.pass p = p := by
  rw [Stmt.pass, h]

theorem Path.Within.passList {p q : Path} (ss : List Stmt) (h : q.Within p) :
    (Stmt.passList ss q).Within p := by
  induction ss generalizing q with
  | nil => exact h
  | cons s ss ih =>
    refine ih (q := s.pass q) ?_
    unfold Stmt.pass
    split
    · exact h.past _
    · exact h

theorem Path.Within.pass {p q : Path} (params : List Lexeme) (h : q.Within p) :
    (Lexeme.pass params q).Within p := by
  induction params generalizing q with
  | nil => exact h
  | cons param params ih => exact ih (h.past param.text)

/-! ## Where a survey stands -/

namespace Survey

/-- What an expression depends on is known as it is at the place. -/
structure Sees (s : Survey) (p : Path) : Prop where
  distance : ∀ name, s.scopes.findIdx? (·.contains name) = p.distance? name
  pending : ∀ name, s.status? name = some .declared ↔ p.Pending name
  enclosingClass : s.enclosingClass = p.enclosingClass

/-- The survey has come to the place, where a statement may stand. -/
structure Stands (s : Survey) (p : Path) : Prop where
  scopes : List.Forall₂ Scope.Holds s.scopes p.scopes
  globals : s.globals.Holds p.globals
  body : s.body = p.body
  enclosingClass : s.enclosingClass = p.enclosingClass
  readable : ∀ name, ¬ p.Pending name

namespace Stands

variable {s s' : Survey} {p q : Path}

theorem start : Survey.start.Stands [] :=
  ⟨.nil, .empty, rfl, rfl, fun _ h => nomatch h.1⟩

theorem sees (h : s.Stands p) : s.Sees p := by
  refine ⟨findIdx?_of_holds h.scopes, fun name => ?_, h.enclosingClass⟩
  refine ⟨fun declared => absurd declared ?_, fun pending => absurd pending (h.readable name)⟩
  have scopes := h.scopes
  unfold status?
  cases e : s.scopes with
  | nil => exact h.globals.ne_declared name
  | cons scope outer =>
    rw [e] at scopes
    obtain ⟨names, outer', first, -, -⟩ := List.forall₂_cons_left_iff.mp scopes
    exact first.ne_declared name

theorem congr (h : s.Stands p) (scopes : s'.scopes = s.scopes) (globals : s'.globals = s.globals)
    (body : s'.body = s.body) (enclosingClass : s'.enclosingClass = s.enclosingClass) :
    s'.Stands p :=
  ⟨scopes ▸ h.scopes, globals ▸ h.globals, body.trans h.body, enclosingClass.trans h.enclosingClass,
    h.readable⟩

theorem enter (h : s.Stands p) : s.enter.Stands (.block :: p) :=
  ⟨.cons .empty h.scopes, h.globals, h.body, h.enclosingClass, Path.not_pending_block p⟩

theorem enterBody (h : s.Stands p) (kind : BodyKind) :
    ({ s with body := kind } : Survey).enter.Stands (.body kind :: p) :=
  ⟨.cons .empty h.scopes, h.globals, rfl, h.enclosingClass, Path.not_pending_body kind p⟩

/-- After the innermost scope was closed. -/
theorem leave (inside : s'.Stands q) (within : q.Within p) (h : s.Stands p) :
    ({ s'.leave with body := s.body } : Survey).Stands p := by
  obtain ⟨⟨names, scopes⟩, globals, enclosingClass⟩ := within
  refine ⟨?_, globals ▸ inside.globals, h.body, inside.enclosingClass.trans enclosingClass,
    h.readable⟩
  have inner := inside.scopes
  rw [scopes] at inner
  unfold Survey.leave
  cases e : s'.scopes with
  | nil => rw [e] at inner; cases inner
  | cons scope outer =>
    rw [e] at inner
    cases inner with
    | cons _ outer => exact outer

end Stands

/-! ## Declarations -/

theorem scopes_declare_of_nil {s : Survey} (h : s.scopes = []) (name : Lexeme) :
    (s.declare name).scopes = [] ∧
      (s.declare name).globals = s.globals.insertIfNew name.text .declared := by
  unfold declare
  split
  · exact ⟨h, rfl⟩
  · rename_i e
    rw [h] at e
    cases e

theorem scopes_declare_of_cons {s : Survey} {scope : Scope} {outer : List Scope}
    (h : s.scopes = scope :: outer) (name : Lexeme) :
    (s.declare name).scopes = scope.insert name.text .declared :: outer ∧
      (s.declare name).globals = s.globals := by
  unfold declare
  rw [h]
  dsimp only
  split <;> exact ⟨rfl, rfl⟩

theorem distances_define (s : Survey) (name : String) :
    (s.define name).errors = s.errors ∧ (s.define name).distances = s.distances := by
  unfold define
  split <;> exact ⟨rfl, rfl⟩

theorem rest_declare (s : Survey) (name : Lexeme) :
    (s.declare name).body = s.body ∧ (s.declare name).enclosingClass = s.enclosingClass := by
  unfold declare
  split
  · exact ⟨rfl, rfl⟩
  · dsimp only
    split <;> exact ⟨rfl, rfl⟩

namespace Stands

variable {s s' : Survey} {p : Path}

/-- While the initializer of a variable is read. -/
theorem initializer (h : s.Stands p) (name : Lexeme) :
    (s.declare name).Sees (.initializer name.text :: p) := by
  have known := h.scopes
  obtain ⟨-, enclosingClass⟩ := rest_declare s name
  cases e : s.scopes with
  | nil =>
    rw [e, List.forall₂_nil_left_iff] at known
    obtain ⟨scopes, globals⟩ := scopes_declare_of_nil e name
    refine ⟨fun other => ?_, fun other => ?_, enclosingClass.trans h.enclosingClass⟩
    · rw [scopes, Path.distance?, Path.scopes, known]
      rfl
    · have status : (s.declare name).status? other =
          if name.text = other ∧ name.text ∉ s.globals then some .declared
          else s.globals[other]? := by
        unfold status?
        rw [scopes, globals]
        simp only [List.headD_nil, Std.TreeMap.getElem?_insertIfNew,
          Std.LawfulEqCmp.compare_eq_iff_eq]
      have declared : name.text ∈ s.globals ↔ name.text ∈ p.globals := by
        rw [Std.TreeMap.mem_iff_contains, h.globals.contains, decide_eq_true_iff]
      rw [status]
      unfold Path.Pending
      simp only [List.head?_cons, Option.some.injEq, Way.initializer.injEq, Path.scopes, known,
        Path.addName, Path.globals, declared]
      split
      · rename_i new
        simp only [true_iff]
        exact ⟨new.1, fun _ => new.1 ▸ new.2⟩
      · rename_i old
        simp only [h.globals.ne_declared, false_iff]
        exact fun pending => old ⟨pending.1, pending.1 ▸ pending.2 trivial⟩
  | cons scope outer =>
    rw [e] at known
    obtain ⟨names, outer', first, others, known'⟩ := List.forall₂_cons_left_iff.mp known
    obtain ⟨scopes, -⟩ := scopes_declare_of_cons e name
    refine ⟨fun other => ?_, fun other => ?_, enclosingClass.trans h.enclosingClass⟩
    · rw [scopes, Path.distance?, Path.scopes, known', Path.addName, List.findIdx?_cons,
        List.findIdx?_cons, findIdx?_of_holds others, first.contains_insert]
    · unfold status? Path.Pending
      rw [scopes, List.headD_cons, Scope.getElem?_insert]
      simp only [List.head?_cons, Option.some.injEq, Way.initializer.injEq, Path.scopes, known',
        Path.addName, reduceCtorEq, false_implies, and_true]
      split
      · rename_i same
        simp [same]
      · rename_i apart
        simp [apart, first.ne_declared]

/-- After the declaration of a name, between the beginning and the end of which only distances and
errors are noted. -/
theorem define (h : s.Stands p) {name : Lexeme} (scopes : s'.scopes = (s.declare name).scopes)
    (globals : s'.globals = (s.declare name).globals) (body : s'.body = s.body)
    (enclosingClass : s'.enclosingClass = s.enclosingClass) :
    (s'.define name.text).Stands (.past name.text :: p) := by
  have known := h.scopes
  cases e : s.scopes with
  | nil =>
    rw [e, List.forall₂_nil_left_iff] at known
    obtain ⟨scopes', globals'⟩ := scopes_declare_of_nil e name
    rw [scopes'] at scopes
    rw [globals'] at globals
    simp only [Survey.define, scopes]
    refine ⟨?_, ?_, body.trans h.body, enclosingClass.trans h.enclosingClass,
      Path.not_pending_past _ p⟩
    · rw [Path.scopes, known, Path.addName]
      exact .nil
    · rw [Path.globals, if_pos known, globals]
      refine Scope.Holds.define fun other apart => ?_
      rw [← h.globals other, Std.TreeMap.getElem?_insertIfNew]
      simp only [Std.LawfulEqCmp.compare_eq_iff_eq, Ne.symm apart, false_and, if_false]
  | cons scope outer =>
    rw [e] at known
    obtain ⟨names, outer', first, others, known'⟩ := List.forall₂_cons_left_iff.mp known
    obtain ⟨scopes', globals'⟩ := scopes_declare_of_cons e name
    rw [scopes'] at scopes
    rw [globals'] at globals
    simp only [Survey.define, scopes]
    refine ⟨?_, ?_, body.trans h.body, enclosingClass.trans h.enclosingClass,
      Path.not_pending_past _ p⟩
    · rw [Path.scopes, known', Path.addName]
      refine .cons (Scope.Holds.define fun other apart => ?_) others
      rw [Scope.getElem?_insert, if_neg (Ne.symm apart), first other]
    · rw [Path.globals, if_neg (by rw [known']; exact List.cons_ne_nil _ _)]
      exact globals ▸ h.globals

theorem bind (h : s.Stands p) (name : Lexeme) :
    ((s.declare name).define name.text).Stands (.past name.text :: p) :=
  h.define rfl rfl (rest_declare s name).1 (rest_declare s name).2

end Stands

end Survey

end Lox
