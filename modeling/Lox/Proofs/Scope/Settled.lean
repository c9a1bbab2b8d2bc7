import Lox.Proofs.Scope.Context

/-!
# Settled contexts

A context is settled if every name of its scopes is defined (`Context.Settled`), as it is wherever a
statement stands. While a variable is declared, its name alone is not yet defined
(`Context.Proper`). In both, `this` and `super` are bound where a class permits them.
-/

namespace Lox

/-- Every name of the scope is defined. -/
def Scope.Complete (scope : Scope) : Prop :=
  ∀ name : String, scope[name]? ≠ some .declared

namespace Context

/-- Inside a class `this` is bound, and `super` one scope further out if there is a superclass. -/
structure BindsReceiver (Γ : Context) : Prop where
  this : Γ.enclosingClass ≠ .none → ∃ d, Γ.distance? "this" = some d
  super : Γ.enclosingClass = .derived →
    ∃ d, Γ.distance? "this" = some d ∧ Γ.distance? "super" = some (d + 1)

/-- Every name of the scopes is defined. -/
structure Settled (Γ : Context) : Prop extends BindsReceiver Γ where
  complete : ∀ scope ∈ Γ.scopes, scope.Complete

/-- A name of the scopes that is not defined is one of the innermost scope, and no keyword. -/
structure Proper (Γ : Context) : Prop extends BindsReceiver Γ where
  complete : ∀ scope ∈ Γ.scopes.tail, scope.Complete
  pending : ∀ name, Γ.Pending name → ∀ k : Keyword, name ≠ k.text

theorem Settled.not_pending {Γ : Context} (h : Γ.Settled) (name : String) : ¬ Γ.Pending name := by
  rintro ⟨scope, first, e⟩
  exact h.complete scope (List.mem_of_mem_head? first) name e

theorem Settled.proper {Γ : Context} (h : Γ.Settled) : Γ.Proper :=
  ⟨h.toBindsReceiver, fun scope inside => h.complete scope (List.mem_of_mem_tail inside),
    fun name pending => absurd pending (h.not_pending name)⟩

/-! ## Distances -/

/-- A name that lies some scopes out is defined there, or is pending. -/
theorem Proper.defined_or_pending {Γ : Context} (h : Γ.Proper) {name : String} {d : Nat}
    (e : Γ.distance? name = some d) :
    ∃ scope, Γ.scopes[d]? = some scope ∧
      (scope[name]? = some .defined ∨ d = 0 ∧ Γ.Pending name) := by
  obtain ⟨inside, holds, -⟩ := List.findIdx?_eq_some_iff_getElem.mp e
  have there := List.getElem?_eq_getElem inside
  refine ⟨Γ.scopes[d], there, ?_⟩
  rw [Std.TreeMap.contains_eq_isSome_getElem?] at holds
  obtain ⟨status, known⟩ := Option.isSome_iff_exists.mp holds
  cases status with
  | defined => exact .inl known
  | declared =>
    cases d with
    | zero => exact .inr ⟨rfl, _, by rwa [List.head?_eq_getElem?], known⟩
    | succ d =>
      refine absurd known (h.complete _ ?_ name)
      rw [List.mem_iff_getElem?]
      exact ⟨d, by rwa [List.getElem?_tail]⟩

/-- A name that may be read is defined where it lies. -/
theorem Proper.defined_of_not_pending {Γ : Context} (h : Γ.Proper) {name : String} {d : Nat}
    (readable : ¬ Γ.Pending name) (e : Γ.distance? name = some d) :
    ∃ scope, Γ.scopes[d]? = some scope ∧ scope[name]? = some .defined := by
  obtain ⟨scope, there, defined | ⟨-, pending⟩⟩ := h.defined_or_pending e
  · exact ⟨scope, there, defined⟩
  · exact absurd pending readable

theorem Proper.defined_keyword {Γ : Context} (h : Γ.Proper) {k : Keyword} {d : Nat}
    (e : Γ.distance? k.text = some d) :
    ∃ scope, Γ.scopes[d]? = some scope ∧ scope[k.text]? = some .defined :=
  h.defined_of_not_pending (fun pending => h.pending _ pending k rfl) e

theorem distance?_enter (Γ : Context) (name : String) :
    Γ.enter.distance? name = (Γ.distance? name).map (· + 1) := by
  simp only [distance?, enter, List.findIdx?_cons, Std.TreeMap.contains_emptyc, Bool.false_eq_true,
    if_false]

theorem distance?_mark (Γ : Context) (name : String) (status : Status) (other : String)
    (apart : name ≠ other) : (Γ.mark name status).distance? other = Γ.distance? other := by
  unfold distance? mark
  split
  · rfl
  · rename_i scope outer e
    rw [e, List.findIdx?_cons, List.findIdx?_cons]
    simp only [Std.TreeMap.contains_eq_isSome_getElem?, Scope.getElem?_insert, if_neg apart]

theorem distance?_enterWith_self (Γ : Context) (keyword : String) :
    (Γ.enterWith keyword).distance? keyword = some 0 := by
  simp [distance?, enterWith, enter, define, mark, List.findIdx?_cons]

theorem distance?_enterWith (Γ : Context) (keyword other : String) (apart : keyword ≠ other) :
    (Γ.enterWith keyword).distance? other = (Γ.distance? other).map (· + 1) := by
  rw [enterWith, define, distance?_mark _ _ _ _ apart, distance?_enter]

/-! ## Steps -/

theorem enclosingClass_mark (Γ : Context) (name : String) (status : Status) :
    (Γ.mark name status).enclosingClass = Γ.enclosingClass := by
  unfold mark
  split <;> rfl

theorem BindsReceiver.enter {Γ : Context} (h : Γ.BindsReceiver) : Γ.enter.BindsReceiver where
  this inside := by
    obtain ⟨d, e⟩ := h.this inside
    exact ⟨d + 1, by rw [distance?_enter, e]; rfl⟩
  super inside := by
    obtain ⟨d, e, e'⟩ := h.super inside
    exact ⟨d + 1, by rw [distance?_enter, e]; rfl, by rw [distance?_enter, e']; rfl⟩

theorem BindsReceiver.mark {Γ : Context} (h : Γ.BindsReceiver) {name : String}
    (isName : ∀ k : Keyword, name ≠ k.text) (status : Status) :
    (Γ.mark name status).BindsReceiver where
  this inside := by
    rw [enclosingClass_mark] at inside
    rw [distance?_mark Γ name status "this" (isName .this)]
    exact h.this inside
  super inside := by
    rw [enclosingClass_mark] at inside
    rw [distance?_mark Γ name status "this" (isName .this),
      distance?_mark Γ name status "super" (isName .super)]
    exact h.super inside

namespace Settled

variable {Γ : Context}

theorem top : Context.top.Settled :=
  ⟨⟨fun h => absurd rfl h, nofun⟩, nofun⟩

theorem enter (h : Γ.Settled) : Γ.enter.Settled := by
  refine ⟨h.toBindsReceiver.enter, fun scope inside name => ?_⟩
  rcases List.mem_cons.mp inside with rfl | inside
  · rw [Std.TreeMap.getElem?_emptyc]
    exact nofun
  · exact h.complete scope inside name

theorem complete_define (h : ∀ scope ∈ Γ.scopes.tail, scope.Complete)
    {name : String} (h' : ∀ other, Γ.Pending other → other = name) :
    ∀ scope ∈ (Γ.define name).scopes, scope.Complete := by
  intro scope inside other
  unfold Context.define mark at inside
  split at inside
  · rename_i e
    rw [e] at inside
    exact absurd inside List.not_mem_nil
  · rename_i first outer e
    rcases List.mem_cons.mp inside with rfl | inside
    · rw [Scope.getElem?_insert]
      split
      · exact nofun
      · rename_i apart
        intro known
        exact apart (h' other ⟨first, by rw [e]; rfl, known⟩).symm
    · exact h scope (by rw [e]; exact inside) other

theorem pending_declare (h : Γ.Settled) {name other : String}
    (pending : (Γ.declare name).Pending other) : other = name := by
  obtain ⟨scope, first, known⟩ := pending
  unfold Context.declare mark at first
  split at first
  · rename_i e
    rw [e] at first
    cases first
  · rename_i innermost outer e
    cases first
    rw [Scope.getElem?_insert] at known
    split at known
    · rename_i same
      exact same.symm
    · exact absurd known (h.complete innermost (by rw [e]; exact List.mem_cons_self) other)

/-- While a variable is declared, only its name is pending. -/
theorem declare (h : Γ.Settled) {name : String} (isName : ∀ k : Keyword, name ≠ k.text) :
    (Γ.declare name).Proper where
  toBindsReceiver := h.toBindsReceiver.mark isName _
  complete scope inside other := by
    refine h.complete scope ?_ other
    unfold Context.declare mark at inside
    split at inside
    · exact List.mem_of_mem_tail inside
    · rename_i e
      rw [e]
      exact List.mem_cons_of_mem _ inside
  pending other pending := by rwa [h.pending_declare pending]

theorem bind (h : Γ.Settled) {name : String} (isName : ∀ k : Keyword, name ≠ k.text) :
    (Γ.bind name).Settled where
  toBindsReceiver := (h.declare isName).toBindsReceiver.mark isName _
  complete := complete_define (h.declare isName).complete fun _ => h.pending_declare

/-- Inside a class. -/
theorem enterClass (h : Γ.Settled) (superclass : Option Superclass) :
    (Γ.enterClass superclass).Settled := by
  have keyword {Δ : Context} (h : ∀ scope ∈ Δ.scopes, scope.Complete) (keyword : String) :
      ∀ scope ∈ (Δ.enterWith keyword).scopes, scope.Complete := by
    refine complete_define (Γ := Δ.enter) h fun other pending => ?_
    obtain ⟨scope, first, known⟩ := pending
    cases first
    rw [Std.TreeMap.getElem?_emptyc] at known
    cases known
  cases superclass with
  | none =>
    have this := distance?_enterWith_self { Γ with enclosingClass := .root } "this"
    exact ⟨⟨fun _ => ⟨0, this⟩, nofun⟩, keyword h.complete "this"⟩
  | some c =>
    have this := distance?_enterWith_self
      ({ Γ with enclosingClass := .derived }.enterWith "super") "this"
    have super := distance?_enterWith ({ Γ with enclosingClass := .derived }.enterWith "super")
      "this" "super" (by decide)
    rw [distance?_enterWith_self] at super
    exact ⟨⟨fun _ => ⟨0, this⟩, fun _ => ⟨0, this, super⟩⟩,
      keyword (keyword h.complete "super") "this"⟩

/-- Inside the body of a function. -/
theorem enterBody (h : Γ.Settled) (kind : BodyKind) {params : List Lexeme}
    (isName : ∀ param ∈ params, param.IsName) : (Γ.enterBody kind params).Settled := by
  have start : ({ Γ with body := kind } : Context).Settled := ⟨⟨h.this, h.super⟩, h.complete⟩
  unfold Context.enterBody
  generalize e : ({ Γ with body := kind } : Context).enter = Δ
  have inside : Δ.Settled := e ▸ start.enter
  clear e
  induction params generalizing Δ with
  | nil => exact inside
  | cons param params ih =>
    exact ih (fun p hp => isName p (List.mem_cons_of_mem _ hp)) _
      (inside.bind (isName param List.mem_cons_self))

/-- After a statement. -/
theorem after (h : Γ.Settled) {distances : Distances} {s : Stmt} (located : s.Located distances Γ) :
    (s.after Γ).Settled := by
  cases s with
  | classDecl name superclass methods => exact h.bind located.1
  | function decl => exact h.bind located.1
  | varDecl name initializer =>
    cases initializer with
    | none => exact h.bind located
    | some initializer => exact h.bind located.1
  | _ => exact h

end Settled

end Context

end Lox
