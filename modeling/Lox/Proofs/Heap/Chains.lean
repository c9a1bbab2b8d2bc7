import Lox.Heap.Lemmas
import Lox.Proofs.Scope.Context
import Lox.Proofs.Eval.Laws

/-!
# Chains of frames

A heap that grows keeps its frames, their links, the names that they bind (`Heap.Extends`), and what
they bind the keywords to (`Heap.Grows`). A chain of frames mirrors the local scopes at a place of
the program if it has one frame for each scope, with the names that are defined there, and then ends
at the global frame (`Heap.Mirrors`). It does so still when the heap has grown (`Mirrors.grows`).
-/

namespace Lox.Heap

/-- The frame exactly `distance` links out from `f`, if there are so many links. -/
def outward? (h : Heap) (f : FrameId) : Nat → Option FrameId
  | 0 => some f
  | distance + 1 => (h.enclosing? f).bind (h.outward? · distance)

/-- Where there are enough links, the walk outward does not stop before its end. -/
theorem ancestor_of_outward? {h : Heap} {f g : FrameId} {distance : Nat}
    (e : h.outward? f distance = some g) : h.ancestor f distance = g := by
  induction distance generalizing f with
  | zero => exact Option.some.inj e
  | succ distance ih =>
    obtain ⟨outer, link, e⟩ := Option.bind_eq_some_iff.mp e
    rw [ancestor, link]
    exact ih e

theorem getAt_of_outward? {h : Heap} {f g : FrameId} {distance : Nat} {name : String} {v : Value}
    (e : h.outward? f distance = some g) (bound : h.lookup? g name = some v) :
    h.getAt f distance name = v := by
  rw [getAt, ancestor_of_outward? e, bound, Option.getD_some]

theorem lt_size_of_enclosing? {h : Heap} {f g : FrameId} (e : h.enclosing? f = some g) :
    f < h.frames.size := by
  obtain ⟨frame, e, -⟩ := Option.bind_eq_some_iff.mp e
  exact (Array.getElem?_eq_some_iff.mp e).1

theorem lt_size_of_lookup? {h : Heap} {f : FrameId} {name : String} {v : Value}
    (e : h.lookup? f name = some v) : f < h.frames.size := by
  obtain ⟨frame, e, -⟩ := Option.bind_eq_some_iff.mp e
  exact (Array.getElem?_eq_some_iff.mp e).1

/-! ## Growth -/

/-- `h'` is `h` after the name was bound to the value in the frame. -/
structure Binds (h : Heap) (f : FrameId) (name : String) (v : Value) (h' : Heap) : Prop where
  size : h'.frames.size = h.frames.size
  link : ∀ g, h'.enclosing? g = h.enclosing? g
  lookup : ∀ g other, h'.lookup? g other =
    if g = f ∧ f < h.frames.size ∧ other = name then some v else h.lookup? g other
  fields : h'.fields = h.fields

theorem binds_define (h : Heap) (f : FrameId) (name : String) (v : Value) :
    h.Binds f name v (h.define f name v) :=
  ⟨size_define h f name v, enclosing?_define h f name v, lookup?_define h f name v, rfl⟩

theorem binds_declare (h : Heap) (f : FrameId) (name : String) :
    h.Binds f name ((h.lookup? f name).getD .nil) (h.declare f name) :=
  ⟨size_declare h f name, enclosing?_declare h f name, lookup?_declare h f name, rfl⟩

/-- `h'` keeps the frames of `h`, their links, and the names that they bind. -/
structure Extends (h h' : Heap) : Prop where
  size : h.frames.size ≤ h'.frames.size
  link : ∀ f < h.frames.size, h'.enclosing? f = h.enclosing? f
  bound : ∀ f name, (h.lookup? f name).isSome → (h'.lookup? f name).isSome

namespace Extends

theorem refl (h : Heap) : h.Extends h :=
  ⟨Nat.le_refl _, fun _ _ => rfl, fun _ _ => id⟩

theorem trans {h₁ h₂ h₃ : Heap} (a : h₁.Extends h₂) (b : h₂.Extends h₃) : h₁.Extends h₃ where
  size := Nat.le_trans a.size b.size
  link f inside := (b.link f (Nat.lt_of_lt_of_le inside a.size)).trans (a.link f inside)
  bound f name e := b.bound f name (a.bound f name e)

theorem push (h : Heap) (outer : Option FrameId) : h.Extends (h.push outer) where
  size := by rw [size_push]; exact Nat.le_succ _
  link f inside := by rw [enclosing?_push, if_neg (Nat.ne_of_lt inside)]
  bound f name e := by rwa [lookup?_push]

theorem pushInstance (h : Heap) : h.Extends h.pushInstance :=
  ⟨Nat.le_refl _, fun _ _ => rfl, fun _ _ => id⟩

theorem setField (h : Heap) (o : InstanceId) (name : String) (v : Value) :
    h.Extends (h.setField o name v) :=
  ⟨Nat.le_refl _, fun _ _ => rfl, fun _ _ => id⟩

end Extends

theorem Binds.isExtension {h h' : Heap} {f : FrameId} {name : String} {v : Value}
    (b : h.Binds f name v h') : h.Extends h' where
  size := Nat.le_of_eq b.size.symm
  link g _ := b.link g
  bound g other e := by
    rw [b.lookup]
    split
    · rfl
    · exact e

/-- `h'` extends `h`, and the frames of `h` still bind the keywords to the same values. -/
structure Grows (h h' : Heap) : Prop extends Extends h h' where
  keyword : ∀ f < h.frames.size, ∀ k : Keyword, h'.lookup? f k.text = h.lookup? f k.text

namespace Grows

theorem refl (h : Heap) : h.Grows h :=
  ⟨.refl h, fun _ _ _ => rfl⟩

theorem trans {h₁ h₂ h₃ : Heap} (a : h₁.Grows h₂) (b : h₂.Grows h₃) : h₁.Grows h₃ where
  toExtends := a.toExtends.trans b.toExtends
  keyword f inside k :=
    (b.keyword f (Nat.lt_of_lt_of_le inside a.size) k).trans (a.keyword f inside k)

/-- Links stay. -/
theorem link_of_eq {h h' : Heap} (grows : h.Grows h') {f g : FrameId}
    (e : h.enclosing? f = some g) : h'.enclosing? f = some g :=
  (grows.link f (lt_size_of_enclosing? e)).trans e

/-- What a keyword is bound to stays. -/
theorem keyword_of_eq {h h' : Heap} (grows : h.Grows h') {f : FrameId} {k : Keyword} {v : Value}
    (e : h.lookup? f k.text = some v) : h'.lookup? f k.text = some v :=
  (grows.keyword f (lt_size_of_lookup? e) k).trans e

theorem push (h : Heap) (outer : Option FrameId) : h.Grows (h.push outer) :=
  ⟨.push h outer, fun f _ k => lookup?_push h outer f k.text⟩

theorem pushInstance (h : Heap) : h.Grows h.pushInstance :=
  ⟨.pushInstance h, fun _ _ _ => rfl⟩

theorem setField (h : Heap) (o : InstanceId) (name : String) (v : Value) :
    h.Grows (h.setField o name v) :=
  ⟨.setField h o name v, fun _ _ _ => rfl⟩

/-- A heap grows also by a definition after it grew, if the definition is of no keyword or in a
frame that it did not have. -/
theorem define {h h' : Heap} (grows : h.Grows h') {f : FrameId} {name : String} (v : Value)
    (apart : (∀ k : Keyword, name ≠ k.text) ∨ h.frames.size ≤ f) :
    h.Grows (h'.define f name v) where
  toExtends := grows.toExtends.trans (binds_define h' f name v).isExtension
  keyword g inside k := by
    rw [lookup?_define, if_neg, grows.keyword g inside k]
    rintro ⟨rfl, -, e⟩
    rcases apart with noKeyword | new
    · exact noKeyword k e.symm
    · exact absurd inside (Nat.not_lt.mpr new)

theorem declare {h : Heap} {f : FrameId} {name : String} (apart : ∀ k : Keyword, name ≠ k.text) :
    h.Grows (h.declare f name) where
  toExtends := (binds_declare h f name).isExtension
  keyword g _ k := by
    rw [lookup?_declare, if_neg]
    rintro ⟨-, -, e⟩
    exact apart k e.symm

/-- The parameters of a call are bound in a frame of its own. -/
theorem defineAll {h h' : Heap} (grows : h.Grows h') {f : FrameId} (new : h.frames.size ≤ f)
    (params : List Lexeme) (vs : List Value) : h.Grows (h'.defineAll f params vs) := by
  induction params generalizing vs h' with
  | nil => exact grows
  | cons param params ih =>
    cases vs with
    | nil => exact grows
    | cons v vs => exact ih (grows.define v (.inr new)) vs

end Grows

/-! ## Scopes and frames -/

/-- From `f` outward there is a frame for each of the scopes, made after the one around it, which
binds what is defined there and no keyword that is not in the scope, and then the global frame. -/
inductive Mirrors (h : Heap) (globals : FrameId) : List Scope → FrameId → Prop
  | nil : Mirrors h globals [] globals
  | cons {scope : Scope} {scopes : List Scope} {f g : FrameId} (isLocal : f ≠ globals)
    (earlier : g < f) (bound : ∀ name, scope[name]? = some .defined → (h.lookup? f name).isSome)
    (keyword : ∀ k : Keyword, (h.lookup? f k.text).isSome → scope[k.text]?.isSome)
    (link : h.enclosing? f = some g) (outer : Mirrors h globals scopes g) :
    Mirrors h globals (scope :: scopes) f

namespace Mirrors

variable {h : Heap} {globals f : FrameId} {scopes : List Scope}

theorem grows (m : h.Mirrors globals scopes f) {h' : Heap} (grows : h.Grows h') :
    h'.Mirrors globals scopes f := by
  induction m with
  | nil => exact .nil
  | cons isLocal earlier bound keyword link _ ih =>
    have inside := lt_size_of_enclosing? link
    refine .cons isLocal earlier (fun name e => grows.bound _ _ (bound name e)) (fun k e => ?_)
      ((grows.link _ inside).trans link) ih
    rw [grows.keyword _ inside k] at e
    exact keyword k e

/-- Only the frames up to the innermost one matter. -/
theorem congr (m : h.Mirrors globals scopes f) {h' : Heap}
    (link : ∀ g ≤ f, h'.enclosing? g = h.enclosing? g)
    (lookup : ∀ g ≤ f, ∀ name, h'.lookup? g name = h.lookup? g name) :
    h'.Mirrors globals scopes f := by
  induction m with
  | nil => exact .nil
  | @cons _ _ f g isLocal earlier bound keyword link' _ ih =>
    have below {g' : FrameId} (le : g' ≤ g) : g' ≤ f := Nat.le_trans le (Nat.le_of_lt earlier)
    refine .cons isLocal earlier (fun name e => ?_) (fun k e => keyword k ?_)
      ((link f (Nat.le_refl f)).trans link')
      (ih (fun g' le => link g' (below le)) fun g' le => lookup g' (below le))
    · rw [lookup f (Nat.le_refl f)]
      exact bound name e
    · rwa [lookup f (Nat.le_refl f)] at e

/-- The chain has a frame for the scope at any distance. -/
theorem outward? (m : h.Mirrors globals scopes f) {distance : Nat} {scope : Scope}
    (e : scopes[distance]? = some scope) :
    ∃ g, h.outward? f distance = some g ∧ g ≠ globals ∧
      ∀ name, scope[name]? = some .defined → (h.lookup? g name).isSome := by
  induction m generalizing distance with
  | nil => cases e
  | @cons _ _ f g isLocal _ bound _ link _ ih =>
    cases distance with
    | zero =>
      cases e
      exact ⟨f, rfl, isLocal, bound⟩
    | succ distance =>
      obtain ⟨g', outward, rest⟩ := ih e
      refine ⟨g', ?_, rest⟩
      rw [Heap.outward?, link]
      exact outward

theorem lt_size (m : h.Mirrors globals scopes f) (inside : globals < h.frames.size) :
    f < h.frames.size := by
  cases m with
  | nil => exact inside
  | cons _ _ _ _ link _ => exact lt_size_of_enclosing? link

/-- A new frame mirrors a scope without names. -/
theorem push (m : h.Mirrors globals scopes f) (inside : globals < h.frames.size) :
    (h.push (some f)).Mirrors globals (∅ :: scopes) h.frames.size := by
  refine .cons (Nat.ne_of_gt inside) (m.lt_size inside) (fun name e => ?_) (fun k e => ?_) ?_
    (m.grows (.push h _))
  · rw [Std.TreeMap.getElem?_emptyc] at e
    cases e
  · rw [lookup?_push] at e
    obtain ⟨v, e⟩ := Option.isSome_iff_exists.mp e
    exact absurd (lt_size_of_lookup? e) (Nat.lt_irrefl _)
  · rw [enclosing?_push, if_pos rfl]

/-! ## Contexts and frames -/

variable {Γ : Context} {name : String}

/-- A name that is bound in the innermost frame may have any status in the innermost scope. -/
theorem mark (m : h.Mirrors globals Γ.scopes f) (bound : (h.lookup? f name).isSome)
    (status : Status) : h.Mirrors globals (Γ.mark name status).scopes f := by
  obtain ⟨scopes, body, enclosingClass⟩ := Γ
  cases m with
  | nil => exact .nil
  | cons isLocal earlier bound' keyword link outer =>
    refine .cons isLocal earlier (fun other e => ?_) (fun k e => ?_) link outer
    · rw [Scope.getElem?_insert] at e
      split at e
      · rename_i same
        exact same ▸ bound
      · exact bound' other e
    · rw [Scope.getElem?_insert]
      split
      · rfl
      · exact keyword k e

theorem bind (m : h.Mirrors globals Γ.scopes f) (bound : (h.lookup? f name).isSome) :
    h.Mirrors globals (Γ.bind name).scopes f :=
  (m.mark bound .declared).mark bound .defined

/-- A name that is not yet defined need not be bound. -/
theorem declare (m : h.Mirrors globals Γ.scopes f) :
    h.Mirrors globals (Γ.declare name).scopes f := by
  obtain ⟨scopes, body, enclosingClass⟩ := Γ
  cases m with
  | nil => exact .nil
  | cons isLocal earlier bound keyword link outer =>
    refine .cons isLocal earlier (fun other e => ?_) (fun k e => ?_) link outer
    · rw [Scope.getElem?_insert] at e
      split at e
      · cases e
      · exact bound other e
    · rw [Scope.getElem?_insert]
      split
      · rfl
      · exact keyword k e

/-- A definition in the innermost frame. -/
theorem define (m : h.Mirrors globals Γ.scopes f) (inside : f < h.frames.size) (v : Value) :
    (h.define f name v).Mirrors globals (Γ.define name).scopes f := by
  obtain ⟨scopes, body, enclosingClass⟩ := Γ
  cases m with
  | nil => exact .nil
  | @cons scope _ _ g isLocal earlier bound keyword link outer =>
    have apart {g' : FrameId} (le : g' ≤ g) : g' ≠ f := Nat.ne_of_lt (Nat.lt_of_le_of_lt le earlier)
    refine .cons isLocal earlier (fun other e => ?_) (fun k e => ?_)
      ((enclosing?_define ..).trans link) (outer.congr (fun g' _ => enclosing?_define ..)
        fun g' le other => by rw [lookup?_define, if_neg fun c => apart le c.1])
    · rw [Scope.getElem?_insert] at e
      rw [lookup?_define]
      split
      · rfl
      · rename_i free
        rw [if_neg fun same => free ⟨rfl, inside, same.symm⟩] at e
        exact bound other e
    · rw [Scope.getElem?_insert]
      split
      · rfl
      · rename_i free
        rw [lookup?_define, if_neg fun c => free c.2.2.symm] at e
        exact keyword k e

/-- A new frame in which `this` or `super` is bound. -/
theorem enterWith (m : h.Mirrors globals Γ.scopes f) (inside : globals < h.frames.size)
    (keyword : String) (v : Value) :
    ((h.push (some f)).define h.frames.size keyword v).Mirrors globals
      (Γ.enterWith keyword).scopes h.frames.size := by
  have start : (h.push (some f)).Mirrors globals Γ.enter.scopes h.frames.size := m.push inside
  exact start.define (by rw [size_push]; exact Nat.lt_succ_self _) v

/-- The frame of a call, in which each parameter is bound to an argument. -/
theorem enterBody (m : h.Mirrors globals Γ.scopes f) (inside : globals < h.frames.size)
    (kind : BodyKind) {params : List Lexeme} {vs : List Value}
    (enough : params.length ≤ vs.length) :
    ((h.push (some f)).defineAll h.frames.size params vs).Mirrors globals
      (Γ.enterBody kind params).scopes h.frames.size := by
  unfold Context.enterBody
  generalize e : ({ Γ with body := kind } : Context).enter = Δ
  have start : (h.push (some f)).Mirrors globals Δ.scopes h.frames.size := e ▸ m.push inside
  have new : h.frames.size < (h.push (some f)).frames.size := by
    rw [size_push]
    exact Nat.lt_succ_self _
  clear e m
  generalize h.push (some f) = h' at start new ⊢
  induction params generalizing vs Δ h' with
  | nil => exact start
  | cons param params ih =>
    cases vs with
    | nil => exact absurd enough (Nat.not_succ_le_zero _)
    | cons v vs =>
      refine ih (Nat.le_of_succ_le_succ enough) _ _ ?_ (by rwa [size_define])
      exact start.declare.define new v

end Mirrors

end Lox.Heap
