import Lox.Objects
import Lox.Proofs.Renaming.Steps

/-!
# Functions, classes and instances of twins

Functions, classes and instances are declared, bound and looked up alike on twin machines
(`simulates_property`, `simulates_declareFunction`, `simulates_declareClass`): a method is bound in
a frame whose names are not renamed, and so is `super`; a function keeps the marks around its
declaration.
-/

namespace Lox

section
variable {R : Renaming} {K : Marking} {inner : List Bool} {f f' : Function}

theorem Function.Renamed.closure_eq (h : f.Renamed R K inner f') : f'.closure = f.closure := by
  rw [h.same]

theorem Function.Renamed.isInitializer_eq (h : f.Renamed R K inner f') :
    f'.isInitializer = f.isInitializer := by
  rw [h.same]

theorem FunctionDecl.Renamed.length_params {marks : List Bool} {decl decl' : FunctionDecl}
    (h : decl.Renamed R marks decl') : decl'.params.length = decl.params.length := by
  cases h
  exact List.length_map _

theorem Function.Renamed.arity_eq (h : f.Renamed R K inner f') : f'.arity = f.arity := by
  obtain ⟨marks, -, decl⟩ := h.decl
  exact decl.length_params

theorem Class.Renamed.arity_eq {c c' : Class} (h : c.Renamed R K c') : c'.arity = c.arity := by
  have init := h.methods initializerName
  unfold Class.arity Class.initializer?
  generalize c.method? initializerName = f at init ⊢
  generalize c'.method? initializerName = f' at init ⊢
  cases init with
  | none => rfl
  | some hf => exact hf.arity_eq

end

namespace Twins

variable {R : Renaming} {t : Twins R} {marks : List Bool}

/-! ## Methods and properties -/

theorem simulates_bindMethod {f f' : Function} (hf : f.Renamed R t.marking [false] f')
    {o o' : Instance} (ho : o.Renamed R t.marking o') :
    t.Simulates (Eval.bind f o) (Eval.bind f' o') fun K g g' => g.Renamed R K [] g' := by
  obtain ⟨marks, chain, decl⟩ := hf.decl
  unfold Eval.bind
  rw [hf.closure_eq]
  refine (simulates_newFrame f.closure false).bind fun u frame _ follows h => ?_
  obtain ⟨marking, rfl, rfl⟩ := h
  have inside := chain.enter false
  rw [← marking] at inside
  have receiver := Value.Renamed.instance (ho.mono follows.marking)
  refine (simulates_modifyHeap_define receiver _ (R.swap_keyword _ .this)).bind
    fun u' _ _ follows' _ => ?_
  refine simulates_freshIdentity.bind fun u'' _ identity follows'' e => ?_
  subst e
  refine simulates_pure ⟨?_, false :: marks, ?_, decl⟩
  · rw [hf.same]
  · exact inside.mono (follows'.trans follows'').marking

theorem simulates_property {o o' : Instance} (ho : o.Renamed R t.marking o') (name : Lexeme) :
    t.Simulates (Eval.property o name) (Eval.property o' name) (Value.Renamed R) := by
  unfold Eval.property
  refine simulates_get ?_
  have field := t.fields o.identity name.text
  have method := ho.ofClass.methods name.text
  rw [ho.identity]
  generalize t.machine.heap.field? _ _ = v at field ⊢
  generalize t.other.heap.field? _ _ = v' at field ⊢
  cases field with
  | some hv => exact simulates_pure hv
  | none =>
    generalize o.ofClass.method? _ = f at method ⊢
    generalize o'.ofClass.method? _ = f' at method ⊢
    cases method with
    | none => exact simulates_fail _ _
    | some hf =>
      refine (simulates_bindMethod hf ho).bind fun u g g' follows hg => ?_
      exact simulates_pure (.function hg)

theorem simulates_superMethod (stands : t.At marks) (id : ExprId) (keyword method : Lexeme) :
    t.Simulates (Eval.superMethod id keyword method) (Eval.superMethod id keyword method)
      (Value.Renamed R) := by
  unfold Eval.superMethod
  refine simulates_get ?_
  rw [(t.distance id).1, (t.distance id).2]
  split
  · exact simulates_fail _ _
  · exact simulates_fail _ _
  · rename_i distance _
    refine (simulates_lookUpAt stands (distance + 1) .super).bind fun u v v' follows hv => ?_
    replace stands := stands.follows follows
    refine (simulates_lookUpAt stands distance .this).bind fun u' w w' follows' hw => ?_
    replace hv := hv.mono follows'.marking
    cases hv with
    | plain hv =>
      cases v with
      | «class» _ => exact hv.elim
      | _ => exact simulates_fail _ _
    | function _ | «instance» _ => exact simulates_fail _ _
    | «class» hc =>
      cases hw with
      | plain hw =>
        cases w with
        | «instance» _ => exact hw.elim
        | _ => exact simulates_fail _ _
      | function _ | «class» _ => exact simulates_fail _ _
      | @«instance» o o' ho =>
        rename_i c c'
        have found := hc.methods method.text
        dsimp only
        generalize c.method? method.text = f at found ⊢
        generalize c'.method? method.text = f' at found ⊢
        cases found with
        | none => exact simulates_fail _ _
        | some hf =>
          refine (simulates_bindMethod hf ho).bind fun u g g' follows hg => ?_
          exact simulates_pure (.function hg)

/-! ## Declarations -/

theorem simulates_declareFunction (stands : t.At marks) {decl decl' : FunctionDecl}
    (keeps : R.Keeps (marks.headD false) decl.name.text) (renamed : decl.Renamed R marks decl') :
    t.Simulates (Eval.declareFunction decl) (Eval.declareFunction decl') fun _ _ _ => True := by
  unfold Eval.declareFunction
  rw [renamed.name_eq]
  refine (simulates_declare stands keeps).bind fun u _ _ follows bound => ?_
  refine simulates_currentFrame ?_
  refine simulates_freshIdentity.bind fun u' _ identity follows' e => ?_
  subst e
  have whole := follows.trans follows'
  have stands' := stands.follows whole
  rw [← follows.current] at bound
  have made : Value.Renamed R u'.marking (.function ⟨identity, decl, u.machine.current, false⟩)
      (.function ⟨identity, decl', u.machine.current, false⟩) :=
    .function ⟨rfl, marks, follows'.current ▸ stands', renamed⟩
  have kept := R.swap_of_keeps keeps
  rw [stands'.headD, follows'.current] at kept
  exact simulates_assignFrom made kept (.inl (follows'.marking.heap.bound _ _ bound))

theorem simulates_declareMethods {methods methods' : List FunctionDecl}
    (stands : t.At marks) (renamed : FunctionDecl.RenamedList R (false :: marks) methods methods')
    {ms ms' : Std.TreeMap String Function}
    (before : ∀ name : String,
      Option.Rel (Function.Renamed R t.marking [false]) ms[name]? ms'[name]?) :
    t.Simulates (Eval.declareMethods methods ms) (Eval.declareMethods methods' ms')
      fun K ms ms' => ∀ name : String,
        Option.Rel (Function.Renamed R K [false]) ms[name]? ms'[name]? := by
  induction methods generalizing methods' ms ms' t with
  | nil =>
    cases renamed
    exact simulates_pure before
  | cons decl decls ih =>
    cases renamed with
    | cons first later =>
      unfold Eval.declareMethods
      rw [first.name_eq]
      refine simulates_freshIdentity.bind fun u _ identity follows e => ?_
      subst e
      refine simulates_currentFrame (ih (stands.follows follows) later fun name => ?_)
      simp only [Std.TreeMap.getElem?_insert, Std.LawfulEqCmp.compare_eq_iff_eq]
      split
      · exact .some ⟨rfl, marks, stands.follows follows, first⟩
      · exact (before name).imp fun _ _ h => h.mono follows.marking

/-- A class has a superclass if it names one. -/
theorem simulates_superclassOf (stands : t.At marks) (name : Lexeme)
    {superclass : Option Superclass} (fresh : ∀ c ∈ superclass, c.name.text ≠ R.new) :
    t.Simulates (Eval.superclassOf name superclass)
      (Eval.superclassOf name (superclass.map (Superclass.rename R (R.reaches marks))))
      fun K c c' => c.isSome = superclass.isSome ∧ Option.Rel (Class.Renamed R K) c c' := by
  cases superclass with
  | none => exact simulates_pure ⟨rfl, .none⟩
  | some s =>
    refine (simulates_lookUp stands s.id (fresh s rfl)).bind fun u v v' follows hv => ?_
    cases hv with
    | plain hv =>
      cases v with
      | «class» _ => exact hv.elim
      | _ => exact simulates_fail _ _
    | function _ | «instance» _ => exact simulates_fail _ _
    | «class» hc => exact simulates_pure ⟨rfl, .some hc⟩

/-- The frame around the methods of a class, if it has a superclass, is that of `super`. -/
theorem simulates_inMethodFrame {α β : Type} {Q : Marking → α → β → Prop} (stands : t.At marks)
    {superclass : Option Superclass} {c c' : Option Class} (isSome : c.isSome = superclass.isSome)
    (hc : Option.Rel (Class.Renamed R t.marking) c c') {body : Eval α} {body' : Eval β}
    (h : ∀ u : Twins R, u.At (marksAroundThis superclass marks) → u.Simulates body body' Q) :
    t.Simulates (Eval.inMethodFrame c body) (Eval.inMethodFrame c' body') Q := by
  cases hc with
  | none =>
    cases superclass with
    | none => exact h t stands
    | some _ => cases isSome
  | some hc =>
    cases superclass with
    | none => cases isSome
    | some _ =>
      refine simulates_currentFrame ?_
      refine (simulates_newFrame t.machine.current false).bind fun u frame _ follows e => ?_
      obtain ⟨marking, rfl, rfl⟩ := e
      have inside := Marking.Chain.enter stands false
      rw [← marking] at inside
      have super := Value.Renamed.class (hc.mono follows.marking)
      refine (simulates_modifyHeap_define super _ (R.swap_keyword _ .super)).bind
        fun u' _ _ follows' _ => ?_
      exact Simulates.within (h _ (inside.mono follows'.marking))

theorem simulates_declareClass (stands : t.At marks) {name : Lexeme}
    (keeps : R.Keeps (marks.headD false) name.text) {superclass : Option Superclass}
    (fresh : ∀ c ∈ superclass, c.name.text ≠ R.new) {methods methods' : List FunctionDecl}
    (renamed : FunctionDecl.RenamedList R (false :: marksAroundThis superclass marks) methods
      methods') :
    t.Simulates (Eval.declareClass name superclass methods)
      (Eval.declareClass name (superclass.map (Superclass.rename R (R.reaches marks))) methods')
      fun _ _ _ => True := by
  unfold Eval.declareClass
  refine (simulates_declare stands keeps).bind fun u₁ _ _ follows₁ bound => ?_
  replace stands := stands.follows follows₁
  rw [← follows₁.current] at bound
  refine (simulates_superclassOf stands name fresh).bind fun u₂ c c' follows₂ hc => ?_
  obtain ⟨isSome, hc⟩ := hc
  replace stands := stands.follows follows₂
  refine (simulates_inMethodFrame stands isSome hc fun u inside =>
    simulates_declareMethods inside renamed fun name => ?_).bind fun u₃ ms ms' follows₃ hms => ?_
  · rw [Std.TreeMap.getElem?_emptyc]
    exact .none
  refine simulates_currentFrame ?_
  refine simulates_freshIdentity.bind fun u₄ _ identity follows₄ e => ?_
  subst e
  have made : Class.Renamed R u₄.marking ⟨identity, name.text, c, ms⟩
      ⟨identity, name.text, c', ms'⟩ := by
    refine ⟨rfl, rfl, fun other => ?_⟩
    replace hms := (hms other).imp fun _ _ h => h.mono follows₄.marking
    replace hc := hc.imp fun _ _ h => h.mono (follows₃.trans follows₄).marking
    unfold Class.method?
    generalize ms[other]? = own at hms ⊢
    generalize ms'[other]? = own' at hms ⊢
    cases hms with
    | some hf => exact .some hf
    | none =>
      cases hc with
      | none => exact .none
      | some hc => exact hc.methods other
  have later := follows₂.trans (follows₃.trans follows₄)
  have current := (follows₂.trans follows₃).current
  have kept := R.swap_of_keeps keeps
  replace stands := stands.follows (follows₃.trans follows₄)
  rw [stands.headD, follows₄.current] at kept
  refine simulates_assignFrom (.class made) kept (.inl ?_)
  rw [current]
  exact later.marking.heap.bound _ _ bound

end Twins

end Lox
