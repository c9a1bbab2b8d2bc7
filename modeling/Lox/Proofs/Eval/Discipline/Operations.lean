import Lox.Proofs.Eval.Discipline

/-!
# Operations under a discipline

Each operation of the machine leads on under a discipline, if what it is given may be used at the
stage where it starts; what it gives may be used at the stage where it ends. They are taken in the
order in which the machine defines them.
-/

namespace Lox.Discipline

open Eval

variable {R : Type} [Preorder R] {α β : Type} {D : Discipline R} {r r' : R} {m : Machine}

/-! ## Operations that change no value -/

theorem leads_currentFrame :
    D.Leads r m currentFrame Nowhere fun r' frame => D.frame r' frame := by
  refine leads_step keeps_currentFrame fun ready => ⟨r, le_refl r, ready.fits, fun f m' e => ?_⟩
  cases e
  exact ready.current

theorem leads_write (text : String) : D.Leads r m (write text) Nowhere fun _ _ => True := by
  refine leads_step (keeps_write text) fun ready => ⟨r, le_refl r, ?_, fun _ _ _ => trivial⟩
  unfold write
  split
  · split
    · exact ready.fits
    · exact D.fits_congr ready.fits rfl rfl rfl
  · exact D.fits_congr ready.fits rfl rfl rfl

theorem leads_readClock : D.Leads r m readClock Nowhere D.value := by
  refine leads_step keeps_readClock fun ready =>
    ⟨r, le_refl r, D.fits_congr ready.fits rfl rfl rfl, fun v m' e => ?_⟩
  cases e
  exact D.plain trivial

theorem leads_flush : D.Leads r m flush Nowhere fun _ _ => True := by
  refine leads_step keeps_flush fun ready => ⟨r, le_refl r, ?_, fun _ _ _ => trivial⟩
  unfold flush
  split <;> exact ready.fits

theorem leads_checkArity (paren : Lexeme) (expected given : Nat) :
    D.Leads r m (checkArity paren expected given) Nowhere fun _ _ => True := by
  unfold checkArity
  split
  · exact leads_fail
  · exact leads_pure trivial

theorem leads_ofExcept {mark : Lexeme} {x : Except RuntimeCause Value}
    (plain : ∀ v, x = .ok v → v.IsPlain) : D.Leads r m (ofExcept mark x) Nowhere D.value := by
  cases x with
  | ok v => exact leads_pure (D.plain (plain v rfl))
  | error cause => exact leads_fail

/-! ## Variables -/

theorem leads_lookUp (id : ExprId) (name : Lexeme) :
    D.Leads r m (lookUp id name) Nowhere D.value := by
  refine leads_step (keeps_lookUp id name) fun ready => ⟨r, le_refl r, ?_, fun v m' e => ?_⟩
  · unfold lookUp
    split
    · exact ready.fits
    · split <;> exact ready.fits
  · unfold lookUp at e
    split at e
    · cases e
      exact D.value_getAt ready.fits _ _ ready.current
    · split at e
      · cases e
        exact D.value_get? ready.fits (D.globals ready.fits) ‹_›
      · exact (fail_eq_ok.mp e).elim

theorem leads_assignFrom {frame : FrameId} {name : Lexeme} {v : Value} (hf : D.frame r frame)
    (hn : D.name name.text) (hv : D.value r v) :
    D.Leads r m (assignFrom frame name v) Nowhere fun _ _ => True := by
  refine leads_step (keeps_assignFrom frame name v) fun ready => ?_
  cases found : m.heap.holder? frame name.text with
  | some holder =>
    rw [assignFrom_of_some found]
    obtain ⟨r', le, fits⟩ := D.defined ready.fits (D.frame_holder ready.fits hf found) hn hv
    exact ⟨r', le, fits, fun _ _ _ => trivial⟩
  | none =>
    rw [assignFrom_of_none found]
    exact ⟨r, le_refl r, ready.fits, fun _ _ _ => trivial⟩

theorem leads_assign (id : ExprId) {name : Lexeme} {v : Value} (hn : D.name name.text)
    (hv : D.value r v) : D.Leads r m (assign id name v) Nowhere fun _ _ => True := by
  intro ready
  unfold assign
  split
  · rename_i distance _
    obtain ⟨r', le, fits⟩ :=
      D.defined ready.fits (D.frame_ancestor ready.fits distance ready.current) hn hv
    exact ⟨r', le, ready.next le fits rfl, nofun, fun _ _ _ => trivial⟩
  · exact leads_assignFrom (D.globals ready.fits) hn hv ready

theorem leads_define {name : Lexeme} {v : Value} (hn : D.name name.text) (hv : D.value r v) :
    D.Leads r m (define name v) Nowhere fun _ _ => True := by
  refine leads_step (keeps_define name v) fun ready => ?_
  obtain ⟨r', le, fits⟩ := D.defined ready.fits ready.current hn hv
  exact ⟨r', le, fits, fun _ _ _ => trivial⟩

theorem leads_declare {name : Lexeme} (hn : D.name name.text) :
    D.Leads r m (declare name) Nowhere fun _ _ => True := by
  refine leads_step (keeps_declare name) fun ready => ?_
  obtain ⟨r', le, fits⟩ := D.declared ready.fits ready.current hn
  exact ⟨r', le, fits, fun _ _ _ => trivial⟩

/-! ## Properties and methods -/

theorem leads_bindMethod {x : Point} {f : Function} {o : Instance} (here : D.visits x)
    (binds : x.BindsMethod f o m) (hf : D.function r f) (ho : D.value r (.instance o)) :
    D.Leads r m (bind f o) Nowhere fun r' g => D.value r' (.function g) := by
  refine leads_step (keeps_bindMethod f o) fun ready => ?_
  obtain ⟨r', le, fits, hg⟩ := D.methodBound here binds ready.fits hf ho
  refine ⟨r', le, fits, fun g m' e => ?_⟩
  rw [bind_apply] at e
  cases e
  exact hg

/-- A method as a value of its own, bound to an instance. -/
theorem leads_boundMethod {x : Point} {f : Function} {o : Instance} (here : D.visits x)
    (binds : x.BindsMethod f o m) (hf : D.function r f) (ho : D.value r (.instance o)) :
    D.Leads r m (do return .function (← bind f o)) Nowhere D.value :=
  leads_finish (leads_bindMethod here binds hf ho) fun _ _ _ _ _ hg => leads_pure hg

theorem leads_property {x : Point} {o : Instance} {name : Lexeme} (here : D.visits x)
    (binds : ∀ f, m.heap.field? o.identity name.text = none →
      o.ofClass.method? name.text = some f → x.BindsMethod f o m)
    (ho : D.value r (.instance o)) : D.Leads r m (property o name) Nowhere D.value := by
  refine leads_of_ready fun ready => leads_read rfl ?_
  split
  · exact leads_pure (D.field ready.fits ho ‹_›)
  · rename_i noField
    split
    · rename_i f found
      exact leads_boundMethod here (binds f noField found)
        (D.function_method _ (D.ofClass ho) found) ho
    · exact leads_fail

theorem leads_setProperty {o : Instance} {v : Value} (ho : D.value r (.instance o))
    (hv : D.value r v) (name : Lexeme) :
    D.Leads r m (setProperty o name v) Nowhere fun _ _ => True := by
  refine leads_step (keeps_modifyHeap _) fun ready => ?_
  obtain ⟨r', le, fits⟩ := D.fieldSet (n := name.text) ready.fits ho hv
  exact ⟨r', le, fits, fun _ _ _ => trivial⟩

theorem leads_superMethod {n : Nat} {id : ExprId} {keyword method : Lexeme}
    (here : D.visits ⟨n + 1, .expr (.super id keyword method), m⟩) :
    D.Leads r m (superMethod id keyword method) Nowhere D.value := by
  refine leads_of_ready fun ready => leads_read rfl ?_
  split
  · exact leads_fail
  · exact leads_fail
  · rename_i distance known
    have superclass := D.value_getAt ready.fits (distance + 1) "super" ready.current
    have receiver := D.value_getAt ready.fits distance "this" ready.current
    refine leads_read rfl (leads_read rfl ?_)
    split
    · rename_i c o isClass isInstance
      rw [isClass] at superclass
      rw [isInstance] at receiver
      split
      · rename_i f found
        exact leads_boundMethod here (.super known isClass isInstance found)
          (D.function_method c superclass found) receiver
      · exact leads_fail
    · exact leads_fail

/-! ## Declarations -/

/-- A fresh identity makes a function of its declaration and its closure. -/
theorem leads_functionMade {decl : FunctionDecl} {closure : FrameId} (isInitializer : Bool)
    (hclosure : D.frame r closure) (written : ∀ n ∈ decl.written, D.name n) :
    D.Leads r m freshIdentity Nowhere fun r' id =>
      D.function r' ⟨id, decl, closure, isInitializer⟩ := by
  refine leads_step keeps_freshIdentity fun ready => ?_
  obtain ⟨r', le, fits, hf⟩ :=
    D.functionMade (b := isInitializer) ready.fits hclosure written
  refine ⟨r', le, fits, fun id m' e => ?_⟩
  cases e
  exact hf

/-- A fresh identity makes a class of its superclass and its methods. -/
theorem leads_classMade {x : Point} (name : String) {superclass : Option Class}
    {methods : Std.TreeMap String Function} (here : D.visits x)
    (declares : x.DeclaresMethods superclass methods) (hc : ∀ c ∈ superclass, D.value r (.class c))
    (hm : ∀ (n : String) (f : Function), methods[n]? = some f → D.function r f) :
    D.Leads r m freshIdentity Nowhere fun r' id =>
      D.value r' (.class ⟨id, name, superclass, methods⟩) := by
  refine leads_step keeps_freshIdentity fun ready => ?_
  obtain ⟨r', le, fits, h⟩ := D.classMade (n := name) here declares ready.fits hc hm
  refine ⟨r', le, fits, fun id m' e => ?_⟩
  cases e
  exact h

theorem leads_declareFunction {n : Nat} {decl : FunctionDecl}
    (here : D.visits ⟨n + 1, .stmt (.function decl), m⟩) (hn : D.name decl.name.text)
    (written : ∀ n ∈ decl.written, D.name n) :
    D.Leads r m (declareFunction decl) Nowhere fun _ _ => True := by
  refine leads_finish (leads_declare hn) fun _ _ _ _ declared _ => ?_
  refine leads_finish leads_currentFrame fun _ frame _ _ current hframe => ?_
  refine leads_finish (leads_functionMade false hframe written) fun _ _ _ le made hf => ?_
  cases declared
  cases current
  cases made
  exact leads_assignFrom (D.frame_mono le hframe) hn (D.functionDeclared here .intro hf)

theorem leads_declareMethods {decls : List FunctionDecl} {methods : Std.TreeMap String Function}
    (written : ∀ n ∈ FunctionDecl.writtenList decls, D.name n)
    (known : ∀ (n : String) (f : Function), methods[n]? = some f → D.function r f) :
    D.Leads r m (declareMethods decls methods) Nowhere fun r' methods =>
      ∀ (n : String) (f : Function), methods[n]? = some f → D.function r' f := by
  induction decls generalizing r m methods with
  | nil => exact leads_pure known
  | cons decl decls ih =>
    obtain ⟨first, rest⟩ := List.forall_mem_append.mp written
    refine leads_of_ready fun ready => ?_
    refine leads_finish (leads_functionMade (decl.name.text = initializerName) ready.current first)
      fun r₁ id m₁ le e hf => ?_
    cases e
    refine leads_finish leads_currentFrame fun r₂ frame m₂ le' e _ => ?_
    cases e
    refine ih rest fun n f e => ?_
    rw [Std.TreeMap.getElem?_insert] at e
    split at e
    · cases e
      exact D.function_mono le' hf
    · exact D.function_mono (le_trans le le') (known n f e)

theorem leads_superclassOf (name : Lexeme) (superclass : Option Superclass) :
    D.Leads r m (superclassOf name superclass) Nowhere fun r' c =>
      ∀ c' ∈ c, D.value r' (.class c') := by
  cases superclass with
  | none => exact leads_pure nofun
  | some superclass =>
    refine leads_finish (leads_lookUp _ _) fun _ v _ _ _ hv => ?_
    split
    · refine leads_pure fun c' same => ?_
      cases same
      exact hv
    · exact leads_fail

/-- The frame around the methods of a class, if there is a superclass, is one that may be used. -/
theorem leads_inMethodFrame {superclass : Option Class} {body : Eval α} {P : R → α → Prop}
    (hc : ∀ c ∈ superclass, D.value r (.class c))
    (h : ∀ r' m', r ≤ r' → D.Leads r' m' body Nowhere P) :
    D.Leads r m (inMethodFrame superclass body) Nowhere P := by
  cases superclass with
  | none => exact h r m (le_refl r)
  | some c =>
    intro ready
    obtain ⟨r', le, fits, inside⟩ := D.superFrameMade ready.fits ready.current (hc c rfl)
    exact leads_from le fits rfl rfl (leads_within (h r' _ le) inside) ready

theorem leads_declareClass {n : Nat} {name : Lexeme} {superclass : Option Superclass}
    {decls : List FunctionDecl}
    (here : D.visits ⟨n + 1, .stmt (.classDecl name superclass decls), m⟩)
    (hn : D.name name.text) (written : ∀ n ∈ FunctionDecl.writtenList decls, D.name n) :
    D.Leads r m (declareClass name superclass decls) Nowhere fun _ _ => True := by
  refine leads_finish (leads_declare hn) fun _ _ m₁ _ declared _ => ?_
  refine leads_finish (leads_superclassOf name superclass) fun r₁ c m₂ _ yields hc => ?_
  obtain rfl := machine_of_superclassOf yields
  refine leads_finish (leads_inMethodFrame hc fun r' m' _ => leads_declareMethods written ?_)
    fun r₂ methods _ le made hmethods => ?_
  · exact fun n f e => by rw [Std.TreeMap.getElem?_emptyc] at e; cases e
  refine leads_finish leads_currentFrame fun r₃ frame _ le' _ hframe => ?_
  have hc' c' e := D.value_mono (le_trans le le') (hc c' e)
  have hmethods' n f e := D.function_mono le' (hmethods n f e)
  refine leads_finish (leads_classMade name.text here (.intro declared yields made) hc' hmethods')
    fun _ _ _ le'' _ hclass => ?_
  exact leads_assignFrom (D.frame_mono le'' hframe) hn hclass

/-! ## Calls -/

theorem fits_defineAll {frame : FrameId} {params : List Lexeme} (vs : List Value)
    (fits : D.fits r m) (hf : D.frame r frame) (hn : ∀ n ∈ params.map Lexeme.text, D.name n)
    (hv : ∀ v ∈ vs, D.value r v) :
    ∃ r', r ≤ r' ∧ D.fits r' { m with heap := m.heap.defineAll frame params vs } := by
  induction params generalizing r m vs with
  | nil => exact ⟨r, le_refl r, fits⟩
  | cons param params ih =>
    cases vs with
    | nil => exact ⟨r, le_refl r, fits⟩
    | cons v vs =>
      obtain ⟨hparam, hparams⟩ := List.forall_mem_cons.mp hn
      obtain ⟨hfirst, hrest⟩ := List.forall_mem_cons.mp hv
      obtain ⟨r₁, le, fits⟩ := D.defined fits hf hparam hfirst
      obtain ⟨r₂, le', fits⟩ := ih vs fits (D.frame_mono le hf) hparams
        fun w inside => D.value_mono le (hrest w inside)
      exact ⟨r₂, le_trans le le', fits⟩

theorem leads_result {f : Function} {flow : Flow} (hf : D.frame r f.closure)
    (hflow : D.flow r flow) : D.Leads r m (result f flow) Nowhere D.value := by
  refine leads_step (keeps_result f flow) fun ready => ⟨r, le_refl r, ?_, fun v m' e => ?_⟩
  · unfold result
    split
    · exact ready.fits
    · cases flow <;> exact ready.fits
  · unfold result at e
    split at e
    · cases e
      exact D.value_getAt ready.fits 0 "this" hf
    · cases flow with
      | normal =>
        cases e
        exact D.plain trivial
      | returned w =>
        cases e
        exact hflow

end Lox.Discipline
