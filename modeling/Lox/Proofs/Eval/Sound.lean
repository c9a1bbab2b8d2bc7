import Lox.Proofs.Heap.Chains
import Lox.Proofs.Scope.Settled

/-!
# Sound machines

A value is sound if every function in it stands in a context that its closure mirrors, and in which
its body is located (`Value.Sound`). A machine is sound if all values on its heap are
(`Machine.Sound`). Each step of the machine leaves a sound machine, which has only grown
(`Ensures`).
-/

namespace Lox

/-! ## Growth -/

/-- The heap of `m'` has grown from that of `m`, and the frames of the setting are the same. -/
structure Machine.Grows (m m' : Machine) : Prop where
  heap : m.heap.Grows m'.heap
  current : m'.current = m.current
  globals : m'.globals = m.globals

namespace Machine.Grows

theorem refl (m : Machine) : m.Grows m :=
  ⟨.refl _, rfl, rfl⟩

theorem trans {m₁ m₂ m₃ : Machine} (h : m₁.Grows m₂) (h' : m₂.Grows m₃) : m₁.Grows m₃ :=
  ⟨h.heap.trans h'.heap, h'.current.trans h.current, h'.globals.trans h.globals⟩

end Machine.Grows

/-- The chain of frames from the current one mirrors the context. -/
structure Machine.At (m : Machine) (Γ : Context) : Prop where
  mirrors : m.heap.Mirrors m.globals Γ.scopes m.current

theorem Machine.At.grows {m m' : Machine} {Γ : Context} (h : m.At Γ) (grows : m.Grows m') :
    m'.At Γ := by
  constructor
  rw [grows.globals, grows.current]
  exact h.mirrors.grows grows.heap

/-! ## Values -/

section
variable (distances : Distances) (m : Machine)

/-- The closure of the function mirrors a context in which its body is located. An initializer is
bound to an instance. -/
def Function.Sound (f : Function) : Prop :=
  ∃ (Γ : Context) (kind : BodyKind), Γ.Settled ∧
    m.heap.Mirrors m.globals Γ.scopes f.closure ∧ f.decl.Located distances kind Γ ∧
    (f.isInitializer = true →
      kind = .initializer ∧ ∃ o, m.heap.lookup? f.closure "this" = some (.instance o))

/-- The method will be sound when it is bound to an instance. -/
def Function.SoundMethod (f : Function) : Prop :=
  ∃ (Γ : Context) (kind : BodyKind), (Γ.enterWith "this").Settled ∧
    m.heap.Mirrors m.globals Γ.scopes f.closure ∧
    f.decl.Located distances kind (Γ.enterWith "this") ∧
    (f.isInitializer = true → kind = .initializer)

/-- Every method of the class will be sound when it is bound. -/
def Class.Sound (c : Class) : Prop :=
  ∀ name f, c.method? name = some f → f.SoundMethod distances m

/-- Each of the methods will be sound when it is bound. -/
def Machine.SoundMethods (methods : Std.TreeMap String Function) : Prop :=
  ∀ (name : String) (f : Function), methods[name]? = some f → f.SoundMethod distances m

/-- The functions in the value are sound. -/
def Value.Sound : Value → Prop
  | .function f => f.Sound distances m
  | .class c => c.Sound distances m
  | .instance o => o.ofClass.Sound distances m
  | _ => True

/-- The functions in the answer of an operation on values are sound. -/
def Machine.SoundAll (vs : List Value) : Prop :=
  ∀ v ∈ vs, v.Sound distances m

end

section
variable {D : Distances} {m m' : Machine}

theorem Function.Sound.mono {f : Function} (h : f.Sound D m) (grows : m.heap.Grows m'.heap)
    (globals : m'.globals = m.globals) : f.Sound D m' := by
  obtain ⟨Γ, kind, settled, mirrors, located, initializer⟩ := h
  refine ⟨Γ, kind, settled, globals ▸ mirrors.grows grows, located, fun e => ?_⟩
  obtain ⟨isInitializer, o, bound⟩ := initializer e
  refine ⟨isInitializer, o, ?_⟩
  rw [← bound]
  exact grows.keyword _ (Heap.lt_size_of_lookup? bound) .this

theorem Function.SoundMethod.mono {f : Function} (h : f.SoundMethod D m)
    (grows : m.heap.Grows m'.heap) (globals : m'.globals = m.globals) : f.SoundMethod D m' := by
  obtain ⟨Γ, kind, settled, mirrors, located, initializer⟩ := h
  exact ⟨Γ, kind, settled, globals ▸ mirrors.grows grows, located, initializer⟩

theorem Class.Sound.mono {c : Class} (h : c.Sound D m) (grows : m.heap.Grows m'.heap)
    (globals : m'.globals = m.globals) : c.Sound D m' :=
  fun name f e => (h name f e).mono grows globals

theorem Value.IsPlain.sound {v : Value} (h : v.IsPlain) : v.Sound D m := by
  cases v with
  | function _ | «class» _ | «instance» _ => exact h.elim
  | _ => trivial

theorem Value.Sound.mono {v : Value} (h : v.Sound D m) (grows : m.heap.Grows m'.heap)
    (globals : m'.globals = m.globals) : v.Sound D m' := by
  cases v with
  | function f => exact Function.Sound.mono h grows globals
  | «class» c => exact Class.Sound.mono h grows globals
  | «instance» o => exact Class.Sound.mono h grows globals
  | _ => trivial

theorem Machine.SoundAll.mono {vs : List Value} (h : m.SoundAll D vs)
    (grows : m.heap.Grows m'.heap) (globals : m'.globals = m.globals) : m'.SoundAll D vs :=
  fun v inside => (h v inside).mono grows globals

end

/-! ## Machines -/

/-- All values on the heap are sound. -/
structure Machine.Sound (D : Distances) (m : Machine) : Prop where
  distances : m.distances = D
  globals : m.globals < m.heap.frames.size
  bindings : ∀ f name v, m.heap.lookup? f name = some v → v.Sound D m
  fields : ∀ o name v, m.heap.field? o name = some v → v.Sound D m

section
variable {D : Distances} {m m' : Machine}

/-- A machine that has grown from a sound one is sound if what it holds in addition is. -/
theorem Machine.Sound.grows (h : m.Sound D) (grows : m.heap.Grows m'.heap)
    (globals : m'.globals = m.globals) (distances : m'.distances = m.distances)
    (bindings : ∀ f name v, m'.heap.lookup? f name = some v →
      m.heap.lookup? f name = some v ∨ v.Sound D m')
    (fields : ∀ o name v, m'.heap.field? o name = some v →
      m.heap.field? o name = some v ∨ v.Sound D m') : m'.Sound D where
  distances := distances.trans h.distances
  globals := globals ▸ Nat.lt_of_lt_of_le h.globals grows.size
  bindings f name v e := by
    rcases bindings f name v e with before | sound
    · exact (h.bindings f name v before).mono grows globals
    · exact sound
  fields o name v e := by
    rcases fields o name v e with before | sound
    · exact (h.fields o name v before).mono grows globals
    · exact sound

theorem Machine.Sound.getAt (h : m.Sound D) (f : FrameId) (distance : Nat) (name : String) :
    (m.heap.getAt f distance name).Sound D m := by
  unfold Heap.getAt
  cases e : m.heap.lookup? (m.heap.ancestor f distance) name with
  | none => trivial
  | some v => exact h.bindings _ _ v e

theorem Machine.Sound.get? (h : m.Sound D) {f : FrameId} {name : String} {v : Value}
    (e : m.heap.get? f name = some v) : v.Sound D m := by
  obtain ⟨holder, -, e⟩ := Option.bind_eq_some_iff.mp e
  exact h.bindings _ _ v e

/-- What a definition binds, if anything, is its own value. -/
theorem Heap.lookup?_define_cases {h : Heap} {f : FrameId} {name : String} {v : Value} {g : FrameId}
    {other : String} {w : Value} (e : (h.define f name v).lookup? g other = some w) :
    h.lookup? g other = some w ∨ w = v := by
  rw [Heap.lookup?_define] at e
  split at e
  · exact .inr (Option.some.inj e).symm
  · exact .inl e

theorem Heap.lookup?_defineAll_cases {h : Heap} {f : FrameId} {params : List Lexeme}
    {vs : List Value} {g : FrameId} {other : String} {w : Value}
    (e : (h.defineAll f params vs).lookup? g other = some w) :
    h.lookup? g other = some w ∨ w ∈ vs := by
  induction params generalizing h vs with
  | nil => exact .inl e
  | cons param params ih =>
    cases vs with
    | nil => exact .inl e
    | cons v vs =>
      rcases ih e with before | argument
      · rcases Heap.lookup?_define_cases before with before | rfl
        · exact .inl before
        · exact .inr List.mem_cons_self
      · exact .inr (List.mem_cons_of_mem _ argument)

theorem Heap.fields_defineAll (h : Heap) (f : FrameId) (params : List Lexeme) (vs : List Value) :
    (h.defineAll f params vs).fields = h.fields := by
  induction params generalizing h vs with
  | nil => rfl
  | cons param params ih =>
    cases vs with
    | nil => rfl
    | cons v vs => exact ih _ vs

theorem Machine.Sound.define (h : m.Sound D) {f : FrameId} {name : String} {v : Value}
    (isName : ∀ k : Keyword, name ≠ k.text) (sound : v.Sound D m) :
    ({ m with heap := m.heap.define f name v } : Machine).Sound D := by
  have grows := (Heap.Grows.refl m.heap).define (f := f) v (.inl isName)
  refine h.grows grows rfl rfl (fun g other w e => ?_) fun _ _ _ => .inl
  rcases Heap.lookup?_define_cases e with before | rfl
  · exact .inl before
  · exact .inr (sound.mono grows rfl)

theorem Machine.Sound.atFrame (h : m.Sound D) (frame : FrameId) :
    ({ m with current := frame } : Machine).Sound D :=
  h.grows (.refl _) rfl rfl (fun _ _ _ => .inl) fun _ _ _ => .inl

end

/-! ## Steps -/

namespace Eval

variable {α β : Type} {D : Distances} {m : Machine}

/-- If the computation, on the machine `m`, ends with a value, the machine that it leaves is sound
and has grown from `m`, and `P` is true of both. -/
def Ensures (D : Distances) (m : Machine) (x : Eval α) (P : α → Machine → Prop) : Prop :=
  ∀ a m', x m = .ok a m' → m'.Sound D ∧ m.Grows m' ∧ P a m'

theorem ensures_pure (sound : m.Sound D) {P : α → Machine → Prop} {a : α} (h : P a m) :
    Ensures D m (pure a) P := by
  rintro _ _ e
  obtain ⟨rfl, rfl⟩ := pure_eq_ok.mp e
  exact ⟨sound, .refl m, h⟩

theorem ensures_fail {blamed : Lexeme} {cause : RuntimeCause} {P : α → Machine → Prop} :
    Ensures D m (fail blamed cause) P :=
  fun _ _ e => (fail_eq_ok.mp e).elim

theorem ensures_bind {x : Eval α} {f : α → Eval β} {P : α → Machine → Prop}
    {Q : β → Machine → Prop} (hx : Ensures D m x P)
    (hf : ∀ a m₁, m₁.Sound D → m.Grows m₁ → P a m₁ → Ensures D m₁ (f a) Q) :
    Ensures D m (x >>= f) Q := by
  intro b m' e
  obtain ⟨a, m₁, e, e'⟩ := bind_eq_ok.mp e
  obtain ⟨sound, grows, holds⟩ := hx a m₁ e
  obtain ⟨sound', grows', holds'⟩ := hf a m₁ sound grows holds b m' e'
  exact ⟨sound', grows.trans grows', holds'⟩

theorem ensures_within {frame : FrameId} {body : Eval α} {P Q : α → Machine → Prop}
    (h : Ensures D { m with current := frame } body P)
    (back : ∀ a m₁, P a m₁ → Q a { m₁ with current := m.current }) :
    Ensures D m (within frame body) Q := by
  intro a m' e
  obtain ⟨m₁, inside, rfl⟩ := within_eq_ok.mp e
  obtain ⟨sound, grows, holds⟩ := h a m₁ inside
  exact ⟨sound.atFrame _, ⟨grows.heap, rfl, grows.globals⟩, back a m₁ holds⟩

theorem ensures_get (sound : m.Sound D) : Ensures D m get fun m₁ m' => m₁ = m ∧ m' = m := by
  rintro _ _ ⟨⟩
  exact ⟨sound, .refl m, rfl, rfl⟩

theorem ensures_currentFrame (sound : m.Sound D) :
    Ensures D m currentFrame fun frame m' => frame = m.current ∧ m' = m := by
  rintro _ _ ⟨⟩
  exact ⟨sound, .refl m, rfl, rfl⟩

/-- A new identity changes nothing that soundness depends on. -/
theorem ensures_freshIdentity (sound : m.Sound D) :
    Ensures D m freshIdentity fun _ m' => m'.heap = m.heap := by
  rintro _ _ ⟨⟩
  exact ⟨sound.grows (.refl _) rfl rfl (fun _ _ _ => .inl) fun _ _ _ => .inl,
    ⟨.refl _, rfl, rfl⟩, rfl⟩

theorem ensures_lookUp (sound : m.Sound D) (id : ExprId) (name : Lexeme) :
    Ensures D m (lookUp id name) fun v m' => v.Sound D m' := by
  intro v m' e
  unfold lookUp at e
  split at e
  · cases e
    exact ⟨sound, .refl m, sound.getAt _ _ _⟩
  · split at e
    · rename_i bound
      cases e
      exact ⟨sound, .refl m, sound.get? bound⟩
    · exact (fail_eq_ok.mp e).elim

/-- Binding a sound value to a name that is no keyword, in any frame. -/
theorem ensures_modifyHeap_define (sound : m.Sound D) (f : FrameId) {name : Lexeme} {v : Value}
    (isName : name.IsName) (hv : v.Sound D m) {m' : Machine}
    (e : m' = { m with heap := m.heap.define f name.text v }) : m'.Sound D ∧ m.Grows m' := by
  subst e
  exact ⟨sound.define isName hv, (Heap.Grows.refl m.heap).define v (.inl isName), rfl, rfl⟩

theorem ensures_assignFrom (sound : m.Sound D) (f : FrameId) {name : Lexeme} {v : Value}
    (isName : name.IsName) (hv : v.Sound D m) :
    Ensures D m (assignFrom f name v) fun _ _ => True := by
  intro _ m' e
  unfold assignFrom at e
  split at e
  · cases e
    obtain ⟨sound', grows⟩ := ensures_modifyHeap_define sound _ isName hv rfl
    exact ⟨sound', grows, trivial⟩
  · exact (fail_eq_ok.mp e).elim

theorem ensures_assign (sound : m.Sound D) (id : ExprId) {name : Lexeme} {v : Value}
    (isName : name.IsName) (hv : v.Sound D m) : Ensures D m (assign id name v) fun _ _ => True := by
  intro _ m' e
  unfold assign at e
  split at e
  · cases e
    obtain ⟨sound', grows⟩ := ensures_modifyHeap_define sound _ isName hv rfl
    exact ⟨sound', grows, trivial⟩
  · exact ensures_assignFrom sound m.globals isName hv _ m' e

theorem ensures_define {Γ : Context} (sound : m.Sound D) (stands : m.At Γ)
    {name : Lexeme} {v : Value} (isName : name.IsName) (hv : v.Sound D m) :
    Ensures D m (define name v) fun _ m' => m'.At (Γ.bind name.text) := by
  rintro _ _ ⟨⟩
  obtain ⟨sound', grows⟩ := ensures_modifyHeap_define sound m.current isName hv rfl
  exact ⟨sound', grows, ⟨stands.mirrors.declare.define
    (stands.mirrors.lt_size sound.globals) v⟩⟩

theorem ensures_declare {Γ : Context} (sound : m.Sound D) (stands : m.At Γ)
    {name : Lexeme} (isName : name.IsName) :
    Ensures D m (declare name) fun _ m' => m'.At (Γ.bind name.text) := by
  rintro _ _ ⟨⟩
  have grows : m.heap.Grows (m.heap.declare m.current name.text) := .declare isName
  refine ⟨sound.grows grows rfl rfl (fun f other v e => ?_) fun _ _ _ => .inl,
    ⟨grows, rfl, rfl⟩, ⟨(stands.mirrors.grows grows).bind ?_⟩⟩
  · dsimp only at e
    rw [Heap.lookup?_declare] at e
    split at e
    · rename_i here
      obtain ⟨rfl, -, rfl⟩ := here
      cases before : m.heap.lookup? m.current name.text with
      | none =>
        rw [before] at e
        cases e
        exact .inr trivial
      | some w =>
        rw [before] at e
        exact .inl e
    · exact .inl e
  · rw [Heap.lookup?_declare, if_pos ⟨rfl, stands.mirrors.lt_size sound.globals, rfl⟩]
    rfl

/-! ## Methods and properties -/

/-- A frame that is made around the method, in which `this` is the instance, makes it sound. -/
theorem ensures_bindMethod (sound : m.Sound D) {f : Function} {o : Instance}
    (hf : f.SoundMethod D m) (ho : o.ofClass.Sound D m) :
    Ensures D m (bind f o) fun f' m' => f'.Sound D m' := by
  intro f' m' e
  rw [bind_apply] at e
  cases e
  have grows : m.heap.Grows (m.afterBinding f o).heap :=
    (Heap.Grows.push _ _).define _ (.inr (Nat.le_refl _))
  refine ⟨sound.grows grows rfl rfl (fun g name v e => ?_) (fun _ _ _ => .inl),
    ⟨grows, rfl, rfl⟩, ?_⟩
  · rcases Heap.lookup?_define_cases e with before | rfl
    · rw [Heap.lookup?_push] at before
      exact .inl before
    · exact .inr (ho.mono grows rfl)
  · obtain ⟨Γ, kind, settled, mirrors, located, initializer⟩ := hf
    refine ⟨_, kind, settled, mirrors.enterWith sound.globals "this" _, located, fun h =>
      ⟨initializer h, o, ?_⟩⟩
    show ((m.heap.push _).define _ "this" _).lookup? m.heap.frames.size "this" = _
    rw [Heap.lookup?_define, if_pos ⟨rfl, by rw [Heap.size_push]; exact Nat.lt_succ_self _, rfl⟩]

theorem ensures_property (sound : m.Sound D) {o : Instance} (ho : o.ofClass.Sound D m)
    (name : Lexeme) : Ensures D m (property o name) fun v m' => v.Sound D m' := by
  refine ensures_bind (ensures_get sound) fun m₁ _ sound _ e => ?_
  obtain ⟨rfl, rfl⟩ := e
  split
  · rename_i v field
    exact ensures_pure sound (sound.fields _ _ v field)
  · split
    · rename_i f method
      refine ensures_bind (ensures_bindMethod sound (ho _ f method) ho) fun f' _ sound _ hf => ?_
      exact ensures_pure sound hf
    · exact ensures_fail

theorem ensures_setProperty (sound : m.Sound D) (o : Instance) (name : Lexeme) {v : Value}
    (hv : v.Sound D m) : Ensures D m (setProperty o name v) fun _ _ => True := by
  rintro _ _ ⟨⟩
  have grows := Heap.Grows.setField m.heap o.identity name.text v
  refine ⟨sound.grows grows rfl rfl (fun _ _ _ => .inl) fun p other w e => ?_,
    ⟨grows, rfl, rfl⟩, trivial⟩
  dsimp only at e
  rw [Heap.field?_setField] at e
  split at e
  · cases e
    exact .inr (hv.mono grows rfl)
  · exact .inl e

theorem ensures_superMethod (sound : m.Sound D) (id : ExprId) (keyword method : Lexeme) :
    Ensures D m (superMethod id keyword method) fun v m' => v.Sound D m' := by
  have lookUpAt (d : Nat) (name : String) :
      Ensures D m (lookUpAt d name) fun v m' => m' = m ∧ v.Sound D m := by
    rintro _ _ ⟨⟩
    exact ⟨sound, .refl m, rfl, sound.getAt _ _ _⟩
  refine ensures_bind (ensures_get sound) fun m₁ _ _ _ e => ?_
  obtain ⟨rfl, rfl⟩ := e
  split
  · exact ensures_fail
  · exact ensures_fail
  · refine ensures_bind (lookUpAt _ _) fun superclass _ _ _ h => ?_
    obtain ⟨rfl, hc⟩ := h
    refine ensures_bind (lookUpAt _ _) fun receiver _ _ _ h => ?_
    obtain ⟨rfl, ho⟩ := h
    split
    · split
      · rename_i f method
        refine ensures_bind (ensures_bindMethod sound (hc _ f method) ho) fun f' _ sound _ hf => ?_
        exact ensures_pure sound hf
      · exact ensures_fail
    · exact ensures_fail

/-! ## Declarations -/

theorem ensures_declareFunction {Γ : Context} (sound : m.Sound D) (settled : Γ.Settled)
    (stands : m.At Γ) {decl : FunctionDecl} (isName : decl.name.IsName)
    (located : decl.Located D .function (Γ.bind decl.name.text)) :
    Ensures D m (declareFunction decl) fun _ m' => m'.At (Γ.bind decl.name.text) := by
  refine ensures_bind (ensures_declare sound stands isName) fun _ _ sound _ stands => ?_
  refine ensures_bind (ensures_currentFrame sound) fun frame m₁ sound _ e => ?_
  obtain ⟨rfl, rfl⟩ := e
  refine ensures_bind (ensures_freshIdentity sound) fun identity m₂ sound grows _ => ?_
  have stands₂ := stands.grows grows
  have hf : (Value.function ⟨identity, decl, m₁.current, false⟩).Sound D m₂ :=
    ⟨_, _, settled.bind isName, grows.current ▸ stands₂.mirrors, located, nofun⟩
  intro _ m' e
  obtain ⟨sound', grows', -⟩ := ensures_assignFrom sound _ isName hf _ m' e
  exact ⟨sound', grows', stands₂.grows grows'⟩

theorem ensures_declareMethods {Γ : Context} {decls : List FunctionDecl}
    {methods : Std.TreeMap String Function} (sound : m.Sound D)
    (settled : (Γ.enterWith "this").Settled) (stands : m.At Γ)
    (located : FunctionDecl.LocatedMethods D decls (Γ.enterWith "this"))
    (before : m.SoundMethods D methods) :
    Ensures D m (declareMethods decls methods) fun methods m' => m'.SoundMethods D methods := by
  induction decls generalizing methods m with
  | nil => exact ensures_pure sound before
  | cons decl decls ih =>
    refine ensures_bind (ensures_freshIdentity sound) fun identity _ sound grows _ => ?_
    refine ensures_bind (ensures_currentFrame sound) fun frame m₁ sound _ e => ?_
    obtain ⟨rfl, rfl⟩ := e
    have stands₁ := stands.grows grows
    refine ih sound stands₁ located.2 fun name f e => ?_
    rw [Std.TreeMap.getElem?_insert] at e
    split at e
    · cases e
      refine ⟨Γ, decl.methodBody, settled, stands₁.mirrors, located.1, fun isInitializer => ?_⟩
      exact if_pos (of_decide_eq_true isInitializer)
    · exact (before name f e).mono grows.heap grows.globals

/-- The superclass, if one is named, is a sound class. -/
theorem ensures_superclassOf (sound : m.Sound D) (name : Lexeme) (superclass : Option Superclass) :
    Ensures D m (superclassOf name superclass) fun c m' =>
      c.isSome = superclass.isSome ∧ ∀ c' ∈ c, c'.Sound D m' := by
  cases superclass with
  | none => exact ensures_pure sound ⟨rfl, nofun⟩
  | some superclass =>
    refine ensures_bind (ensures_lookUp sound _ _) fun v _ sound _ hv => ?_
    split
    · refine ensures_pure sound ⟨rfl, ?_⟩
      rintro _ ⟨⟩
      exact hv
    · exact ensures_fail

/-- What is ensured in the context around the scope of `this` is ensured in the method frame. -/
theorem ensures_inMethodFrame {Γ : Context} {superclass : Option Superclass} {c : Option Class}
    {body : Eval α} {P : α → Machine → Prop} (sound : m.Sound D)
    (stands : m.At Γ) (same : c.isSome = superclass.isSome) (hc : ∀ c' ∈ c, c'.Sound D m)
    (h : ∀ m₁, m₁.Sound D → m.heap.Grows m₁.heap → m₁.globals = m.globals →
      m₁.At (Γ.aroundThis superclass) → Ensures D m₁ body P)
    (back : ∀ a m₁, P a m₁ → P a { m₁ with current := m.current }) :
    Ensures D m (inMethodFrame c body) P := by
  cases c with
  | none =>
    cases superclass with
    | none => exact h m sound (.refl _) rfl ⟨stands.mirrors⟩
    | some _ => cases same
  | some c =>
    cases superclass with
    | none => cases same
    | some _ =>
      have grows : m.heap.Grows ((m.heap.push (some m.current)).define m.heap.frames.size "super"
          (.class c)) := (Heap.Grows.push _ _).define _ (.inr (Nat.le_refl _))
      have made : Machine.Sound D { m with
          heap :=
            (m.heap.push (some m.current)).define m.heap.frames.size "super" (.class c) } := by
        refine sound.grows grows rfl rfl (fun g name v e => ?_) fun _ _ _ => .inl
        rcases Heap.lookup?_define_cases e with e | rfl
        · rw [Heap.lookup?_push] at e
          exact .inl e
        · exact .inr ((hc c rfl).mono grows rfl)
      intro a m' e
      have inside := ensures_within (h _ (made.atFrame m.heap.frames.size) grows rfl
        ⟨stands.mirrors.enterWith sound.globals "super" _⟩) back a m' e
      exact ⟨inside.1, ⟨grows.trans inside.2.1.heap, inside.2.1.current, inside.2.1.globals⟩,
        inside.2.2⟩

theorem ensures_declareClass {Γ : Context} (sound : m.Sound D) (settled : Γ.Settled)
    (stands : m.At Γ) {name : Lexeme} {superclass : Option Superclass}
    {methods : List FunctionDecl} (located : (Stmt.classDecl name superclass methods).Located D Γ) :
    Ensures D m (declareClass name superclass methods) fun _ m' => m'.At (Γ.bind name.text) := by
  obtain ⟨isName, -, located⟩ := located
  refine ensures_bind (ensures_declare sound stands isName) fun _ _ sound _ stands => ?_
  refine ensures_bind (ensures_superclassOf sound name superclass) fun c m₁ sound grows hc => ?_
  replace stands := stands.grows grows
  have inside : Ensures D m₁ (inMethodFrame c (declareMethods methods ∅)) fun methods m' =>
      m'.SoundMethods D methods := by
    refine ensures_inMethodFrame sound stands hc.1 hc.2 (fun _ sound _ _ stands => ?_) fun _ _ => id
    refine ensures_declareMethods sound ((settled.bind isName).enterClass superclass) stands located
      fun name f e => ?_
    rw [Std.TreeMap.getElem?_emptyc] at e
    cases e
  refine ensures_bind inside fun methods m₂ sound grows hm => ?_
  replace stands := stands.grows grows
  have super : ∀ c' ∈ c, c'.Sound D m₂ := fun c' e => (hc.2 c' e).mono grows.heap grows.globals
  refine ensures_bind (ensures_currentFrame sound) fun frame m₃ sound _ e => ?_
  obtain ⟨rfl, rfl⟩ := e
  refine ensures_bind (ensures_freshIdentity sound) fun identity m₄ sound grows _ => ?_
  have made : (Value.class ⟨identity, name.text, c, methods⟩).Sound D m₄ := by
    intro other f e
    refine Function.SoundMethod.mono ?_ grows.heap grows.globals
    unfold Class.method? at e
    split at e
    · rename_i own
      cases e
      exact hm other _ own
    · split at e
      · exact super _ rfl other f e
      · cases e
  intro _ m' e
  obtain ⟨sound', grows', -⟩ := ensures_assignFrom sound _ isName made _ m' e
  exact ⟨sound', grows', (stands.grows grows).grows grows'⟩

/-! ## Calls -/

/-- Where the body of a call starts, the machine is sound, and stands in the body's context. -/
theorem sound_activate (sound : m.Sound D) {f : Function} {vs : List Value}
    (hvs : m.SoundAll D vs) :
    (m.activate f vs).Sound D ∧ m.heap.Grows (m.activate f vs).heap := by
  have grows : m.heap.Grows (m.activate f vs).heap :=
    (Heap.Grows.push _ _).defineAll (Nat.le_refl _) _ _
  refine ⟨sound.grows grows rfl rfl (fun g name v e => ?_) (fun o name v e => .inl ?_), grows⟩
  · rcases Heap.lookup?_defineAll_cases e with before | argument
    · rw [Heap.lookup?_push] at before
      exact .inl before
    · exact .inr ((hvs v argument).mono grows rfl)
  · rwa [Machine.activate, Heap.field?, Heap.fields_defineAll] at e

end Eval

end Lox
