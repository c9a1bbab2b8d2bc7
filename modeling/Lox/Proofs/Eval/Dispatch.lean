import Lox.Proofs.Eval.Failures
import Lox.Proofs.Eval.Origins
import Lox.Proofs.Eval.Receivers

/-!
# What `this` and `super` mean

A method is made by the execution of a class declaration, is bound to an instance, and is then
called, any number of times. Wherever `this` or `super` is evaluated, that is inside such a call, or
inside a function that was declared there, whenever this is called (`InMethod`,
`Reached.in_boundMethod`). There `this` is the instance, and `super` is the class that the
superclass of the declaration was when it was executed (`this_and_super_dispatch`).
-/

namespace Lox

section
variable (p : Checked) (host : Host) (fuel : Nat)

/-- The point is in a call of `g`, or in a call of a function that was declared inside a call of
`g`, in whatever depth. -/
inductive InMethod (g : Function) : Point → Prop
  | activation {n : Nat} {vs : List Value} {m : Machine}
    (called : Reached p host fuel ⟨n + 1, .call g vs, m⟩) :
    InMethod g ⟨n, .stmts g.decl.body, m.activate g vs⟩
  | step {x y : Point} (inside : InMethod g x) (calls : x.Calls y)
    (body : y.task.evaluates = true ∨ y.task.runsStatements = true) : InMethod g y
  | nested {x : Point} {n : Nat} {f : Function} {vs : List Value} {m : Machine}
    (inside : InMethod g x) (declares : x.DeclaresFunction f)
    (called : Reached p host fuel ⟨n + 1, .call f vs, m⟩) :
    InMethod g ⟨n, .stmts f.decl.body, m.activate f vs⟩

/-- The point is in a call of a method that was declared and bound. -/
def InBoundMethod (x : Point) : Prop :=
  ∃ superclass f o g, DeclaresMethod p host fuel superclass f ∧ BindsMethod p host fuel f o g ∧
    InMethod p host fuel g x

end

/-! ## Declarations -/

namespace Eval

variable {m m' : Machine}

/-- The methods of a class have the current frame as their closure. -/
theorem declareMethods_apply (decls : List FunctionDecl) (methods : Std.TreeMap String Function)
    (m : Machine) :
    ∃ methods' next, declareMethods decls methods m =
        .ok methods' { m with nextIdentity := next } ∧
      ∀ (k : String) (f : Function), methods'[k]? = some f →
        methods[k]? = some f ∨ f.closure = m.current ∧ f.decl ∈ decls := by
  induction decls generalizing methods m with
  | nil => exact ⟨methods, m.nextIdentity, rfl, fun k f => .inl⟩
  | cons decl decls ih =>
    let f : Function :=
      ⟨m.nextIdentity, decl, m.current, decl.name.text = initializerName⟩
    obtain ⟨methods', next, e, own⟩ := ih (methods.insert decl.name.text f)
      { m with nextIdentity := m.nextIdentity + 1 }
    refine ⟨methods', next, e, fun k g h => ?_⟩
    rcases own k g h with before | ⟨closure, inside⟩
    · rw [Std.TreeMap.getElem?_insert] at before
      split at before
      · cases before
        exact .inr ⟨rfl, List.mem_cons_self⟩
      · exact .inl before
    · exact .inr ⟨closure, List.mem_cons_of_mem _ inside⟩

/-- The methods of a class with a superclass have the frame in which `super` is bound as their
closure. -/
theorem inMethodFrame_apply (superclass : Option Class) (decls : List FunctionDecl) (m : Machine) :
    ∃ methods next h, inMethodFrame superclass (declareMethods decls ∅) m =
        .ok methods { m with heap := h, nextIdentity := next } ∧ m.heap.Grows h ∧
      (∀ c ∈ superclass, h.lookup? m.heap.frames.size "super" = some (.class c)) ∧
      ∀ (k : String) (f : Function), methods[k]? = some f →
        f.closure = superclass.elim m.current (fun _ => m.heap.frames.size) ∧ f.decl ∈ decls := by
  have closures {methods : Std.TreeMap String Function} {frame : FrameId}
      (own : ∀ (k : String) (f : Function), methods[k]? = some f →
        (∅ : Std.TreeMap String Function)[k]? = some f ∨ f.closure = frame ∧ f.decl ∈ decls)
      (k : String) (f : Function) (e : methods[k]? = some f) :
      f.closure = frame ∧ f.decl ∈ decls := by
    refine (own k f e).resolve_left fun e => ?_
    rw [Std.TreeMap.getElem?_emptyc] at e
    cases e
  cases superclass with
  | none =>
    obtain ⟨methods, next, e, own⟩ := declareMethods_apply decls ∅ m
    exact ⟨methods, next, m.heap, e, .refl _, nofun, closures own⟩
  | some c =>
    let h := (m.heap.push (some m.current)).define m.heap.frames.size "super" (.class c)
    obtain ⟨methods, next, e, own⟩ :=
      declareMethods_apply decls ∅ { m with heap := h, current := m.heap.frames.size }
    have run : inMethodFrame (some c) (declareMethods decls ∅) m =
        within m.heap.frames.size (declareMethods decls ∅) { m with heap := h } := rfl
    refine ⟨methods, next, h, run.trans (within_of_ok (m := { m with heap := h }) e),
      (Heap.Grows.push _ _).define _ (.inr (Nat.le_refl _)), ?_, closures own⟩
    rintro _ ⟨⟩
    show ((m.heap.push _).define _ _ _).lookup? _ _ = _
    rw [Heap.lookup?_define, if_pos ⟨rfl, by rw [Heap.size_push]; exact Nat.lt_succ_self _, rfl⟩]

section
variable {name : Lexeme} {superclass : Option Superclass} {methods : List FunctionDecl}
  {m₁ m₂ : Machine} {superclass' : Option Class} {table : Std.TreeMap String Function}

/-- Once the methods are made, the class is bound in the current frame. -/
theorem declareClass_of_made (current : m.current < m.heap.frames.size)
    (declared : declare name m = .ok () m₁)
    (yields : superclassOf name superclass m₁ = .ok superclass' m₁)
    (made : inMethodFrame superclass' (declareMethods methods ∅) m₁ = .ok table m₂) :
    ∃ m', declareClass name superclass methods m = .ok () m' ∧
      ∀ f ≠ m.current, ∀ n, m'.heap.lookup? f n = m₂.heap.lookup? f n := by
  obtain ⟨table', next, h, e, grows, -⟩ := inMethodFrame_apply superclass' methods m₁
  cases made.symm.trans e
  cases declared
  have holder : h.holder? m.current name.text = some m.current := by
    refine Heap.holder?_of_bound (grows.bound _ _ ?_)
    rw [Heap.lookup?_declare, if_pos ⟨rfl, current, rfl⟩]
    rfl
  refine ⟨_, (bind_of_ok rfl).trans ((bind_of_ok yields).trans ((bind_of_ok e).trans
    (assignFrom_of_some holder))), fun f apart n => ?_⟩
  rw [Heap.lookup?_define, if_neg fun here => apart here.1]

/-- The frame of the methods of a class with a superclass is not the one in which the class is
bound. -/
theorem super_of_declareClass (methods : List FunctionDecl)
    (current : m.current < m.heap.frames.size) {c : Class} (declared : declare name m = .ok () m₁)
    (yields : superclassOf name superclass m₁ = .ok (some c) m₁) :
    ∃ m', declareClass name superclass methods m = .ok () m' ∧
      m'.heap.lookup? m.heap.frames.size "super" = some (.class c) := by
  obtain ⟨table, next, h, made, -, super, -⟩ := inMethodFrame_apply (some c) methods m₁
  obtain ⟨m', ran, same⟩ := declareClass_of_made current declared yields made
  have size : m₁.heap.frames.size = m.heap.frames.size := by
    cases declared
    exact Heap.size_declare ..
  refine ⟨m', ran, (same _ (Nat.ne_of_gt current) "super").trans ?_⟩
  exact size ▸ super c rfl

/-- The methods of a class stand in the frame that the class declaration ran in, or in one in which
`super` is the superclass. -/
theorem closure_of_declareClass (current : m.current < m.heap.frames.size)
    (declared : declare name m = .ok () m₁)
    (yields : superclassOf name superclass m₁ = .ok superclass' m₁)
    (made : inMethodFrame superclass' (declareMethods methods ∅) m₁ = .ok table m₂) {k : String}
    {f : Function} (own : table[k]? = some f) :
    ∃ m', declareClass name superclass methods m = .ok () m' ∧
      (superclass' = none ∧ f.closure = m.current ∨
        ∃ s, superclass' = some s ∧ m'.heap.lookup? f.closure "super" = some (.class s)) := by
  obtain ⟨table', next, h, e, -, -, closures⟩ := inMethodFrame_apply superclass' methods m₁
  cases made.symm.trans e
  obtain ⟨closure, -⟩ := closures k f own
  have same : m₁.current = m.current ∧ m₁.heap.frames.size = m.heap.frames.size := by
    cases declared
    exact ⟨rfl, Heap.size_declare ..⟩
  cases superclass' with
  | none =>
    obtain ⟨m', ran, -⟩ := declareClass_of_made current declared yields made
    exact ⟨m', ran, .inl ⟨rfl, closure.trans same.1⟩⟩
  | some s =>
    obtain ⟨m', ran, super⟩ := super_of_declareClass methods current declared yields
    exact ⟨m', ran, .inr ⟨s, rfl, (closure.trans same.2) ▸ super⟩⟩

end

/-! ## Bindings -/

theorem property_of_method {o : Instance} {name : Lexeme} {f : Function}
    (noField : m.heap.field? o.identity name.text = none)
    (found : o.ofClass.method? name.text = some f) :
    property o name m = .ok (.function (f.boundBy m)) (m.afterBinding f o) := by
  refine (bind_of_ok (x := get) rfl).trans ?_
  rw [noField]
  dsimp only
  rw [found]
  rfl

/-- Once `this` and `super` are known, the method is looked for in the class that `super` is. -/
theorem superMethod_apply {id : ExprId} {keyword method : Lexeme} {d : Nat} {c : Class}
    {o : Instance} (known : m.distances[id]? = some (d + 1))
    (superclass : m.heap.getAt m.current (d + 1) "super" = .class c)
    (receiver : m.heap.getAt m.current d "this" = .instance o) :
    superMethod id keyword method m =
      match c.method? method.text with
      | some f => .ok (.function (f.boundBy m)) (m.afterBinding f o)
      | none => .error (.failed (method.blamedFor (.undefinedProperty method.text))) m := by
  refine (bind_of_ok (x := get) rfl).trans ?_
  rw [known]
  refine (bind_of_ok (x := lookUpAt (d + 1) "super") rfl).trans ?_
  refine (bind_of_ok (x := lookUpAt d "this") rfl).trans ?_
  rw [superclass, receiver]
  dsimp only
  cases c.method? method.text <;> rfl

/-- With a distance, `super` fails only for want of the method. -/
theorem stop_of_superMethod {id : ExprId} {keyword method : Lexeme} {d : Nat} {s : Stop}
    (known : m.distances[id]? = some (d + 1)) (e : superMethod id keyword method m = .error s m') :
    s = .failed (method.blamedFor (.undefinedProperty method.text)) := by
  rcases bind_eq_error.mp e with ⟨⟨⟩⟩ | ⟨_, _, ⟨⟩, e⟩
  rw [known] at e
  rcases bind_eq_error.mp e with ⟨⟨⟩⟩ | ⟨superclass, _, ⟨⟩, e⟩
  rcases bind_eq_error.mp e with ⟨⟨⟩⟩ | ⟨receiver, _, ⟨⟩, e⟩
  generalize m.heap.getAt m.current (d + 1) "super" = superclass at e
  generalize m.heap.getAt m.current d "this" = receiver at e
  split at e
  · rename_i c o
    cases found : c.method? method.text with
    | some f =>
      rw [found] at e
      rcases bind_eq_error.mp e with e | ⟨_, _, -, ⟨⟩⟩
      rw [bind_apply] at e
      cases e
    | none =>
      rw [found] at e
      cases e
      rfl
  · cases e
    rfl

end Eval

/-! ## The frames of receivers -/

section
variable {source : String} {p : Checked} {host : Host} {fuel : Nat} {f g : Function} {o : Instance}
  {x : Point}

/-- Where a statement is run, the current frame was made. -/
theorem Reached.current_lt (accepted : Source.check source = .ok p) {n : Nat} {s : Stmt}
    {m : Machine} (reached : Reached p host fuel ⟨n, .stmt s, m⟩) :
    m.current < m.heap.frames.size := by
  obtain ⟨Γ, ⟨sound, -, stands, -⟩, -⟩ := reached.ready accepted
  exact stands.mirrors.lt_size sound.globals

/-- At the end `super` is bound, in the closure of a method, to the superclass of its class, if it
has one. -/
theorem DeclaresMethod.super (accepted : Source.check source = .ok p) {superclass : Option Class}
    (declares : DeclaresMethod p host fuel superclass f) :
    (p.finalHeap host fuel).lookup? f.closure "super" = superclass.map .class := by
  cases declares with
  | intro reached declares own =>
    cases declares with
    | intro declared yields made =>
      obtain ⟨m', ran, closure⟩ := Eval.closure_of_declareClass (reached.current_lt accepted)
        declared yields made own
      rcases closure with ⟨rfl, closure⟩ | ⟨s, rfl, super⟩
      · rw [closure]
        exact reached.no_keyword accepted .super
      · have grows := reached.grows_after accepted
        rw [Point.after, Task.run, Eval.stmt, bind_of_ok ran] at grows
        exact grows.keyword_of_eq (k := .super) super

/-- The machine that bound a method is the one that the point leaves, or one on which the point has
the initializer called. -/
theorem Point.BindsMethod.afterBinding_eq {m : Machine} (binds : x.BindsMethod f o m) :
    x.after = m.afterBinding f o ∨ ∃ y, x.Calls y ∧ y.machine = m.afterBinding f o := by
  cases binds with
  | @property n m₀ object name _ _ _ evaluated noField found =>
    have ran : Eval.expr (n + 1) (.get object name) m₀ =
        .ok (.function (f.boundBy m)) (m.afterBinding f o) :=
      (bind_of_ok evaluated).trans (Eval.property_of_method noField found)
    exact .inl (by rw [Point.after, Task.run, ran]; rfl)
  | super known superclass receiver found =>
    refine .inl ?_
    rw [Point.after, Task.run, Eval.expr, Eval.superMethod_apply known superclass receiver, found]
    rfl
  | initializer found made => exact .inr ⟨_, .initializer found made, rfl⟩

/-- At the end the closure of a bound method binds `this` to the instance, inside the closure of the
method. -/
theorem BindsMethod.frame (accepted : Source.check source = .ok p)
    (binds : BindsMethod p host fuel f o g) :
    (p.finalHeap host fuel).lookup? g.closure "this" = some (.instance o) ∧
      (p.finalHeap host fuel).enclosing? g.closure = some f.closure := by
  cases binds with
  | @intro x m reached binds =>
    have grows : (m.afterBinding f o).heap.Grows (p.finalHeap host fuel) := by
      rcases binds.afterBinding_eq with e | ⟨y, calls, e⟩
      · exact e ▸ reached.grows_after accepted
      · exact e ▸ (reached.calls calls).grows accepted
    exact ⟨grows.keyword_of_eq (k := .this) (m.lookup?_afterBinding f o),
      grows.link_of_eq (m.enclosing?_afterBinding f o)⟩

namespace InMethod

theorem reached (inside : InMethod p host fuel g x) : Reached p host fuel x := by
  induction inside with
  | activation called => exact called.calls .body
  | step _ calls _ ih => exact ih.calls calls
  | nested _ _ called => exact called.calls .body

theorem in_body (inside : InMethod p host fuel g x) :
    x.task.evaluates = true ∨ x.task.runsStatements = true := by
  cases inside with
  | activation | nested => exact .inr rfl
  | step _ _ body => exact body

/-- The call of a function starts one link inside its closure. -/
theorem searches_activate (accepted : Source.check source = .ok p) {n : Nat} {vs : List Value}
    {m : Machine} (called : Reached p host fuel ⟨n + 1, .call f vs, m⟩) {k : Keyword}
    {found : Option FrameId} (rest : (p.finalHeap host fuel).Searches k.text f.closure found) :
    (p.finalHeap host fuel).Searches k.text (m.activate f vs).current found := by
  have body := called.calls .body
  have link := (body.grows accepted).link_of_eq (m.enclosing?_activate f vs)
  exact .outward (body.no_keyword accepted k) link rest

/-- From the frame that is current inside the calls of a bound method, the nearest one that binds
`this` is the closure of that method. -/
theorem searches (accepted : Source.check source = .ok p) (binds : BindsMethod p host fuel f o g)
    (inside : InMethod p host fuel g x) :
    (p.finalHeap host fuel).Searches "this" x.machine.current (some g.closure) := by
  have here : (p.finalHeap host fuel).Searches "this" g.closure (some g.closure) :=
    .here ((binds.frame accepted).1 ▸ rfl)
  induction inside with
  | activation called => exact searches_activate accepted called (k := .this) here
  | @step x y inside calls body ih =>
    rcases calls.current_cases with same | ⟨body, -, e⟩ | ⟨f, vs, task, -⟩
    · rw [same]
      exact ih
    · have reached := inside.reached.calls calls
      have link : y.machine.heap.enclosing? y.machine.current = some x.machine.current :=
        e ▸ x.machine.enclosing?_enter x.machine.current
      exact .outward (reached.no_keyword accepted .this)
        ((reached.grows accepted).link_of_eq link) ih
    · rcases inside.in_body with evaluates | runs
      · rw [task] at evaluates
        cases evaluates
      · rw [task] at runs
        cases runs
  | @nested x n h vs m inside declares called ih =>
    cases declares
    exact searches_activate accepted called (k := .this) ih

end InMethod

/-- Where a frame around the current one binds `this`, a body is performed only in a call of a
method that was bound. The induction is on the current frame: a function that was declared was so
where a frame further out was current. -/
theorem Reached.in_boundMethod (accepted : Source.check source = .ok p)
    (reached : Reached p host fuel x)
    (body : x.task.evaluates = true ∨ x.task.runsStatements = true) {F : FrameId}
    (search : (p.finalHeap host fuel).Searches "this" x.machine.current (some F)) :
    InBoundMethod p host fuel x := by
  induction frame : x.machine.current using Nat.strongRecOn generalizing x with
  | ind c ih =>
    subst frame
    have free : (p.finalHeap host fuel).lookup? x.machine.current "this" = none :=
      reached.no_keyword accepted .this
    obtain ⟨s, m₀, starts, path⟩ := id reached
    induction path with
    | refl =>
      have outermost : (p.finalHeap host fuel).enclosing? m₀.current = none := by
        rw [starts.current]
        exact (Checked.grows_start accepted).1.link 0 Nat.one_pos
      cases search with
      | here bound =>
        rw [free] at bound
        cases bound
      | outward _ link => cases outermost.symm.trans link
    | @tail x y path calls ihPath =>
      have before : Reached p host fuel x := ⟨s, m₀, starts, path⟩
      have grows := reached.grows accepted
      rcases calls.body_cases body with body' | ⟨n, f, vs, m, rfl, rfl⟩
      · -- a part of the same body, or the body of a block
        have step (inside : InBoundMethod p host fuel x) : InBoundMethod p host fuel y := by
          obtain ⟨superclass, f, o, g, declares, binds, inside⟩ := inside
          exact ⟨superclass, f, o, g, declares, binds, .step inside calls body⟩
        rcases calls.current_cases with same | ⟨inner, task, e⟩ | ⟨f, vs, task, -⟩
        · rw [same] at ih search free
          exact step (ihPath before body' search ih free)
        · have link : y.machine.heap.enclosing? y.machine.current = some x.machine.current :=
            e ▸ x.machine.enclosing?_enter x.machine.current
          have outer := search.rest free (grows.link_of_eq link)
          refine step (ih _ ?_ before body' outer rfl)
          obtain ⟨n, _, m⟩ := x
          cases task
          rw [e]
          exact before.current_lt accepted
        · rw [task] at body'
          rcases body' with h | h <;> cases h
      · -- the body of a call
        have outer := search.rest free (grows.link_of_eq (m.enclosing?_activate f vs))
        rcases before.called_cases with ⟨z, there, declares⟩ | ⟨superclass, f₀, o, declares, binds⟩
        · obtain ⟨Γ, ⟨sound, -, ⟨_, _, -, mirrors, -⟩, -⟩, -⟩ := before.ready accepted
          have inward : f.closure < m.heap.frames.size := mirrors.lt_size sound.globals
          obtain ⟨superclass, f₀, o, g, declares', binds, inside⟩ :
              InBoundMethod p host fuel z := by
            cases declares
            exact ih _ inward there (.inr rfl) outer rfl
          exact ⟨superclass, f₀, o, g, declares', binds, .nested inside declares before⟩
        · exact ⟨superclass, f₀, o, f, declares, binds, .activation before⟩

/-- Where the scopes have `this`, a body is performed only in a call of a method that was bound. -/
theorem Reached.in_boundMethod_of_distance (accepted : Source.check source = .ok p)
    (reached : Reached p host fuel x)
    (body : x.task.evaluates = true ∨ x.task.runsStatements = true) {Γ : Context}
    (proper : Γ.Proper) (stands : x.machine.At Γ) {d : Nat} (e : Γ.distance? "this" = some d) :
    InBoundMethod p host fuel x := by
  obtain ⟨scope, there, defined⟩ := proper.defined_keyword (k := .this) e
  obtain ⟨F, -, found⟩ := stands.mirrors.searches (k := .this) e there defined
  exact reached.in_boundMethod accepted body (found.grows (k := .this) (reached.grows accepted))

namespace InMethod

/-- At the distance of `this`, in a call of a bound method, lies the closure of the method, in which
`this` is the instance that the method was bound to. -/
theorem outward?_this (accepted : Source.check source = .ok p)
    (binds : BindsMethod p host fuel f o g) (inside : InMethod p host fuel g x) {Γ : Context}
    (proper : Γ.Proper) (stands : x.machine.At Γ) {d : Nat} (e : Γ.distance? "this" = some d) :
    x.machine.heap.outward? x.machine.current d = some g.closure ∧
      x.machine.heap.lookup? g.closure "this" = some (.instance o) ∧
      x.machine.heap.enclosing? g.closure = some f.closure := by
  have grows := inside.reached.grows accepted
  obtain ⟨scope, there, defined⟩ := proper.defined_keyword (k := .this) e
  obtain ⟨F, outward, found⟩ := stands.mirrors.searches (k := .this) e there defined
  obtain rfl : F = g.closure :=
    Option.some.inj ((found.grows (k := .this) grows).unique (inside.searches accepted binds))
  obtain ⟨F', outward', -, bound⟩ := stands.mirrors.outward? there
  obtain rfl : g.closure = F' := Option.some.inj (outward.symm.trans outward')
  obtain ⟨v, known⟩ := Option.isSome_iff_exists.mp (bound _ defined)
  have made := Heap.lt_size_of_lookup? known
  obtain ⟨this, link⟩ := binds.frame accepted
  exact ⟨outward, (grows.keyword _ made .this).symm.trans this, (grows.link _ made).symm.trans link⟩

/-- In a call of a bound method `this` is the instance that the method was bound to. -/
theorem this_eq (accepted : Source.check source = .ok p) (binds : BindsMethod p host fuel f o g)
    {n : Nat} {id : ExprId} {keyword : Lexeme} {m : Machine}
    (inside : InMethod p host fuel g ⟨n + 1, .expr (.this id keyword), m⟩) :
    Eval.expr (n + 1) (.this id keyword) m = .ok (.instance o) m := by
  obtain ⟨Γ, ⟨sound, proper, stands, inClass, isThis, located⟩, -⟩ :=
    inside.reached.ready accepted
  obtain ⟨d, e⟩ := proper.this inClass
  obtain ⟨outward, this, -⟩ := outward?_this accepted binds inside proper stands e
  have known : m.distances[id]? = some d := sound.distances ▸ located.trans e
  rw [Eval.expr, Eval.lookUp, known]
  dsimp only
  rw [isThis, Heap.getAt_of_outward? outward this]

/-- In a call of a bound method `super` is the superclass that its class was given when it was
declared, and `this`, one link inside it, is the instance. -/
theorem super_eq (accepted : Source.check source = .ok p) {superclass : Option Class}
    (declares : DeclaresMethod p host fuel superclass f) (binds : BindsMethod p host fuel f o g)
    {n : Nat} {id : ExprId} {keyword method : Lexeme} {m : Machine}
    (inside : InMethod p host fuel g ⟨n + 1, .expr (.super id keyword method), m⟩) :
    ∃ c d, superclass = some c ∧ m.distances[id]? = some (d + 1) ∧
      m.heap.getAt m.current (d + 1) "super" = .class c ∧
      m.heap.getAt m.current d "this" = .instance o := by
  obtain ⟨Γ, ⟨sound, proper, stands, derived, located⟩, -⟩ := inside.reached.ready accepted
  have grows := inside.reached.grows accepted
  obtain ⟨d, e, e'⟩ := proper.super derived
  obtain ⟨outward, this, link⟩ := outward?_this accepted binds inside proper stands e
  have outward' : m.heap.outward? m.current (d + 1) = some f.closure := by
    rw [Heap.outward?_succ, outward]
    exact link
  obtain ⟨scope, there, defined⟩ := proper.defined_keyword (k := .super) e'
  obtain ⟨F, outward'', -, bound⟩ := stands.mirrors.outward? there
  obtain rfl : f.closure = F := Option.some.inj (outward'.symm.trans outward'')
  obtain ⟨v, known⟩ := Option.isSome_iff_exists.mp (bound _ defined)
  have atEnd := grows.keyword_of_eq (k := .super) known
  obtain ⟨c, rfl, rfl⟩ := Option.map_eq_some_iff.mp ((declares.super accepted).symm.trans atEnd)
  exact ⟨c, d, rfl, sound.distances ▸ located.trans e', Heap.getAt_of_outward? outward' known,
    Heap.getAt_of_outward? outward this⟩

end InMethod

/-! ## Failures -/

/-- Wherever `super` is evaluated, it fails only for want of the method. -/
theorem Reached.stop_of_super (accepted : Source.check source = .ok p) {n : Nat} {id : ExprId}
    {keyword method : Lexeme} {m m' : Machine} {s : Stop}
    (reached : Reached p host fuel ⟨n + 1, .expr (.super id keyword method), m⟩)
    (e : Eval.expr (n + 1) (.super id keyword method) m = .error s m') :
    s = .failed (method.blamedFor (.undefinedProperty method.text)) := by
  obtain ⟨Γ, ⟨sound, proper, -, derived, located⟩, -⟩ := reached.ready accepted
  obtain ⟨d, -, e'⟩ := proper.super derived
  exact Eval.stop_of_superMethod (sound.distances ▸ located.trans e') e

/-- No point of the run of an accepted source fails because `super` stands outside of a class. -/
theorem Reached.not_stops_outsideClass (accepted : Source.check source = .ok p)
    (reached : Reached p host fuel x) (line : Nat) :
    ¬ x.Stops (.failed (.runtime ⟨.superOutsideClass, line⟩)) := by
  intro stops
  obtain ⟨⟨n, t, m⟩, path, raises, m', e⟩ := stops.origin
  obtain ⟨s, m₀, starts, path'⟩ := reached
  have there : Reached p host fuel ⟨n, t, m⟩ := ⟨s, m₀, starts, path'.trans path⟩
  generalize same : Failure.runtime ⟨.superOutsideClass, line⟩ = failure at raises e
  cases raises with
  | superOutsideClass =>
    cases n with
    | zero => cases e
    | succ n =>
      have missing := there.stop_of_super accepted e
      rw [← same] at missing
      cases missing
  | _ => cases same

end

/-- In the calls of a method, and in the functions declared there whenever they are called, `this`
is the instance that the method was bound to; nowhere else is `this` or `super` evaluated. The
method that `super` gives is that of the nearest class that has one, from the class upward that the
superclass of the declaration was when the declaration was executed, and it is bound to the same
instance; if there is none, this is the failure, and it is the only one. That `super` stands outside
of a class is never the failure of any part of the run. -/
theorem this_and_super_dispatch {source : String} {p : Checked}
    (accepted : Source.check source = .ok p) (host : Host) (fuel : Nat) :
    (∀ superclass f o g n m, DeclaresMethod p host fuel superclass f →
      BindsMethod p host fuel f o g →
      (∀ id keyword, InMethod p host fuel g ⟨n + 1, .expr (.this id keyword), m⟩ →
        Eval.expr (n + 1) (.this id keyword) m = .ok (.instance o) m) ∧
      ∀ id keyword method, InMethod p host fuel g ⟨n + 1, .expr (.super id keyword method), m⟩ →
        ∃ c, superclass = some c ∧
          (∀ f', c.lineage.findSome? (·.methods[method.text]?) = some f' →
            BindsMethod p host fuel f' o (f'.boundBy m) ∧
            Eval.expr (n + 1) (.super id keyword method) m =
              .ok (.function (f'.boundBy m)) (m.afterBinding f' o)) ∧
          (c.lineage.findSome? (·.methods[method.text]?) = none →
            Eval.expr (n + 1) (.super id keyword method) m =
              .error (.failed (method.blamedFor (.undefinedProperty method.text))) m)) ∧
    (∀ n id keyword m, Reached p host fuel ⟨n, .expr (.this id keyword), m⟩ →
      InBoundMethod p host fuel ⟨n, .expr (.this id keyword), m⟩) ∧
    (∀ n id keyword method m, Reached p host fuel ⟨n, .expr (.super id keyword method), m⟩ →
      InBoundMethod p host fuel ⟨n, .expr (.super id keyword method), m⟩) ∧
    (∀ n id keyword method m s m',
      Reached p host fuel ⟨n + 1, .expr (.super id keyword method), m⟩ →
      Eval.expr (n + 1) (.super id keyword method) m = .error s m' →
      s = .failed (method.blamedFor (.undefinedProperty method.text))) ∧
    (∀ x line, Reached p host fuel x →
      ¬ x.Stops (.failed (.runtime ⟨.superOutsideClass, line⟩))) ∧
    ∀ line m', Eval.program fuel p.statements p.distances (.start host) ≠
      .error (.failed (.runtime ⟨.superOutsideClass, line⟩)) m' := by
  refine ⟨fun superclass f o g n m declares binds => ⟨fun id keyword inside => ?_,
    fun id keyword method inside => ?_⟩, fun n id keyword m reached => ?_,
    fun n id keyword method m reached => ?_, ?_, ?_, ?_⟩
  · exact inside.this_eq accepted binds
  · obtain ⟨c, d, rfl, known, super, this⟩ := inside.super_eq accepted declares binds
    have run : Eval.expr (n + 1) (.super id keyword method) m = _ :=
      Eval.superMethod_apply known super this
    rw [c.method?_eq] at run
    refine ⟨c, rfl, fun f' found => ?_, fun missing => ?_⟩
    · rw [found] at run
      rw [← c.method?_eq] at found
      exact ⟨.intro inside.reached (.super known super this found), run⟩
    · rw [missing] at run
      exact run
  · obtain ⟨Γ, ⟨-, proper, stands, inClass, -⟩, -⟩ := reached.ready accepted
    obtain ⟨d, e⟩ := proper.this inClass
    exact reached.in_boundMethod_of_distance accepted (.inl rfl) proper stands e
  · obtain ⟨Γ, ⟨-, proper, stands, derived, -⟩, -⟩ := reached.ready accepted
    obtain ⟨d, e, -⟩ := proper.super derived
    exact reached.in_boundMethod_of_distance accepted (.inl rfl) proper stands e
  · exact fun n id keyword method m s m' reached => reached.stop_of_super accepted
  · exact fun x line reached => reached.not_stops_outsideClass accepted line
  · intro line m' e
    rcases Checked.failure_origin e with ⟨⟨⟩⟩ | ⟨y, reached, -, stops⟩
    exact reached.not_stops_outsideClass accepted line stops

/-- In this program `super.m` gives the method of `A`, bound to the instance of `B`. -/
theorem super_finds_method :
    ∃ p superclass f o g m,
      Source.check
        "class A \x7bm() \x7b\x7d\x7d class B < A \x7bm() \x7bsuper.m;\x7d\x7d B().m();" = .ok p ∧
      DeclaresMethod p ⟨fun _ => 0, none, false⟩ 9 (some superclass) f ∧
      BindsMethod p ⟨fun _ => 0, none, false⟩ 9 f o g ∧
      InMethod p ⟨fun _ => 0, none, false⟩ 9 g
        ⟨3, .expr (.super 1 ⟨"super", 1⟩ ⟨"m", 1⟩), m⟩ ∧
      ∃ f', superclass.method? "m" = some f' ∧
        Eval.expr 3 (.super 1 ⟨"super", 1⟩ ⟨"m", 1⟩) m =
          .ok (.function (f'.boundBy m)) (m.afterBinding f' o) := by
  let host : Host := ⟨fun _ => 0, none, false⟩
  let declA : FunctionDecl := ⟨⟨"m", 1⟩, [], []⟩
  let declB : FunctionDecl := ⟨⟨"m", 1⟩, [], [.expression (.super 1 ⟨"super", 1⟩ ⟨"m", 1⟩)]⟩
  let classA : Stmt := .classDecl ⟨"A", 1⟩ none [declA]
  let classB : Stmt := .classDecl ⟨"B", 1⟩ (some ⟨0, ⟨"A", 1⟩⟩) [declB]
  let made : Expr := .call (.variable 2 ⟨"B", 1⟩) ⟨")", 1⟩ []
  let callM : Stmt := .expression (.call (.get made ⟨"m", 1⟩) ⟨")", 1⟩ [])
  let p : Checked := ⟨[classA, classB, callM], (∅ : Distances).insert 1 2⟩
  have accepted : Source.check
      "class A \x7bm() \x7b\x7d\x7d class B < A \x7bm() \x7bsuper.m;\x7d\x7d B().m();" =
      .ok p := by cbv
  let start := p.start host
  let mA : Function := ⟨0, declA, 0, false⟩
  let a : Class := ⟨1, "A", none, (∅ : Std.TreeMap String Function).insert "m" mA⟩
  let m₁ : Machine := { start with
    heap := (start.heap.declare 0 "A").define 0 "A" (.class a)
    nextIdentity := 2 }
  have ranA : Eval.stmt 9 classA start = .ok .normal m₁ := by with_unfolding_all rfl
  let mB : Function := ⟨2, declB, 1, false⟩
  let b : Class := ⟨3, "B", some a, (∅ : Std.TreeMap String Function).insert "m" mB⟩
  let inB : Machine := { m₁ with
    heap := ((m₁.heap.declare 0 "B").push (some 0)).define 1 "super" (.class a)
    nextIdentity := 3 }
  let m₂ : Machine := { inB with
    heap := inB.heap.define 0 "B" (.class b)
    nextIdentity := 4 }
  have ranB : Eval.stmt 9 classB m₁ = .ok .normal m₂ := by with_unfolding_all rfl
  have madeB : Eval.inMethodFrame (some a) (Eval.declareMethods [declB] ∅)
      { m₁ with heap := m₁.heap.declare 0 "B" } = .ok b.methods inB := by with_unfolding_all rfl
  have reachedB : Reached p host 9 ⟨9, .stmt classB, m₁⟩ := ⟨_, _, .later ranA .first, .refl⟩
  have declares : DeclaresMethod p host 9 (some a) mB :=
    .intro reachedB (.intro rfl (by with_unfolding_all rfl) madeB)
      (show b.methods["m"]? = some mB by with_unfolding_all rfl)
  let o : Instance := ⟨0, b⟩
  let m₃ : Machine := { m₂ with heap := m₂.heap.pushInstance }
  have evaluated : Eval.expr 6 made m₂ = .ok (.instance o) m₃ := by with_unfolding_all rfl
  have noField : m₃.heap.field? o.identity "m" = none := by with_unfolding_all rfl
  have found : o.ofClass.method? "m" = some mB := by with_unfolding_all rfl
  have starts : Starts 9 p.statements (p.start host) callM m₂ := .later ranA (.later ranB .first)
  have getting : Reached p host 9 ⟨7, .expr (.get made ⟨"m", 1⟩), m₂⟩ :=
    ⟨_, _, starts, .head .expression (.single .callee)⟩
  have binds : BindsMethod p host 9 mB o (mB.boundBy m₃) :=
    .intro getting (.property evaluated noField found)
  have got : Eval.expr 7 (.get made ⟨"m", 1⟩) m₂ =
      .ok (.function (mB.boundBy m₃)) (m₃.afterBinding mB o) :=
    (bind_of_ok evaluated).trans (Eval.property_of_method noField found)
  have called : Reached p host 9 ⟨6, .call (mB.boundBy m₃) [], m₃.afterBinding mB o⟩ :=
    ⟨_, _, starts, .head .expression (.head (.apply got rfl)
      (.single (.function (Nat.le_refl 0))))⟩
  have inside : InMethod p host 9 (mB.boundBy m₃) ⟨3, .expr (.super 1 ⟨"super", 1⟩ ⟨"m", 1⟩),
      (m₃.afterBinding mB o).activate (mB.boundBy m₃) []⟩ :=
    .step (.step (.activation called) .firstStmt (.inr rfl)) .expression (.inl rfl)
  obtain ⟨c, ⟨⟩, gives, -⟩ := ((this_and_super_dispatch accepted host 9).1 (some a) mB o _ 2 _
    declares binds).2 1 ⟨"super", 1⟩ ⟨"m", 1⟩ inside
  have own : a.method? "m" = some mA := by with_unfolding_all rfl
  exact ⟨p, a, mB, o, _, _, accepted, declares, binds, inside, mA, own,
    (gives mA ((a.method?_eq "m").symm.trans own)).2⟩
end Lox
