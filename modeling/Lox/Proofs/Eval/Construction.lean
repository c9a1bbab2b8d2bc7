import Mathlib
import Lox.Proofs.Eval.Dispatch

/-!
# How instances are made

A method stands in the table of its class under its own name, and is an initializer if that is
`init`, whatever a session runs: that is a discipline (`methodical`). And no code that was read from
a source binds a keyword, so that the frame in which a method is bound keeps its `this`, at any
distances (`Shape.grows`). So a call of a class gives a new instance of that class, to which the
initializer was bound, and a call of a bound initializer gives the instance that it was bound to
(`construction_gives_new_instance`).
-/

namespace Lox

/-! ## Names of methods -/

/-- The method stands under its own name, and it is an initializer if that is `init`. -/
def Function.NamedMethod (name : String) (f : Function) : Prop :=
  f.decl.name.text = name ∧ f.isInitializer = decide (f.decl.name.text = initializerName)

/-- All methods of the class and of those above it stand under their own names. -/
def Class.Methodical (c : Class) : Prop :=
  ∀ d ∈ c.lineage, ∀ (n : String) (f : Function), d.methods[n]? = some f → f.NamedMethod n

/-- If the value is a class or an instance, the methods of the class stand under their own names. -/
def Value.Methodical : Value → Prop
  | .class c => c.Methodical
  | .instance o => o.ofClass.Methodical
  | _ => True

theorem Value.IsPlain.methodical {v : Value} (plain : v.IsPlain) : v.Methodical := by
  cases v <;> trivial

theorem Class.Methodical.superclass {c s : Class} (h : c.Methodical) (e : c.superclass = some s) :
    s.Methodical := by
  obtain ⟨identity, name, superclass, methods⟩ := c
  cases e
  refine fun d inside => h d ?_
  rw [Class.lineage]
  exact List.mem_cons_of_mem _ inside

theorem Class.Methodical.method {c : Class} (h : c.Methodical) {n : String} {f : Function}
    (found : c.method? n = some f) : f.NamedMethod n := by
  rw [c.method?_eq] at found
  obtain ⟨d, inside, own⟩ := List.exists_of_findSome?_eq_some found
  exact h d inside n f own

/-- A class declaration puts methods under their own names. -/
theorem Eval.namedMethod_of_declareMethods {decls : List FunctionDecl}
    {methods table : Std.TreeMap String Function} {m m' : Machine}
    (named : ∀ (n : String) (f : Function), methods[n]? = some f → f.NamedMethod n)
    (made : declareMethods decls methods m = .ok table m') {n : String} {f : Function}
    (own : table[n]? = some f) : f.NamedMethod n := by
  induction decls generalizing methods m with
  | nil =>
    obtain ⟨rfl, -⟩ := pure_eq_ok.mp made
    exact named n f own
  | cons decl decls ih =>
    refine ih (fun k g e => ?_) made
    rw [Std.TreeMap.getElem?_insert] at e
    split at e
    · rename_i same
      cases e
      exact ⟨compare_eq_iff_eq.mp same, rfl⟩
    · exact named k g e

/-- The table is made of the methods of the declaration. -/
theorem Point.DeclaresMethods.made {n : Nat} {name : Lexeme} {superclass : Option Superclass}
    {decls : List FunctionDecl} {m : Machine} {above : Option Class}
    {table : Std.TreeMap String Function}
    (declares : DeclaresMethods ⟨n + 1, .stmt (.classDecl name superclass decls), m⟩ above table) :
    ∃ m₁ m₂, Eval.declareMethods decls ∅ m₁ = .ok table m₂ := by
  obtain ⟨-, -, made⟩ := declares
  cases above with
  | none => exact ⟨_, _, made⟩
  | some c =>
    obtain ⟨_, _, -, made⟩ := bind_eq_ok.mp made
    obtain ⟨_, _, -, made⟩ := bind_eq_ok.mp made
    obtain ⟨_, _, -, made⟩ := bind_eq_ok.mp made
    obtain ⟨_, made, -⟩ := Eval.within_eq_ok.mp made
    exact ⟨_, _, made⟩

theorem Point.DeclaresMethods.namedMethod {x : Point} {superclass : Option Class}
    {table : Std.TreeMap String Function} (declares : x.DeclaresMethods superclass table)
    {n : String} {f : Function} (own : table[n]? = some f) : f.NamedMethod n := by
  have none : ∀ (n : String) (f : Function), (∅ : Std.TreeMap String Function)[n]? = some f →
      f.NamedMethod n := fun n f e => by rw [Std.TreeMap.getElem?_emptyc] at e; cases e
  cases id declares with
  | intro =>
    obtain ⟨_, _, made⟩ := declares.made
    exact Eval.namedMethod_of_declareMethods none made own

/-- Only classes are used whose methods stand under their own names. -/
def methodical : Discipline Unit where
  fits _ m := m.heap.Within Value.Methodical
  frame _ _ := True
  function _ _ := True
  value _ v := v.Methodical
  name _ := True
  visits _ := True
  fits_congr w e _ _ := e ▸ w
  calls _ _ := trivial
  frame_mono _ := id
  function_mono _ := id
  value_mono _ := id
  plain := Value.IsPlain.methodical
  closure _ := trivial
  code _ _ _ := trivial
  called _ := trivial
  ownMethod _ _ := trivial
  superclass h e := Class.Methodical.superclass h e
  ofClass h := h
  globals _ := trivial
  link _ _ _ := trivial
  binding w _ e := w.binding _ _ _ e
  field w _ e := w.field _ _ _ e
  defined {_ m f n v} w _ _ hv := ⟨(), le_refl _, w.binds (Heap.binds_define m.heap f n v) hv⟩
  declared w _ _ := ⟨(), le_refl _, w.declare trivial _ _⟩
  fieldSet w _ hv := ⟨(), le_refl _, w.setField _ _ hv⟩
  frameMade w _ := ⟨(), le_refl _, w.push _, trivial⟩
  superFrameMade w _ hc := ⟨(), le_refl _, (w.push _).binds (Heap.binds_define ..) hc, trivial⟩
  methodBound _ _ w _ ho :=
    ⟨(), le_refl _, (w.push _).binds (Heap.binds_define ..) ho, trivial⟩
  instanceMade w hc := ⟨(), le_refl _, w.pushInstance, hc⟩
  functionMade w _ _ := ⟨(), le_refl _, w, trivial⟩
  functionDeclared _ _ _ := trivial
  classMade {_ _ _ _ superclass _} _ declares w hs _ := by
    refine ⟨(), le_refl _, w, fun d inside n f own => ?_⟩
    unfold Class.lineage at inside
    rcases List.mem_cons.mp inside with rfl | above
    · exact declares.namedMethod own
    · cases superclass with
      | none => cases above
      | some s => exact hs s rfl d above n f own

/-- A class that is held, on a machine that fits, has its methods under their own names. -/
theorem methodical_of_holds {m : Machine} {vs : List Value} {c : Class}
    (ready : methodical.Ready () m) (atHand : ∀ v ∈ vs, v.Methodical)
    (holds : m.heap.Holds vs (.class c)) : c.Methodical :=
  ready.fits.holds (v := .class c) atHand (fun _ _ _ _ _ => trivial)
    (fun _ _ h e => Class.Methodical.superclass h e) (fun _ h => h) holds

/-- The method that is bound at a point is called as it is named. -/
theorem Point.BindsMethod.isInitializer_eq {x : Point} {f : Function} {o : Instance} {m : Machine}
    (binds : x.BindsMethod f o m) (covers : methodical.Covers () x ()) :
    f.isInitializer = decide (f.decl.name.text = initializerName) := by
  cases binds with
  | property evaluated _ found =>
    obtain ⟨_, _, -, -, -, -, -, -, gives⟩ := covers _ (.single .getObject)
    exact (Class.Methodical.method (gives _ _ evaluated) found).2
  | @super _ _ _ _ _ distance _ _ _ _ superclass _ found =>
    obtain ⟨_, _, -, -, -, ready, -⟩ := covers _ .refl
    have known := ready.fits.getAt trivial m.current (distance + 1) "super"
    rw [superclass] at known
    exact (Class.Methodical.method known found).2
  | initializer found made =>
    obtain ⟨_, _, -, -, -, -, admitted, -⟩ := covers _ .refl
    exact (Class.Methodical.method admitted.1 found).2

/-! ## Names in sources -/

namespace Source

variable {source : String}

/-- What comes of two stages of reading comes of what the first gives. -/
theorem bind_eq_ok {α β : Type} {x : Except Fault α} {f : α → Except Fault β} {b : β}
    (h : (x >>= f) = .ok b) : ∃ a, x = .ok a ∧ f a = .ok b := by
  cases x with
  | error fault => cases h
  | ok a => exact ⟨a, rfl, h⟩

theorem eq_tokensOf {tokens : List Token} (h : Source.tokens source = .ok tokens) :
    tokens = tokensOf source := by
  unfold Source.tokens at h
  split at h <;> cases h
  rfl

/-- An expression binds no keyword. -/
theorem noKeyword_of_expression {e : Expr} (read : expression source = .ok e) :
    ∀ n ∈ e.written, NoKeyword n := by
  obtain ⟨tokens, scanned, read⟩ := bind_eq_ok read
  obtain rfl := eq_tokensOf scanned
  split at read <;> cases read
  rename_i read
  exact (Expr.wellFormed_ofTokens (fun _ => spelt_of_mem_tokensOf) read).written
    fun _ h => h.isName fun _ => id

/-- Statements bind no keyword. -/
theorem noKeyword_of_statements {ss : List Stmt} (read : statements source = .ok ss) :
    ∀ n ∈ Stmt.writtenList ss, NoKeyword n := by
  obtain ⟨noErrors, rfl⟩ := Program.statements?_eq_ok (statements_eq_ok.mp read).2
  have wellFormed := Program.read_ofTokens (fun _ => spelt_of_mem_tokensOf) noErrors
  exact Stmt.WellFormedList.written (fun _ h => h.isName fun _ => id) _ wellFormed.1

end Source

/-- The source of a step binds no keyword. -/
theorem Step.noKeyword_of_writes {s : Step} {n : String} (writes : s.Writes n) : NoKeyword n := by
  cases s with
  | evaluate source =>
    obtain ⟨e, read, inside⟩ := writes
    exact Source.noKeyword_of_expression read n inside
  | run source =>
    obtain ⟨p, checked, inside⟩ := writes
    obtain ⟨ss, read, located⟩ := Source.bind_eq_ok checked
    split at located <;> cases located
    exact Source.noKeyword_of_statements read n inside
  | runAt source distances =>
    obtain ⟨ss, read, inside⟩ := writes
    exact Source.noKeyword_of_statements read n inside

/-! ## Construction -/

namespace Shape

variable {r r' : Shape NoKeyword} {m m' : Machine}

/-- What a frame binds `this` and `super` to, it goes on to bind it to. -/
theorem grows (le : r ≤ r') (ready : (shaped NoKeyword).Ready r m)
    (ready' : (shaped NoKeyword).Ready r' m') : m.heap.Grows m'.heap := by
  rw [ready.fits.heap, ready'.fits.heap]
  exact le.heap.grows

/-- A call of an initializer, if it ends with a value, gives what its closure binds `this` to. -/
theorem initializer_gives_this {n : Nat} {f : Function} {vs : List Value} {v w : Value}
    (ready : (shaped NoKeyword).Ready r m) (known : ∀ v ∈ (Task.call f vs).values, r.Knows v)
    (isInitializer : f.isInitializer = true) (this : m.heap.lookup? f.closure "this" = some w)
    (e : Eval.call n f vs m = .ok v m') : v = w := by
  obtain ⟨r', le, ready', -⟩ := Discipline.leads_task (D := shaped NoKeyword) n (t := .call f vs)
    trivial ⟨known _ List.mem_cons_self, fun v inside => known v (List.mem_cons_of_mem _ inside)⟩
    ready
  have ended : (machineOf ((Task.call f vs).run n m)) = m' := congrArg machineOf e
  rw [ended] at ready'
  have still := (grows le ready ready').keyword_of_eq (k := .this) this
  cases n with
  | zero => cases e
  | succ n =>
    obtain ⟨flow, m₁, -, e⟩ := Eval.call_eq_ok.mp e
    unfold Eval.result at e
    rw [if_pos isInitializer] at e
    cases e
    exact Heap.getAt_of_outward? rfl still

/-- A class that is called, if it gives a value, gives the new instance; its initializer, if it has
one, was bound to this, and was called. -/
theorem make_gives_new_instance {n : Nat} {c : Class} {vs : List Value} {v : Value}
    (ready : (shaped NoKeyword).Ready r m) (known : ∀ v ∈ (Task.make c vs).values, r.Knows v)
    (methodical : c.Methodical) (e : Eval.make (n + 1) c vs m = .ok v m') :
    v = .instance ⟨m.heap.fields.size, c⟩ ∧ ∀ f, c.initializer? = some f →
      ∃ m₁, Point.BindsMethod ⟨n + 1, .make c vs, m⟩ f ⟨m.heap.fields.size, c⟩ m₁ ∧
        Eval.call n (f.boundBy m₁) vs (m₁.afterBinding f ⟨m.heap.fields.size, c⟩) = .ok v m' := by
  cases found : c.initializer? with
  | none =>
    rw [Eval.make_of_none found] at e
    cases e
    exact ⟨rfl, nofun⟩
  | some f =>
    rw [Eval.make_of_some found] at e
    obtain ⟨w, m₂, called, e⟩ := bind_eq_ok.mp e
    obtain ⟨rfl, rfl⟩ := Eval.pure_eq_ok.mp e
    refine ⟨rfl, fun f' same => ?_⟩
    cases same
    have binds : Point.BindsMethod ⟨n + 1, .make c vs, m⟩ f ⟨m.heap.fields.size, c⟩
        { m with heap := m.heap.pushInstance } := .initializer found rfl
    refine ⟨_, binds, ?_⟩
    have admitted : (shaped NoKeyword).admits r (.make c vs) := List.forall_mem_cons.mp known
    obtain ⟨_, -, -, covers, -⟩ := Discipline.leads_task (n + 1) trivial admitted ready
    obtain ⟨r₁, _, -, -, -, start, admitted, -⟩ :=
      covers _ rfl _ (.single (.initializer found rfl))
    have isInitializer : f.isInitializer = true := by
      obtain ⟨name, same⟩ := methodical.method found
      rw [same, name]
      rfl
    obtain rfl := initializer_gives_this start (List.forall_mem_cons.mpr admitted)
      (f := f.boundBy _) isInitializer (Machine.lookup?_afterBinding _ f _) called
    exact called

end Shape

/-- In every session, whatever its sources and distances, a call of a class, if it gives a value,
gives an instance of this class that is made later than all that are held; the initializer that is
nearest among the superclasses, if there is one, was bound to this instance, and that is what it
gives however it ends. And a call of any initializer that was bound at some point of the session
gives, if it gives a value, the instance that it was bound to. A call stands for itself: the values
that a point of the session is about to call are among those that are held there. -/
theorem construction_gives_new_instance (fuel : Nat) (host : Host) (ss : List Step) :
    (∀ m held c n paren vs v m', Session.Moment fuel (.start host) ss m held →
      m.heap.Holds held (.class c) → (∀ a ∈ vs, m.heap.Holds held a) →
      Eval.apply n (.class c) paren vs m = .ok v m' →
      ∃ o : Instance, v = .instance o ∧ o.ofClass = c ∧ o.identity = m.heap.fields.size ∧
        (∀ o', m.heap.Holds held (.instance o') → o'.identity < o.identity) ∧
        ∀ f, c.lineage.findSome? (·.methods[initializerName]?) = some f → ∃ k m₁, n = k + 2 ∧
          Point.BindsMethod ⟨k + 1, .make c vs, m⟩ f o m₁ ∧
          Eval.call k (f.boundBy m₁) vs (m₁.afterBinding f o) = .ok (.instance o) m') ∧
    ∀ x f o m₁, Session.Comes fuel (.start host) ss x → x.BindsMethod f o m₁ →
      f.decl.name.text = initializerName →
      ∀ m held n paren vs v m', Session.Moment fuel (.start host) ss m held →
        m.heap.Holds held (.function (f.boundBy m₁)) → (∀ a ∈ vs, m.heap.Holds held a) →
        Eval.apply n (.function (f.boundBy m₁)) paren vs m = .ok v m' → v = .instance o := by
  obtain ⟨r', -, ready', moments, points⟩ := Discipline.leads_session_writing
    (D := shaped NoKeyword) fuel (fun _ => trivial) (Shape.ready_start NoKeyword host) ss
    fun _ _ _ => Step.noKeyword_of_writes
  obtain ⟨_, -, -, moments', points'⟩ := Discipline.leads_session_writing (r := ())
    (D := methodical) fuel (fun _ => trivial) ⟨.start host trivial, trivial⟩ ss
    fun _ _ _ _ => trivial
  refine ⟨fun m held c n paren vs v m' moment holds arguments e => ?_,
    fun x f o m₁ comes binds named m held n paren vs v m' moment holds arguments e => ?_⟩
  · obtain ⟨r, -, -, ready, atHand⟩ := moments m held moment
    obtain ⟨_, -, -, fits, atHand'⟩ := moments' m held moment
    have known {v : Value} (holds : m.heap.Holds held v) : r.Knows v :=
      r.sound.knows atHand (ready.fits.heap ▸ holds)
    obtain ⟨n, rfl, made⟩ := Eval.make_of_apply e
    cases n with
    | zero => cases made
    | succ n =>
      obtain ⟨rfl, initialized⟩ := Shape.make_gives_new_instance ready
        (List.forall_mem_cons.mpr ⟨known holds, fun v inside => known (arguments v inside)⟩)
        (methodical_of_holds fits atHand' holds) made
      refine ⟨_, rfl, rfl, rfl, fun o' older => ?_, fun f found => ?_⟩
      · have number := (List.getElem?_eq_some_iff.mp (known older)).1
        rwa [r.sound.instances, ← ready.fits.heap] at number
      · obtain ⟨m₁, binds, called⟩ := initialized f ((c.method?_eq _).trans found)
        exact ⟨n, m₁, rfl, binds, called⟩
  · obtain ⟨r, -, le, ready, atHand⟩ := moments m held moment
    have known {v : Value} (holds : m.heap.Holds held v) : r.Knows v :=
      r.sound.knows atHand (ready.fits.heap ▸ holds)
    have isInitializer := binds.isInitializer_eq (points' x comes)
    rw [named] at isInitializer
    -- what the machine that bound the method binds `this` to, it is bound to at the end
    have atEnd : (Session.machineAfter fuel (.start host) ss).heap.lookup? (f.boundBy m₁).closure
        "this" = some (.instance o) := by
      have grows : (m₁.afterBinding f o).heap.Grows
          (Session.machineAfter fuel (.start host) ss).heap := by
        rcases binds.afterBinding_eq with e | ⟨y, calls, e⟩
        · obtain ⟨_, r₂, -, -, le, -, -, ended, -⟩ := points x comes x .refl
          exact e ▸ Shape.grows le ended ready'
        · obtain ⟨r₁, r₂, -, le, le', start, -⟩ := points x comes y (.single calls)
          exact e ▸ Shape.grows (le.trans le') start ready'
      exact grows.keyword_of_eq (k := .this) (m₁.lookup?_afterBinding f o)
    have inside := ready.fits.heap ▸ (Shape.fits_function (known holds)).1
    have this := ((Shape.grows le ready ready').keyword _ inside .this).symm.trans atEnd
    obtain ⟨n, rfl, called⟩ := Eval.call_of_apply e
    exact Shape.initializer_gives_this ready
      (List.forall_mem_cons.mpr ⟨known holds, fun v inside => known (arguments v inside)⟩)
      isInitializer this called

/-- In this session a second instance of `A` is made, and the initializer that was bound to the
first gives the first again. -/
theorem initializer_gives_first_instance :
    ∃ m a f first second v m₁ m₂,
      Session.Moment 9 (.start ⟨fun _ => 0, none, false⟩)
        [.run "class A \x7binit() \x7b\x7d\x7d var i = A().init;"] m [] ∧
      m.heap.lookup? 0 "A" = some (.class a) ∧ m.heap.lookup? 0 "i" = some (.function f) ∧
      Eval.apply 9 (.class a) ⟨")", 1⟩ [] m = .ok (.instance second) m₁ ∧ second.ofClass = a ∧
      second.identity = 1 ∧ Eval.apply 9 (.function f) ⟨")", 1⟩ [] m = .ok v m₂ ∧
      v = .instance first ∧ first.identity = 0 := by
  let host : Host := ⟨fun _ => 0, none, false⟩
  let steps : List Step := [.run "class A \x7binit() \x7b\x7d\x7d var i = A().init;"]
  let init : FunctionDecl := ⟨⟨"init", 1⟩, [], []⟩
  let classA : Stmt := .classDecl ⟨"A", 1⟩ none [init]
  let made : Expr := .call (.variable 0 ⟨"A", 1⟩) ⟨")", 1⟩ []
  let varI : Stmt := .varDecl ⟨"i", 1⟩ (some (.get made ⟨"init", 1⟩))
  let p : Checked := ⟨[classA, varI], ∅⟩
  have checked : Source.checked "class A \x7binit() \x7b\x7d\x7d var i = A().init;" = .ok p := by
    cbv
  let start := p.start host
  let method : Function := ⟨0, init, 0, true⟩
  let a : Class := ⟨1, "A", none, (∅ : Std.TreeMap String Function).insert "init" method⟩
  let m₁ : Machine := { start with
    heap := (start.heap.declare 0 "A").define 0 "A" (.class a)
    nextIdentity := 2 }
  have ranA : Eval.stmt 9 classA start = .ok .normal m₁ := by with_unfolding_all rfl
  let first : Instance := ⟨0, a⟩
  let m₂ : Machine := { m₁ with
    heap := ((m₁.heap.pushInstance.push (some 0)).define 1 "this" (.instance first)).push (some 1)
    nextIdentity := 3 }
  have evaluated : Eval.expr 7 made m₁ = .ok (.instance first) m₂ := by with_unfolding_all rfl
  have noField : m₂.heap.field? 0 "init" = none := by with_unfolding_all rfl
  have found : a.method? "init" = some method := by with_unfolding_all rfl
  have comes : Session.Comes 9 (.start host) steps ⟨8, .expr (.get made ⟨"init", 1⟩), m₁⟩ :=
    ⟨[], _, [], rfl, _, ⟨p, checked, varI, m₁, .later ranA .first, rfl⟩, .single .varDecl⟩
  have moment : Session.Moment 9 (.start host) steps
      (Session.machineAfter 9 (.start host) steps) [] := .later .between
  have boundA : (Session.machineAfter 9 (.start host) steps).heap.lookup? 0 "A" =
      some (.class a) := by cbv
  have boundI : (Session.machineAfter 9 (.start host) steps).heap.lookup? 0 "i" =
      some (.function (method.boundBy m₂)) := by cbv
  obtain ⟨m₃, again⟩ : ∃ m', Eval.apply 9 (.class a) ⟨")", 1⟩ []
      (Session.machineAfter 9 (.start host) steps) = .ok (.instance ⟨1, a⟩) m' := ⟨_, by cbv⟩
  obtain ⟨v, m₄, called⟩ : ∃ v m', Eval.apply 9 (.function (method.boundBy m₂)) ⟨")", 1⟩ []
      (Session.machineAfter 9 (.start host) steps) = .ok v m' := ⟨_, _, by cbv⟩
  have constructs := construction_gives_new_instance 9 host steps
  obtain ⟨second, ⟨⟩, ofClass, -⟩ :=
    constructs.1 _ _ _ _ _ [] _ _ moment (.binding boundA) (by rintro _ ⟨⟩) again
  have same := constructs.2 _ method first m₂ comes (.property evaluated noField found) rfl _ _ _ _
    [] _ _ moment (.binding boundI) (by rintro _ ⟨⟩) called
  exact ⟨_, a, _, first, _, v, m₃, m₄, moment, boundA, boundI, again, ofClass, rfl, called, same,
    rfl⟩

end Lox
