import Mathlib
import Lox.Proofs.Heap.Reachability
import Lox.Proofs.Eval.Construction
import Lox.Proofs.Eval.Course.Sessions

/-!
# Properties

What a property of an instance is depends on the fields of the instance and on the tables of its
class and of the classes above it (`Heap.property?`). Every class comes from a declaration, whose
methods its table holds, of two with one name the later (`Class.DeclaredBy`). So a property that is
read is the field, or the method of the nearest class that declares one, bound to the instance as a
function that differs from all that there were. To set a field changes what is read through the same
instance under the same name, and nothing else; and what is read stays as it is up to the next
assignment (`properties_are_looked_up`).
-/

namespace Lox

/-! ## Declarations of classes -/

/-- The last of the declarations that has the name. -/
def FunctionDecl.lastNamed? (name : String) (decls : List FunctionDecl) : Option FunctionDecl :=
  decls.reverse.find? (·.name.text = name)

theorem FunctionDecl.lastNamed?_cons (name : String) (decl : FunctionDecl)
    (decls : List FunctionDecl) :
    lastNamed? name (decl :: decls) =
      (lastNamed? name decls).or (if decl.name.text = name then some decl else none) := by
  rw [lastNamed?, List.reverse_cons, List.find?_append, List.find?_singleton]
  simp only [decide_eq_true_eq]
  rfl

/-- Of two methods with one name the later counts. -/
theorem Eval.decl_of_declareMethods {decls : List FunctionDecl}
    {methods table : Std.TreeMap String Function} {m m' : Machine}
    (made : declareMethods decls methods m = .ok table m') (name : String) :
    table[name]?.map Function.decl =
      (FunctionDecl.lastNamed? name decls).or (methods[name]?.map Function.decl) := by
  induction decls generalizing methods m with
  | nil =>
    obtain ⟨rfl, -⟩ := pure_eq_ok.mp made
    rfl
  | cons decl decls ih =>
    rw [ih made, FunctionDecl.lastNamed?_cons, Option.or_assoc, Std.TreeMap.getElem?_insert]
    simp only [compare_eq_iff_eq]
    split <;> rfl

/-- At the point a class declaration with the methods `decls` gives the class its superclass and its
table. -/
inductive Point.DeclaresClass : Point → List FunctionDecl → Class → Prop
  | intro {n m name superclass decls c}
    (declares : DeclaresMethods ⟨n + 1, .stmt (.classDecl name superclass decls), m⟩ c.superclass
      c.methods) :
    DeclaresClass ⟨n + 1, .stmt (.classDecl name superclass decls), m⟩ decls c

theorem Point.DeclaresMethods.declaresClass {x : Point} {c : Class}
    (declares : x.DeclaresMethods c.superclass c.methods) : ∃ decls, x.DeclaresClass decls c := by
  cases id declares with
  | intro => exact ⟨_, .intro declares⟩

/-- The table of a class holds the last method of each name. -/
theorem Point.DeclaresClass.method {x : Point} {decls : List FunctionDecl} {c : Class}
    (declares : x.DeclaresClass decls c) (name : String) :
    c.methods[name]?.map Function.decl = FunctionDecl.lastNamed? name decls := by
  obtain ⟨declares⟩ := declares
  obtain ⟨_, _, made⟩ := declares.made
  rw [Eval.decl_of_declareMethods made, Std.TreeMap.getElem?_emptyc, Option.map_none,
    Option.or_none]

/-- At points in `Z` the class, and each class above it, was declared. -/
def Class.DeclaredBy (Z : Point → Prop) (c : Class) : Prop :=
  ∀ d ∈ c.lineage, ∃ x decls, Z x ∧ x.DeclaresClass decls d

/-- If the value is a class or an instance, the class was declared at points in `Z`. -/
def Value.DeclaredBy (Z : Point → Prop) : Value → Prop
  | .class c => c.DeclaredBy Z
  | .instance o => o.ofClass.DeclaredBy Z
  | _ => True

section
variable {Z : Point → Prop}

theorem Value.IsPlain.declaredBy {v : Value} (plain : v.IsPlain) : v.DeclaredBy Z := by
  cases v <;> trivial

theorem Class.DeclaredBy.superclass {c s : Class} (h : c.DeclaredBy Z)
    (e : c.superclass = some s) : s.DeclaredBy Z := by
  obtain ⟨identity, name, superclass, methods⟩ := c
  cases e
  refine fun d inside => h d ?_
  rw [Class.lineage]
  exact List.mem_cons_of_mem _ inside

theorem Class.DeclaredBy.cons {x : Point} {identity : Identity} {n : String}
    {superclass : Option Class} {methods : Std.TreeMap String Function} (inside : Z x)
    (declares : x.DeclaresMethods superclass methods)
    (above : ∀ c ∈ superclass, c.DeclaredBy Z) :
    Class.DeclaredBy Z ⟨identity, n, superclass, methods⟩ := by
  intro d there
  unfold Class.lineage at there
  rcases List.mem_cons.mp there with rfl | there
  · obtain ⟨decls, declares⟩ := Point.DeclaresMethods.declaresClass
      (c := ⟨identity, n, superclass, methods⟩) declares
    exact ⟨x, decls, inside, declares⟩
  · cases superclass with
    | none => cases there
    | some s => exact above s rfl d there

/-- Only classes are used that were declared at points in `Z`, among which all that is performed
is. -/
def declared (Z : Point → Prop) (closed : ∀ x y, Z x → x.Calls y → Z y) : Discipline Unit where
  fits _ m := m.heap.Within (Value.DeclaredBy Z)
  frame _ _ := True
  function _ _ := True
  value _ v := v.DeclaredBy Z
  name _ := True
  visits := Z
  fits_congr w e _ _ := e ▸ w
  calls := closed _ _
  frame_mono _ := id
  function_mono _ := id
  value_mono _ := id
  plain := Value.IsPlain.declaredBy
  closure _ := trivial
  code _ _ _ := trivial
  called _ := trivial
  ownMethod _ _ := trivial
  superclass h e := Class.DeclaredBy.superclass h e
  ofClass h := h
  globals _ := trivial
  link _ _ _ := trivial
  binding w _ e := w.binding _ _ _ e
  field w _ e := w.field _ _ _ e
  defined {_ m f n v} w _ _ hv := ⟨(), le_refl _, w.binds (Heap.binds_define m.heap f n v) hv⟩
  declared w _ _ := ⟨(), le_refl _, w.declare trivial _ _⟩
  fieldSet w _ hv := ⟨(), le_refl _, w.setField _ _ hv⟩
  frameMade w _ := ⟨(), le_refl _, w.push _, trivial⟩
  superFrameMade w _ hc := ⟨(), le_refl _, (w.push _).binds (Heap.binds_define ..) hc, trivial⟩
  methodBound _ _ w _ ho :=
    ⟨(), le_refl _, (w.push _).binds (Heap.binds_define ..) ho, trivial⟩
  instanceMade w hc := ⟨(), le_refl _, w.pushInstance, hc⟩
  functionMade w _ _ := ⟨(), le_refl _, w, trivial⟩
  functionDeclared _ _ _ := trivial
  classMade inside declares w hs _ := ⟨(), le_refl _, w, .cons inside declares hs⟩

end

theorem Session.Comes.calls {fuel : Nat} {m : Machine} {ss : List Step} {x y : Point}
    (comes : Comes fuel m ss x) (calls : x.Calls y) : Comes fuel m ss y := by
  obtain ⟨before, s, after, e, z, begins, path⟩ := comes
  exact ⟨before, s, after, e, z, begins, path.tail calls⟩

/-- Every class that is held in a session was declared in it, and so were those above it. -/
theorem Session.Moment.declaredBy {fuel : Nat} {host : Host} {ss : List Step} {m : Machine}
    {vs : List Value} (moment : Moment fuel (.start host) ss m vs) {c : Class}
    (holds : m.heap.Holds vs (.class c)) : c.DeclaredBy (Comes fuel (.start host) ss) := by
  obtain ⟨_, -, -, moments, -⟩ := Discipline.leads_session_visiting (r := ())
    (D := declared (Comes fuel (.start host) ss) fun _ _ => Comes.calls) fuel
    ⟨.start host trivial, trivial⟩ ss (fun _ => id) fun _ _ _ _ => trivial
  obtain ⟨_, -, -, ready, atHand⟩ := moments m vs moment
  exact ready.fits.holds (v := .class c) atHand (fun _ _ _ _ _ => trivial)
    (fun _ _ h e => Class.DeclaredBy.superclass h e) (fun _ h => h) holds

/-! ## What is read -/

/-- What a property of an instance is: the value of a field, or a method that is yet to be bound. -/
inductive Property
  | field (v : Value)
  | method (f : Function)

/-- The field of that name, or else the method of the nearest class, from that of the instance
upward, that has one. -/
def Heap.property? (h : Heap) (o : Instance) (name : String) : Option Property :=
  match h.field? o.identity name with
  | some v => some (.field v)
  | none => (o.ofClass.lineage.findSome? (·.methods[name]?)).map .method

/-- From the machine `m` to `m'` the method `f` was bound to `o`, as the function `g`: a copy of the
method whose closure is a new frame, in which `this` is the instance, inside the closure of the
method. Everything else is as it was. -/
structure Function.BoundAs (f : Function) (o : Instance) (g : Function) (m m' : Machine) :
    Prop where
  decl : g.decl = f.decl
  isInitializer : g.isInitializer = f.isInitializer
  this : m'.heap.lookup? g.closure "this" = some (.instance o)
  link : m'.heap.enclosing? g.closure = some f.closure
  frames : ∀ frame < m.heap.frames.size, m'.heap.frames[frame]? = m.heap.frames[frame]?
  fields : m'.heap.fields = m.heap.fields

theorem Function.boundAs (f : Function) (o : Instance) (m : Machine) :
    f.BoundAs o (f.boundBy m) m (m.afterBinding f o) where
  decl := rfl
  isInitializer := rfl
  this := m.lookup?_afterBinding f o
  link := m.enclosing?_afterBinding f o
  frames frame made := by
    have pushed : (Node.frame frame).SameIn m.heap (m.heap.push (some f.closure)) :=
      Heap.sameIn_push made
    refine pushed.trans (Heap.sameIn_define fun e => ?_)
    cases e
    exact absurd made (Nat.lt_irrefl _)
  fields := rfl

namespace Eval

variable {o : Instance} {name : Lexeme} {m : Machine}

theorem property_of_field {v : Value} (field : m.heap.field? o.identity name.text = some v) :
    property o name m = .ok v m := by
  refine (bind_of_ok (x := get) rfl).trans ?_
  rw [field]
  rfl

theorem property_of_none (noField : m.heap.field? o.identity name.text = none)
    (noMethod : o.ofClass.method? name.text = none) :
    property o name m = .error (.failed (name.blamedFor (.undefinedProperty name.text))) m := by
  refine (bind_of_ok (x := get) rfl).trans ?_
  rw [noField, noMethod]
  rfl

/-- Fields are set on instances only; the value comes first. -/
theorem stores_of_ok {n : Nat} {object value : Expr} {m₀ m' : Machine} {v : Value}
    (e : expr (n + 1) (.set object name value) m₀ = .ok v m') :
    ∃ o m₁ m, expr n value m₀ = .ok v m₁ ∧ expr n object m₁ = .ok (.instance o) m ∧
      m' = { m with heap := m.heap.setField o.identity name.text v } := by
  obtain ⟨w, m₁, evaluated, e⟩ := bind_eq_ok.mp e
  obtain ⟨target, m, found, e⟩ := bind_eq_ok.mp e
  split at e
  · rename_i o
    obtain ⟨_, _, set, e⟩ := bind_eq_ok.mp e
    cases set
    obtain ⟨rfl, rfl⟩ := pure_eq_ok.mp e
    exact ⟨o, m₁, m, evaluated, found, rfl⟩
  · exact (fail_eq_ok.mp e).elim

end Eval

/-- What is held after a field was set was held before, or is the value of the field. -/
theorem Heap.holds_of_setField {h : Heap} {o : InstanceId} {name : String} {v w : Value}
    {vs : List Value} (holds : (h.setField o name v).Holds vs w) : h.Holds (v :: vs) w := by
  induction holds with
  | atHand inside => exact .atHand (List.mem_cons_of_mem _ inside)
  | binding e => exact .binding e
  | field e =>
    rw [field?_setField] at e
    split at e
    · cases e
      exact .atHand List.mem_cons_self
    · exact .field e
  | ownMethod _ e ih => exact .ownMethod ih e
  | superclass _ e ih => exact .superclass ih e
  | ofClass _ ih => exact .ofClass ih

namespace Session.Moment

variable {fuel : Nat} {host : Host} {ss : List Step} {m : Machine} {vs : List Value}

/-- What is held has an identity or a number that was given out. -/
theorem lt_of_holds (moment : Moment fuel (.start host) ss m vs) :
    (∀ f, m.heap.Holds vs (.function f) → f.identity < m.nextIdentity) ∧
      ∀ o, m.heap.Holds vs (.instance o) → o.identity < m.heap.fields.size := by
  obtain ⟨_, -, -, moments⟩ := Discipline.leads_session (D := shaped fun _ => True) fuel
    (fun _ => trivial) (fun _ => trivial) (Shape.ready_start _ host) ss
  obtain ⟨r, -, -, ready, atHand⟩ := moments m vs moment
  have known {v : Value} (holds : m.heap.Holds vs v) : r.Knows v :=
    r.sound.knows atHand (ready.fits.heap ▸ holds)
  refine ⟨fun f holds => ?_, fun o holds => ?_⟩
  · have there : r.objects[f.identity]? = some (.function f) := known holds
    rw [ready.fits.next]
    exact (List.getElem?_eq_some_iff.mp there).1
  · have there : r.classes[o.identity]? = some o.ofClass := known holds
    rw [ready.fits.heap, ← r.sound.instances]
    exact (List.getElem?_eq_some_iff.mp there).1

end Session.Moment

/-- The lineage of a class up to the nearest class that has a method of the name. -/
theorem Class.method?_of_nearest {c d : Class} {below above : List Class} {name : String}
    {f : Function} (split : c.lineage = below ++ d :: above)
    (none : ∀ b ∈ below, b.methods[name]? = none) (own : d.methods[name]? = some f) :
    c.method? name = some f := by
  rw [c.method?_eq, split, List.findSome?_append, List.findSome?_eq_none_iff.mpr none,
    Option.none_or, List.findSome?_cons, own]

/-- To read a property of `o` on `m`, where the classes have the methods `decls` and the functions
in `Old` were made before: it is the field, or else the method of the first class, from that of the
instance upward, that declares one, bound to the instance as a function of its own; otherwise this
is an error, and nothing changes. -/
structure Instance.Reads (o : Instance) (name : Lexeme) (m : Machine)
    (decls : Class → List FunctionDecl) (Old : Function → Prop) : Prop where
  get : ∀ n object m₀, Eval.expr n object m₀ = .ok (.instance o) m →
    Eval.expr (n + 1) (.get object name) m₀ = Eval.property o name m
  field : ∀ v, m.heap.field? o.identity name.text = some v → Eval.property o name m = .ok v m
  method : m.heap.field? o.identity name.text = none → ∀ below c above decl,
    o.ofClass.lineage = below ++ c :: above →
    (∀ b ∈ below, FunctionDecl.lastNamed? name.text (decls b) = none) →
    FunctionDecl.lastNamed? name.text (decls c) = some decl →
    ∃ f g m', c.methods[name.text]? = some f ∧ f.decl = decl ∧ f.BoundAs o g m m' ∧
      Eval.property o name m = .ok (.function g) m' ∧
      ∀ f', Old f' → (Value.function g).equals (.function f') = false
  undefined : m.heap.field? o.identity name.text = none →
    (∀ c ∈ o.ofClass.lineage, FunctionDecl.lastNamed? name.text (decls c) = none) →
    ∃ e, Eval.property o name m = .error (.failed (.runtime e)) m ∧
      e.cause.message = "Undefined property '" ++ name.text ++ "'." ∧ e.line = name.line

theorem Instance.reads {o : Instance} {m : Machine} {Z : Point → Prop}
    {decls : Class → List FunctionDecl} {Old : Function → Prop}
    (declared : ∀ c ∈ o.ofClass.lineage, ∃ x, Z x ∧ x.DeclaresClass (decls c) c)
    (old : ∀ f, Old f → f.identity < m.nextIdentity) (name : Lexeme) :
    o.Reads name m decls Old := by
  have table {c : Class} (inside : c ∈ o.ofClass.lineage) :
      c.methods[name.text]?.map Function.decl = FunctionDecl.lastNamed? name.text (decls c) := by
    obtain ⟨x, -, declares⟩ := declared c inside
    exact declares.method name.text
  have none {c : Class} (inside : c ∈ o.ofClass.lineage)
      (missing : FunctionDecl.lastNamed? name.text (decls c) = none) :
      c.methods[name.text]? = none :=
    Option.map_eq_none_iff.mp ((table inside).trans missing)
  constructor
  · exact fun n object m₀ evaluated => bind_of_ok evaluated
  · exact fun v => Eval.property_of_field
  · intro noField below c above decl split missing own
    have inside : c ∈ o.ofClass.lineage := split ▸ List.mem_append_right _ List.mem_cons_self
    obtain ⟨f, there, same⟩ := Option.map_eq_some_iff.mp ((table inside).trans own)
    have found := Class.method?_of_nearest split
      (fun b lower => none (split ▸ List.mem_append_left _ lower) (missing b lower)) there
    refine ⟨f, _, _, there, same, f.boundAs o m, Eval.property_of_method noField found,
      fun f' older => ?_⟩
    exact beq_eq_false_iff_ne.mpr (Nat.ne_of_gt (old f' older))
  · intro noField missing
    have noMethod : o.ofClass.method? name.text = Option.none := by
      rw [Class.method?_eq, List.findSome?_eq_none_iff]
      exact fun c inside => none inside (missing c inside)
    exact ⟨_, Eval.property_of_none noField noMethod, rfl, rfl⟩

/-! ## What is set -/

/-- From `m` to `m'` the field `name` of `o` was set to `v`: whoever holds the instance reads the
value, every other property is what it was, no frame has changed, and nothing is held that was not
held before. -/
structure Machine.SetsField (m m' : Machine) (o : Instance) (name : String) (v : Value) : Prop where
  aliases : ∀ p, (Value.instance p).equals (.instance o) = true →
    m'.heap.property? p name = some (.field v)
  others : ∀ p other, ¬ ((Value.instance p).equals (.instance o) = true ∧ other = name) →
    m'.heap.property? p other = m.heap.property? p other
  frames : m'.heap.frames = m.heap.frames
  holds : ∀ vs w, m'.heap.Holds vs w → m.heap.Holds (v :: vs) w

theorem Machine.setsField {m : Machine} {o : Instance} (made : o.identity < m.heap.fields.size)
    (name : String) (v : Value) :
    m.SetsField { m with heap := m.heap.setField o.identity name v } o name v where
  aliases p same := by
    have same : p.identity = o.identity := beq_iff_eq.mp same
    have set : (m.heap.setField o.identity name v).field? p.identity name = some v := by
      rw [Heap.field?_setField, if_pos ⟨same, same ▸ made, rfl⟩]
    rw [Heap.property?, set]
  others p other apart := by
    have kept : (m.heap.setField o.identity name v).field? p.identity other =
        m.heap.field? p.identity other := by
      rw [Heap.field?_setField, if_neg]
      rintro ⟨same, -, rfl⟩
      exact apart ⟨beq_iff_eq.mpr same, rfl⟩
    rw [Heap.property?, kept]
    rfl
  frames := rfl
  holds _ _ := Heap.holds_of_setField

namespace Session

/-- In the session the first instant comes before the second, or is the second. -/
def Precedes (fuel : Nat) (m : Machine) (ss : List Step) (j i : Instant) : Prop :=
  ∃ before after, course fuel m ss = before ++ i :: after ∧ j ∈ before ++ [i]

/-- In the session the first instant comes before the second, and the field is not assigned after
the first up to the second. -/
def Unset (fuel : Nat) (m : Machine) (ss : List Step) (o : InstanceId) (name : String)
    (i j : Instant) : Prop :=
  ∃ before between after, course fuel m ss = before ++ i :: (between ++ j :: after) ∧
    ∀ k ∈ between ++ [j], ¬ k.StoresTo o name

theorem Unset.property? {fuel : Nat} {m : Machine} {ss : List Step} {o : Instance} {name : String}
    {i j : Instant} (unset : Unset fuel m ss o.identity name i j) :
    j.machine.heap.property? o name = i.machine.heap.property? o name := by
  obtain ⟨before, between, after, split, unset⟩ := unset
  rw [Heap.property?, field_of_unset split unset]
  rfl

theorem Unset.mem_course {fuel : Nat} {m : Machine} {ss : List Step} {o : InstanceId}
    {name : String} {i j : Instant} (unset : Unset fuel m ss o name i j) :
    j ∈ course fuel m ss := by
  obtain ⟨before, between, after, split, -⟩ := unset
  rw [split, List.append_cons, ← List.append_assoc]
  exact List.mem_append_right _ List.mem_cons_self

/-- After an expression that is evaluated last no field is set. -/
theorem unset_of_last (fuel : Nat) (m : Machine) (before : List Step) {source : String} {e : Expr}
    (read : Source.expression source = .ok e) (o : InstanceId) (name : String) :
    Unset fuel m (before ++ [.evaluate source]) o name
      (.ends ⟨fuel, .expr e, machineAfter fuel m before⟩)
      (.rests (machineAfter fuel m (before ++ [.evaluate source]))) := by
  obtain ⟨earlier, split⟩ := course_append fuel m before [.evaluate source]
  have after : machineAfter fuel m (before ++ [.evaluate source]) =
      (step fuel (machineAfter fuel m before) (.evaluate source)).2 := List.foldl_append
  have points : firstPoints fuel (machineAfter fuel m before) (.evaluate source) =
      [⟨fuel, .expr e, machineAfter fuel m before⟩] := by
    rw [firstPoints, read, pointsOf]
  rw [course, points, List.flatMap_singleton, Point.course_eq] at split
  let x : Point := ⟨fuel, .expr e, machineAfter fuel m before⟩
  refine ⟨earlier ++ .rests x.machine :: .starts x :: x.calls.flatMap Point.course, [], [], ?_,
    List.forall_mem_singleton.mpr id⟩
  rw [split, after]
  simp only [course, x, List.append_assoc, List.cons_append, List.nil_append]

end Session

/-- In every session, whatever its sources and distances, and at every instant of it: the property
of an instance is its field, or else the method of the nearest class that declares one, bound to the
instance as a function that differs from all that were held up to then; or it is an error. An
assignment to a field is seen through every alias of the instance up to the next assignment to the
field, and it changes nothing else. What is read under a name stays as it is as long as the field is
not assigned. -/
theorem properties_are_looked_up (fuel : Nat) (host : Host) (ss : List Step) :
    (∀ x, Session.Comes fuel (.start host) ss x →
      x.course <:+: Session.course fuel (.start host) ss) ∧
    (∀ i ∈ Session.course fuel (.start host) ss, ∀ o, i.machine.heap.Holds i.values (.instance o) →
      ∃ decls : Class → List FunctionDecl,
        (∀ c ∈ o.ofClass.lineage, ∃ x, Session.Comes fuel (.start host) ss x ∧
          x.DeclaresClass (decls c) c) ∧
        ∀ name, o.Reads name i.machine decls fun f => ∃ j,
          Session.Precedes fuel (.start host) ss j i ∧
            j.machine.heap.Holds j.values (.function f)) ∧
    (∀ n object name value m₀ v m',
      Session.Comes fuel (.start host) ss ⟨n + 1, .expr (.set object name value), m₀⟩ →
      Eval.expr (n + 1) (.set object name value) m₀ = .ok v m' →
      ∃ o m, Point.Stores ⟨n + 1, .expr (.set object name value), m₀⟩ o name.text v m ∧
        m.SetsField m' o name.text v ∧
        ∀ j p, (Value.instance p).equals (.instance o) = true →
          Session.Unset fuel (.start host) ss o.identity name.text
            (.ends ⟨n + 1, .expr (.set object name value), m₀⟩) j →
          j.machine.heap.property? p name.text = some (.field v)) ∧
    ∀ i j o name, Session.Unset fuel (.start host) ss o.identity name i j →
      j.machine.heap.property? o name = i.machine.heap.property? o name := by
  refine ⟨fun x => Session.Comes.course_isInfix, fun i inside o holds => ?_,
    fun n object name value m₀ v m' comes e => ?_, fun i j o name => Session.Unset.property?⟩
  · have moment := Session.moment_of_mem_course inside
    have declared := moment.declaredBy (.ofClass holds)
    choose! decls declared using fun c inside => exists_comm.mp (declared c inside)
    refine ⟨decls, declared, Instance.reads declared ?_⟩
    rintro f ⟨j, ⟨before, after, split, earlier⟩, older⟩
    have there : j ∈ Session.course fuel (.start host) ss := by
      rw [split, List.append_cons]
      exact List.mem_append_left _ earlier
    have given := (Session.moment_of_mem_course there).lt_of_holds.1 f older
    exact Nat.lt_of_lt_of_le given (Session.nextIdentity_le split earlier)
  · obtain ⟨o, m₁, m, evaluated, target, rfl⟩ := Eval.stores_of_ok e
    have moment := (comes.calls (.setObject evaluated)).answered target
    have made := moment.lt_of_holds.2 o (.atHand (List.mem_singleton_self _))
    have sets := Machine.setsField made name.text v
    refine ⟨o, m, .intro evaluated target, sets, fun j p same unset => ?_⟩
    have same' : p.identity = o.identity := beq_iff_eq.mp same
    rw [← same'] at unset
    refine unset.property?.trans (Eq.trans ?_ (sets.aliases p same))
    exact congrArg (fun m : Machine => m.heap.property? p name.text) (congrArg machineOf e)

/-- In this session the field `m` of `a` is set; `b`, of the same class, still has the inherited
method `m`. -/
theorem field_shadows_method_of_one_instance :
    ∃ (i j : Instant) (a b : Instance) (f g : Function) (m : Machine),
      Session.Unset 9 (.start ⟨fun _ => 0, none, false⟩)
        [.run "class A \x7bm() \x7b\x7d\x7d class B < A \x7b\x7d var a = B(); var b = B();",
          .evaluate "a.m = true"] a.identity "m" i j ∧
      j.machine.heap.lookup? 0 "a" = some (.instance a) ∧
      j.machine.heap.property? a "m" = some (.field (.bool true)) ∧
      j.machine.heap.lookup? 0 "b" = some (.instance b) ∧
      Eval.property b ⟨"m", 1⟩ j.machine = .ok (.function g) m ∧ f.BoundAs b g j.machine m := by
  let host : Host := ⟨fun _ => 0, none, false⟩
  let program : Step :=
    .run "class A \x7bm() \x7b\x7d\x7d class B < A \x7b\x7d var a = B(); var b = B();"
  let steps : List Step := [program, .evaluate "a.m = true"]
  let set : Expr := .set (.variable 0 ⟨"a", 1⟩) ⟨"m", 1⟩ (.literal .true)
  have read : Source.expression "a.m = true" = .ok set := by cbv
  let method : Function := ⟨0, ⟨⟨"m", 1⟩, [], []⟩, 0, false⟩
  let classA : Class := ⟨1, "A", none, (∅ : Std.TreeMap String Function).insert "m" method⟩
  let classB : Class := ⟨2, "B", some classA, ∅⟩
  let a : Instance := ⟨0, classB⟩
  let b : Instance := ⟨1, classB⟩
  let m := Session.machineAfter 9 (.start host) [program]
  have ran : (m.distances[0]?, m.heap.get? m.globals "a", m.heap.lookup? 0 "a",
      m.heap.lookup? 0 "b", m.heap.field? 1 "m") =
      (none, some (.instance a), some (.instance a), some (.instance b), none) := by
    unfold m
    cbv
  obtain ⟨known, found, boundA, boundB, noField⟩ : m.distances[0]? = none ∧
      m.heap.get? m.globals "a" = some (.instance a) ∧ m.heap.lookup? 0 "a" = some (.instance a) ∧
      m.heap.lookup? 0 "b" = some (.instance b) ∧ m.heap.field? 1 "m" = none := by
    simpa only [Prod.mk.injEq] using ran
  let m' : Machine := { m with heap := m.heap.setField 0 "m" (.bool true) }
  have target : Eval.expr 8 (.variable 0 ⟨"a", 1⟩) m = .ok (.instance a) m := by
    show Eval.lookUp 0 ⟨"a", 1⟩ m = _
    simp only [Eval.lookUp, known, found]
  have evaluated : Eval.expr 9 set m = .ok (.bool true) m' :=
    (bind_of_ok (x := Eval.expr 8 (.literal .true)) rfl).trans (bind_of_ok target)
  have stepped : Session.machineAfter 9 (.start host) steps = m' := by
    show (Session.step 9 m (.evaluate "a.m = true")).2 = m'
    rw [Session.step, read, Session.proceed, Session.finish_machine, evaluated]
    rfl
  let x : Point := ⟨9, .expr set, m⟩
  have unset : Session.Unset 9 (.start host) steps a.identity "m" (.ends x) (.rests m') := by
    rw [← stepped]
    exact Session.unset_of_last 9 (.start host) [program] read a.identity "m"
  obtain ⟨-, reads, sets, -⟩ := properties_are_looked_up 9 host steps
  obtain ⟨o, _, stores, -, seen⟩ := sets _ _ _ _ _ _ _
    ⟨[program], _, [], rfl, x, ⟨set, read, rfl⟩, .refl⟩ evaluated
  obtain rfl : o = a := by
    cases stores with
    | intro e e' =>
      cases e
      cases target.symm.trans e'
      rfl
  obtain ⟨decls, declared, reads⟩ := reads (.rests m') unset.mem_course b (.binding boundB)
  have own (c : Class) (inside : c ∈ classB.lineage) :
      FunctionDecl.lastNamed? "m" (decls c) = c.methods["m"]?.map Function.decl := by
    obtain ⟨_, -, declares⟩ := declared c inside
    exact (declares.method "m").symm
  have lineage : classB.lineage = [classB] ++ classA :: [] := by
    simp only [classB, classA, Class.lineage, List.singleton_append]
  have inherits : ∀ c ∈ [classB], FunctionDecl.lastNamed? "m" (decls c) = none :=
    List.forall_mem_singleton.mpr ((own classB (lineage ▸ List.mem_cons_self)).trans rfl)
  have declares : FunctionDecl.lastNamed? "m" (decls classA) = some method.decl :=
    (own classA (lineage ▸ List.mem_cons_of_mem _ List.mem_cons_self)).trans
      (by with_unfolding_all rfl)
  have unshadowed : m'.heap.field? 1 "m" = none := by
    rw [Heap.field?_setField, if_neg fun here => Nat.one_ne_zero here.1]
    exact noField
  obtain ⟨f, g, m₂, -, -, bound, got, -⟩ :=
    (reads ⟨"m", 1⟩).method unshadowed [classB] classA [] method.decl lineage inherits declares
  have same : (Value.instance a).equals (.instance a) = true := beq_self_eq_true a.identity
  exact ⟨.ends x, .rests m', a, b, f, g, m₂, unset, boundA, seen _ a same unset, boundB, got, bound⟩

end Lox
