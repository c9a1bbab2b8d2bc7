import Lox.Proofs.Eval.Code

/-!
# No implicit variables

An assignment at a distance binds the name there whether or not it is bound. In the run of an
accepted program it is bound there already, unless the assignment is inside the initializer of the
variable itself (`Reached.of_unbound_assignment`). So at every moment of the run
(`Checked.Moment`) a frame binds no names but those that belong there: in the global frame
`clock` and what the statements of the program have declared, in every other frame what it was made
for (`no_implicit_variables`).
-/

namespace Lox

/-- What is bound is what a frame may bind that was made for the purpose: no more than is declared
in the block or the body, or exactly the keyword. -/
def Purpose.Describes : Purpose → (String → Option Value) → Prop
  | block body, bound => ∀ name, (bound name).isSome → name ∈ body.filterMap Stmt.declared?
  | call f, bound => ∀ name, (bound name).isSome →
    name ∈ f.decl.params.map Lexeme.text ∨ name ∈ f.decl.body.filterMap Stmt.declared?
  | superclass c, bound => ∀ name, bound name = if name = "super" then some (.class c) else none
  | receiver o, bound => ∀ name, bound name = if name = "this" then some (.instance o) else none

/-- At a moment of the run of `p` the machine is `m`, and the statements `begun` of `p` have begun.
All of them have ended but the last, and in the course of the last a task starts or ends. -/
inductive Checked.Moment (p : Checked) (host : Host) (fuel : Nat) : List Stmt → Machine → Prop
  | start : Moment p host fuel [] (p.start host)
  | started {before s after m x} (split : p.statements = before ++ s :: after)
    (ran : Eval.topLevel fuel before (p.start host) = .ok () m)
    (path : Point.Reaches ⟨fuel, .stmt s, m⟩ x) : Moment p host fuel (before ++ [s]) x.machine
  | ended {before s after m x} (split : p.statements = before ++ s :: after)
    (ran : Eval.topLevel fuel before (p.start host) = .ok () m)
    (path : Point.Reaches ⟨fuel, .stmt s, m⟩ x) : Moment p host fuel (before ++ [s]) x.after

section
variable {source : String} {p : Checked} {host : Host} {fuel : Nat} {x y : Point} {f : FrameId}
  {name : String} {begun : List Stmt} {m : Machine}

/-! ## Assignments -/

/-- What is bound at the start stays bound, and the globals stay in the first frame. -/
theorem Reached.evolves_start (reached : Reached p host fuel x) :
    (p.start host).heap.Evolves x.machine.heap ∧ x.machine.globals = 0 := by
  obtain ⟨s, m, starts, path⟩ := reached
  have ready := Shape.ready_start (fun _ => True) host
  obtain ⟨r', -, -, covers⟩ := p.keeps_shape host fuel
  obtain ⟨r₁, -, le, -, -, ready₁, -⟩ := covers _ ⟨s, m, starts, rfl⟩ x path
  have evolves : (Machine.start host).heap.Evolves x.machine.heap := Shape.evolves le ready ready₁
  exact ⟨evolves, ready₁.fits.globals⟩

/-- An assignment at a distance where the name is not bound is inside the initializer of the
variable, and the variable is local. -/
theorem Reached.of_unbound_assignment (accepted : Source.check source = .ok p) {n d : Nat}
    {id : ExprId} {name : Lexeme} {value : Expr} {v : Value} {m₀ : Machine}
    (reached : Reached p host fuel ⟨n + 1, .expr (.assign id name value), m₀⟩)
    (evaluated : Eval.expr n value m₀ = .ok v m) (known : m.distances[id]? = some d)
    (free : m.heap.lookup? (m.heap.ancestor m.current d) name.text = none) :
    m.heap.ancestor m.current d = m₀.current ∧ m₀.current ≠ 0 ∧
      Initializing p host fuel name.text ⟨n + 1, .expr (.assign id name value), m₀⟩ := by
  obtain ⟨Γ, ⟨sound, proper, stands, located, -, distance⟩, pending⟩ := reached.ready accepted
  have inner : Point.Ready p.distances Γ ⟨n, .expr value, m₀⟩ := ⟨sound, proper, stands, located⟩
  obtain ⟨sound', grows, -⟩ := (Eval.safe_task inner).answer _ _ evaluated
  have e : Γ.distance? name.text = some d := by
    rw [← distance, ← sound'.distances]
    exact known
  obtain ⟨scope, there, defined | ⟨rfl, isPending⟩⟩ := proper.defined_or_pending e
  · obtain ⟨g, outward, -, bound⟩ := (stands.grows grows).mirrors.outward? there
    rw [Heap.ancestor_of_outward? outward] at free
    have := bound _ defined
    rw [free] at this
    cases this
  · obtain ⟨g, outward, isLocal, -⟩ := stands.mirrors.outward? there
    cases outward
    exact ⟨grows.current, reached.evolves_start.2 ▸ isLocal, pending _ isPending⟩

/-- A name that is added to a frame is declared by the statement of the program that is being run,
if the frame is the global one, or belongs to what the frame was made for. -/
theorem Reached.adds_cases (accepted : Source.check source = .ok p) {s : Stmt}
    (starts : Starts fuel p.statements (p.start host) s m)
    (path : Point.Reaches ⟨fuel, .stmt s, m⟩ y) (adds : y.Adds f name) :
    f = 0 ∧ s.declared? = some name ∨
      ∃ x purpose, Reached p host fuel x ∧ x.Opens f purpose ∧ name ∈ purpose.names := by
  have declared {y : Point} {s : Stmt} {name : String} (task : y.task = .stmt s)
      (declares : s.declared? = some name) : name ∈ y.task.declares := by
    rw [task]
    exact Option.mem_toList.mpr declares
  cases adds with
  | declaration declares =>
    obtain ⟨s', task, declares⟩ := declares
    rcases Reached.declares_cases accepted starts path with ⟨root, names⟩ |
      ⟨x, purpose, there, opens, names⟩
    · exact .inl ⟨root, names name (declared task declares)⟩
    · exact .inr ⟨x, purpose, there, opens, names name (declared task declares)⟩
  | opening opens inside => exact .inr ⟨y, _, ⟨s, m, starts, path⟩, opens, inside⟩
  | assignment evaluated known free =>
    obtain ⟨here, isLocal, z, l, initializer, ⟨s', m', starts', path'⟩, task, e, current, -⟩ :=
      Reached.of_unbound_assignment accepted ⟨s, m, starts, path⟩ evaluated known free
    rcases Reached.declares_cases accepted starts' path' with ⟨root, -⟩ |
      ⟨x, purpose, there, opens, names⟩
    · exact absurd (current.symm.trans root) isLocal
    · rw [here]
      exact .inr ⟨x, purpose, there, current ▸ opens, names _ (declared task (congrArg some e))⟩

/-! ## Moments -/

theorem Starts.of_topLevel {before after : List Stmt} {s : Stmt} {m m' : Machine}
    (ran : Eval.topLevel fuel before m = .ok () m') :
    Starts fuel (before ++ s :: after) m s m' := by
  induction before generalizing m with
  | nil =>
    obtain ⟨-, rfl⟩ := Eval.pure_eq_ok.mp ran
    exact .first
  | cons first before ih =>
    obtain ⟨flow, m₁, e, rest⟩ := bind_eq_ok.mp ran
    exact .later e (ih rest)

namespace Checked.Moment

/-- The statements that have begun are the first ones of the program. -/
theorem isPrefix (moment : p.Moment host fuel begun m) : begun <+: p.statements := by
  cases moment with
  | start => exact List.nil_prefix
  | started split | ended split =>
    rw [split]
    exact (List.prefix_append_right_inj _).mpr (List.prefix_append [_] _)

/-- At a moment after the start, the last statement that has begun is in the course of its run. -/
theorem eq_start_or (moment : p.Moment host fuel begun m) :
    begun = [] ∧ m = p.start host ∨ ∃ before s m₀ x, begun = before ++ [s] ∧
      Eval.topLevel fuel before (p.start host) = .ok () m₀ ∧
      Reached p host fuel ⟨fuel, .stmt s, m₀⟩ ∧ Point.Reaches ⟨fuel, .stmt s, m₀⟩ x ∧
      (m = x.machine ∨ m = x.after) := by
  cases moment with
  | start => exact .inl ⟨rfl, rfl⟩
  | started split ran path =>
    exact .inr ⟨_, _, _, _, rfl, ran, ⟨_, _, split ▸ .of_topLevel ran, .refl⟩, path, .inl rfl⟩
  | ended split ran path =>
    exact .inr ⟨_, _, _, _, rfl, ran, ⟨_, _, split ▸ .of_topLevel ran, .refl⟩, path, .inr rfl⟩

/-- What has been done is done by the statements that have begun. -/
theorem changed (moment : p.Moment host fuel begun m) :
    (p.start host).heap.ChangedBy (Passes fuel begun (p.start host)) m.heap := by
  rcases moment.eq_start_or with ⟨-, rfl⟩ | ⟨before, s, m₀, x, rfl, ran, root, path, e⟩
  · exact .refl _
  · have first : (p.start host).heap.ChangedBy (Passes fuel (before ++ [s]) (p.start host))
        m₀.heap := by
      have changes := Eval.changes_topLevel fuel before (p.start host)
      unfold Eval.Changes at changes
      rw [ran] at changes
      exact changes.mono fun _ passes => passes.append [s]
    have whole := first.trans ((Eval.changes_task fuel (.stmt s) m₀).mono fun _ =>
      (Starts.of_topLevel ran).passes)
    obtain ⟨before, during, behind⟩ := root.evolves path
    have evolves : m₀.heap.Evolves m.heap ∧
        m.heap.Evolves (Point.after ⟨fuel, .stmt s, m₀⟩).heap := by
      rcases e with rfl | rfl
      · exact ⟨before, during.trans behind⟩
      · exact ⟨before.trans during, behind⟩
    -- what is there now is there when the statement ends
    exact {
      size := Nat.le_trans first.size evolves.1.size
      frame := fun f old new => whole.frame f old (Nat.lt_of_lt_of_le new evolves.2.size)
      binding := fun f name bound => whole.binding f name (evolves.2.bound f name bound) }

theorem grows (accepted : Source.check source = .ok p) (moment : p.Moment host fuel begun m) :
    m.heap.Grows (p.finalHeap host fuel) := by
  rcases moment.eq_start_or with ⟨-, rfl⟩ |
    ⟨before, s, m₀, x, -, -, ⟨s', m', starts, path⟩, path', e⟩
  · exact (Checked.grows_start accepted).1
  · have reached : Reached p host fuel x := ⟨s', m', starts, path.trans path'⟩
    rcases e with rfl | rfl
    · exact reached.grows accepted
    · exact reached.grows_after accepted

/-- The clock stays bound. -/
theorem clock (moment : p.Moment host fuel begun m) : (m.heap.lookup? 0 "clock").isSome := by
  have start : ((p.start host).heap.lookup? 0 "clock").isSome := rfl
  rcases moment.eq_start_or with ⟨-, rfl⟩ | ⟨before, s, m₀, x, -, -, root, path, e⟩
  · exact start
  · have there := root.evolves_start.1.bound _ _ start
    obtain ⟨before, during, -⟩ := root.evolves path
    rcases e with rfl | rfl
    · exact before.bound _ _ there
    · exact (before.trans during).bound _ _ there

/-- A name that is bound is the clock, is declared by a statement of the program that has begun, or
belongs to what its frame was made for. -/
theorem bound_cases (accepted : Source.check source = .ok p) (moment : p.Moment host fuel begun m)
    (bound : (m.heap.lookup? f name).isSome) :
    f = 0 ∧ (name = "clock" ∨ name ∈ begun.filterMap Stmt.declared?) ∨
      ∃ x purpose, Reached p host fuel x ∧ x.Opens f purpose ∧ name ∈ purpose.names := by
  rcases moment.changed.binding f name bound with atStart |
    ⟨y, ⟨_, ⟨s, m₀, starts, rfl⟩, path⟩, adds⟩
  · have start : (p.start host).heap =
        (Heap.empty.push none).define 0 Native.clock.name (.native .clock) := rfl
    rw [start, Heap.lookup?_define, Heap.lookup?_push] at atStart
    split at atStart
    · rename_i clock
      exact .inl ⟨clock.1, .inl clock.2.2⟩
    · cases atStart
  · obtain ⟨rest, split⟩ := moment.isPrefix
    have starts' := starts.append rest
    rw [split] at starts'
    refine (Reached.adds_cases accepted starts' path adds).imp_left fun ⟨root, declared⟩ => ?_
    exact ⟨root, .inr (List.mem_filterMap.mpr ⟨s, starts.mem, declared⟩)⟩

end Checked.Moment

/-- A frame that was made for a receiver or a superclass binds the keyword to it. -/
theorem Point.Opens.keyword (accepted : Source.check source = .ok p)
    (moment : p.Moment host fuel begun m) (made : f < m.heap.frames.size)
    (reached : Reached p host fuel x) {purpose : Purpose} (opens : x.Opens f purpose) :
    (∀ o, purpose = .receiver o → m.heap.lookup? f "this" = some (.instance o)) ∧
      ∀ c, purpose = .superclass c → m.heap.lookup? f "super" = some (.class c) := by
  have grows := moment.grows accepted
  cases opens with
  | block | call => exact ⟨nofun, nofun⟩
  | receiver binds =>
    refine ⟨?_, nofun⟩
    rintro _ ⟨⟩
    exact (grows.keyword _ made .this).symm.trans
      (BindsMethod.frame accepted (.intro reached binds)).1
  | @super n m₀ m₁ name superclass methods c declared yields =>
    refine ⟨nofun, ?_⟩
    rintro _ ⟨⟩
    obtain ⟨m', ran, super⟩ := Eval.super_of_declareClass methods
      (reached.current_lt accepted) declared yields
    have grows' := reached.grows_after accepted
    rw [Point.after, Task.run, Eval.stmt, bind_of_ok ran] at grows'
    exact (grows.keyword _ made .super).symm.trans (grows'.keyword_of_eq (k := .super) super)

end

/-- In the run of an accepted program every frame but the global one is made at one point, for one
purpose. At every moment the global frame binds `clock` and otherwise only what is declared by
statements of the program that have begun. Every other frame binds no more than is declared directly
in the block it was made for, or than the parameters of the function and what is declared directly
in its body; if it was made for a receiver or a superclass, it binds exactly `this` to the instance,
or exactly `super` to the class. -/
theorem no_implicit_variables {source : String} {p : Checked} (accepted : Source.check source = .ok p)
    (host : Host) (fuel : Nat) :
    (∀ x y f a b, Reached p host fuel x → Reached p host fuel y → x.Opens f a → y.Opens f b →
      x = y ∧ a = b) ∧
    ∀ begun m, p.Moment host fuel begun m →
      ((m.heap.lookup? 0 "clock").isSome ∧ ∀ name, (m.heap.lookup? 0 name).isSome →
        name = "clock" ∨ name ∈ begun.filterMap Stmt.declared?) ∧
      ∀ f, f ≠ 0 → f < m.heap.frames.size →
        ∃ x purpose, Reached p host fuel x ∧ x.Opens f purpose ∧
          purpose.Describes (m.heap.lookup? f) := by
  have unique {x y f a b} (hx : Reached p host fuel x) (hy : Reached p host fuel y)
      (ox : x.Opens f a) (oy : y.Opens f b) : x = y ∧ a = b := by
    obtain rfl := hx.opener_unique accepted hy ox oy
    exact ⟨rfl, ox.purpose_unique oy⟩
  refine ⟨fun x y f a b hx hy ox oy => unique hx hy ox oy, fun begun m moment =>
    ⟨⟨moment.clock, fun name bound => ?_⟩, fun f isLocal made => ?_⟩⟩
  · rcases moment.bound_cases accepted bound with ⟨-, cases⟩ | ⟨x, purpose, reached, opens, -⟩
    · exact cases
    · exact absurd (reached.evolves_start.1.size.trans (opens.spans accepted reached).1)
        (Nat.not_le.mpr Nat.one_pos)
  · obtain ⟨x, purpose, ⟨_, ⟨s, m₀, starts, rfl⟩, path⟩, opens⟩ :=
      moment.changed.frame f (Nat.one_le_iff_ne_zero.mpr isLocal) made
    obtain ⟨rest, split⟩ := moment.isPrefix
    have reached : Reached p host fuel x := ⟨s, m₀, split ▸ starts.append rest, path⟩
    have names {name : String} (bound : (m.heap.lookup? f name).isSome) : name ∈ purpose.names := by
      rcases moment.bound_cases accepted bound with ⟨root, -⟩ | ⟨y, b, there, opens', inside⟩
      · exact absurd root isLocal
      · exact (unique reached there opens opens').2 ▸ inside
    -- a frame that binds at most the keyword binds exactly the keyword
    have only {keyword : String} {v : Value} (named : purpose.names = [keyword])
        (bound : m.heap.lookup? f keyword = some v) (name : String) :
        m.heap.lookup? f name = if name = keyword then some v else none := by
      split
      · rename_i same
        exact same ▸ bound
      · rename_i other
        refine Option.not_isSome_iff_eq_none.mp fun bound => other ?_
        exact List.mem_singleton.mp (named ▸ names bound)
    obtain ⟨receiver, superclass⟩ := opens.keyword accepted moment made reached
    refine ⟨x, purpose, reached, opens, ?_⟩
    cases purpose with
    | block body => exact fun name => names
    | call g => exact fun name bound => List.mem_append.mp (names bound)
    | superclass c => exact only rfl (superclass c rfl)
    | receiver o => exact only rfl (receiver o rfl)

/-- Before its declaration has ended the variable is bound by the assignment in its initializer. It
is declared in the block that its frame was made for. -/
theorem assignment_in_initializer_binds :
    ∃ p m x body, Source.check "\x7b var a = (a = true); \x7d" = .ok p ∧
      p.Moment ⟨fun _ => 0, none, false⟩ 9 p.statements m ∧
      m.heap.lookup? 1 "a" = some (.bool true) ∧
      Reached p ⟨fun _ => 0, none, false⟩ 9 x ∧ x.Opens 1 (.block body) ∧
      (Purpose.block body).Describes (m.heap.lookup? 1) := by
  let host : Host := ⟨fun _ => 0, none, false⟩
  let a : Lexeme := ⟨"a", 1⟩
  let assign : Expr := .assign 1 a (.literal .true)
  let body : List Stmt := [.varDecl a (some (.grouping assign))]
  let p : Checked := ⟨[.block body], (∅ : Distances).insert 1 0⟩
  have accepted : Source.check "\x7b var a = (a = true); \x7d" = .ok p := by cbv
  let x : Point := ⟨9, .stmt (.block body), p.start host⟩
  let y : Point := ⟨5, .expr assign, (p.start host).enter 0⟩
  have path : x.Reaches y :=
    .head .block (.head .firstStmt (.head .varDecl (.single .grouping)))
  have reached : Reached p host 9 x := ⟨_, _, .first, .refl⟩
  have opens : x.Opens 1 (.block body) := .block
  have split : p.statements = [] ++ .block body :: [] := rfl
  have moment : p.Moment host 9 p.statements y.after := .ended split rfl path
  have bound : y.after.heap.lookup? 1 "a" = some (.bool true) := by cbv
  obtain ⟨unique, describes⟩ := no_implicit_variables accepted host 9
  obtain ⟨z, purpose, there, opens', described⟩ :=
    (describes _ _ moment).2 1 Nat.one_ne_zero (Heap.lt_size_of_lookup? bound)
  obtain ⟨-, rfl⟩ := unique _ _ _ _ _ there reached opens' opens
  exact ⟨p, _, x, body, accepted, moment, bound, reached, opens, described⟩

end Lox
