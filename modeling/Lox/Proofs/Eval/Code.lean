import Lox.Proofs.Eval.Openers

/-!
# The code of a run

Every piece of code that a run performs is part of the program, and so it is well formed
(`Reached.wellFormed`): where a condition decides whether a statement is run, the statement declares
nothing. So what a point declares (`Task.declares`) is declared directly in the block or the body
whose frame is current there, or is declared by the statement of the program that is being run
(`Reached.declares_cases`).
-/

namespace Lox

theorem Stmt.WellFormedList.of_mem {T : Token → Prop} {s : Stmt} {ss : List Stmt}
    (wf : Stmt.WellFormedList T ss) (inside : s ∈ ss) : s.WellFormed T := by
  induction inside with
  | head => exact wf.1
  | tail _ _ ih => exact ih wf.2

theorem FunctionDecl.WellFormedList.of_mem {T : Token → Prop} {decl : FunctionDecl}
    {decls : List FunctionDecl} (wf : FunctionDecl.WellFormedList T decls) (inside : decl ∈ decls) :
    decl.WellFormed T := by
  induction inside with
  | head => exact wf.1
  | tail _ _ ih => exact ih wf.2

theorem FunctionDecl.WellFormed.body {T : Token → Prop} {decl : FunctionDecl}
    (wf : decl.WellFormed T) : Stmt.WellFormedList T decl.body := by
  obtain ⟨name, params, body⟩ := decl
  exact wf.2.2

namespace Task

/-- The code of the current body that the task performs is well formed. -/
def WellFormed (T : Token → Prop) : Task → Prop
  | expr e => e.WellFormed T
  | exprs es => Expr.WellFormedList T es
  | stmt s => s.WellFormed T
  | stmts ss => Stmt.WellFormedList T ss
  | loop condition body => condition.WellFormed T ∧ body.WellFormed T ∧ body.declared? = none
  | _ => True

/-- The names that the task declares directly in the current frame. -/
def declares : Task → List String
  | stmt s => s.declared?.toList
  | stmts ss => ss.filterMap Stmt.declared?
  | _ => []

end Task

section
variable {T : Token → Prop} {x y : Point}

/-- What is called is part of the code of the point, or it is the body of a function. -/
theorem Point.Calls.wellFormed (h : x.Calls y) (wf : x.task.WellFormed T) :
    y.task.WellFormed T ∨ ∃ n f vs m,
      x = ⟨n + 1, .call f vs, m⟩ ∧ y = ⟨n, .stmts f.decl.body, m.activate f vs⟩ := by
  cases h with
  | body => exact .inr ⟨_, _, _, _, rfl, rfl⟩
  | apply | function | «class» | initializer => exact .inl trivial
  | getObject | binaryLeft | callee | logicalLeft | setObject | firstOf | ifThenCondition
  | ifElseCondition | firstStmt | loopCondition => exact .inl wf.1
  | assign | binaryRight | arguments | logicalRight | restOf | varDecl | restStmts =>
    exact .inl wf.2
  | ifThen | ifElseThen | loopBody => exact .inl wf.2.1
  | setValue => exact .inl wf.2.2
  | ifElse => exact .inl wf.2.2.2.1
  | _ => exact .inl wf

/-- What is declared in the same frame is declared by the point itself. -/
theorem Point.Calls.declares (h : x.Calls y) (wf : x.task.WellFormed T) :
    (y.machine.current = x.machine.current ∧ ∀ name ∈ y.task.declares, name ∈ x.task.declares) ∨
      ∃ purpose, x.Opens y.machine.current purpose ∧
        ∀ name ∈ y.task.declares, name ∈ purpose.names := by
  have nothing {s : Stmt} (none : s.declared? = none) (names : List String) :
      ∀ name ∈ (Task.stmt s).declares, name ∈ names := by
    rw [Task.declares, none]
    exact nofun
  rcases h.current_cases with same | ⟨body, task, -⟩ | ⟨f, vs, task, -⟩
  · cases h with
    | block => exact .inr ⟨_, .block, fun _ => id⟩
    | body => exact .inr ⟨_, .call, fun _ => List.mem_append_right _⟩
    | ifThen => exact .inl ⟨same, nothing wf.2.2 _⟩
    | ifElseThen => exact .inl ⟨same, nothing wf.2.2.1 _⟩
    | ifElse => exact .inl ⟨same, nothing wf.2.2.2.2 _⟩
    | loopBody => exact .inl ⟨same, nothing wf.2.2 _⟩
    | @firstStmt _ _ s =>
      refine .inl ⟨same, fun name declared => ?_⟩
      exact List.mem_filterMap.mpr ⟨s, List.mem_cons_self, Option.mem_toList.mp declared⟩
    | @restStmts _ _ s ss =>
      refine .inl ⟨same, fun name declared => ?_⟩
      obtain ⟨s', inside, declares⟩ := List.mem_filterMap.mp declared
      exact List.mem_filterMap.mpr ⟨s', List.mem_cons_of_mem s inside, declares⟩
    | _ => exact .inl ⟨same, nofun⟩
  · obtain ⟨n, _, m⟩ := x
    cases task
    cases h
    exact .inr ⟨_, .block, fun _ => id⟩
  · obtain ⟨n, _, m⟩ := x
    cases task
    cases h
    exact .inr ⟨_, .call, fun _ => List.mem_append_right _⟩

/-- The methods of a class are declared by the class declaration, and stand in the frame that is
current there, or in one that is made there. -/
theorem Point.DeclaresMethods.method {superclass' : Option Class}
    {table : Std.TreeMap String Function} (declares : x.DeclaresMethods superclass' table)
    (current : x.machine.current < x.machine.heap.frames.size) {n : String} {f : Function}
    (own : table[n]? = some f) :
    x.machine.current ≤ f.closure ∧ ∃ name superclass methods,
      x.task = .stmt (.classDecl name superclass methods) ∧ f.decl ∈ methods := by
  cases declares with
  | @intro _ m m₁ _ name superclass methods _ _ declared _ made =>
    obtain ⟨table', next, h, e, -, -, closures⟩ := Eval.inMethodFrame_apply superclass' methods m₁
    cases made.symm.trans e
    cases declared
    obtain ⟨closure, inside⟩ := closures n f own
    refine ⟨?_, name, superclass, methods, rfl, inside⟩
    rw [closure]
    cases superclass' with
    | none => exact Nat.le_refl _
    | some c => exact (Heap.size_declare ..).symm ▸ Nat.le_of_lt current

end

section
variable {source : String} {p : Checked} {host : Host} {fuel : Nat} {x y : Point}

theorem Starts.mem {ss : List Stmt} {m m' : Machine} {s : Stmt} (h : Starts fuel ss m s m') :
    s ∈ ss := by
  induction h with
  | first => exact List.mem_cons_self
  | later _ _ ih => exact List.mem_cons_of_mem _ ih

theorem Checked.rooted_finalHeap (p : Checked) (host : Host) (fuel : Nat) :
    (p.finalHeap host fuel).Rooted := by
  obtain ⟨r', -, ready, -⟩ := p.keeps_shape host fuel
  exact Shape.rooted ready.fits

/-- Where a function is made that is called, the code is well formed if it is wherever a frame is
current that was made before that of the call. -/
theorem Reached.wellFormed_of_call (accepted : Source.check source = .ok p) {n : Nat} {f : Function}
    {vs : List Value} {m : Machine} (reached : Reached p host fuel ⟨n + 1, .call f vs, m⟩)
    (earlier : ∀ x, Reached p host fuel x → x.machine.current < m.heap.frames.size →
      x.task.WellFormed Token.Spelt) : f.decl.WellFormed Token.Spelt := by
  obtain ⟨Γ, ⟨sound, -, ⟨_, _, -, mirrors, -⟩, -⟩, -⟩ := reached.ready accepted
  have inward : f.closure < m.heap.frames.size := mirrors.lt_size sound.globals
  rcases reached.called_cases with ⟨z, there, declares⟩ | ⟨superclass, g, o, declares, binds⟩
  · cases declares
    exact earlier _ there inward
  · have inside : g.closure < f.closure :=
      (p.rooted_finalHeap host fuel).earlier _ _ (binds.frame accepted).2
    cases declares with
    | @intro z _ table k _ there declares own =>
      have current : z.machine.current < z.machine.heap.frames.size := by
        cases declares
        exact there.current_lt accepted
      obtain ⟨le, name, superclass, methods, task, member⟩ := declares.method current own
      have wf := earlier z there (Nat.lt_of_le_of_lt le (Nat.lt_trans inside inward))
      rw [task] at wf
      cases binds
      exact FunctionDecl.WellFormedList.of_mem wf.2.2 member

/-- The code that a run performs is well formed. The induction is on the current frame: a function
was made where a frame was current that was made earlier than that of the call. -/
theorem Reached.wellFormed (accepted : Source.check source = .ok p)
    (reached : Reached p host fuel x) : x.task.WellFormed Token.Spelt := by
  induction frame : x.machine.current using Nat.strongRecOn generalizing x with
  | ind c ih =>
    subst frame
    obtain ⟨s, m₀, starts, path⟩ := id reached
    induction path with
    | refl =>
      have program := (Source.read_of_check accepted fun _ => spelt_of_mem_tokensOf).1
      exact Stmt.WellFormedList.of_mem program starts.mem
    | @tail x y path calls ihPath =>
      have before : Reached p host fuel x := ⟨s, m₀, starts, path⟩
      have wf : x.task.WellFormed Token.Spelt := by
        rcases calls.current_cases with same | ⟨inner, task, e⟩ | ⟨f, vs, task, -⟩
        · rw [same] at ih
          exact ihPath before ih
        · refine ih _ ?_ before rfl
          obtain ⟨n, _, m⟩ := x
          cases task
          rw [e]
          exact before.current_lt accepted
        · rw [task]
          trivial
      rcases calls.wellFormed wf with wf | ⟨n, f, vs, m, rfl, rfl⟩
      · exact wf
      · exact (before.wellFormed_of_call accepted fun z there lt => ih _ lt there rfl).body

/-- What a point declares is declared by the statement of the program that is being run, in the
global frame, or directly in the block or the body whose frame is current. -/
theorem Reached.declares_cases (accepted : Source.check source = .ok p) {s : Stmt} {m : Machine}
    (starts : Starts fuel p.statements (p.start host) s m)
    (path : Point.Reaches ⟨fuel, .stmt s, m⟩ y) :
    (y.machine.current = 0 ∧ ∀ name ∈ y.task.declares, s.declared? = some name) ∨
      ∃ x purpose, Reached p host fuel x ∧ x.Opens y.machine.current purpose ∧
        ∀ name ∈ y.task.declares, name ∈ purpose.names := by
  induction path with
  | refl => exact .inl ⟨starts.current, fun name declared => Option.mem_toList.mp declared⟩
  | @tail x y path calls ih =>
    have before : Reached p host fuel x := ⟨s, m, starts, path⟩
    rcases calls.declares (before.wellFormed accepted) with ⟨same, declared⟩ |
      ⟨purpose, opens, declared⟩
    · rcases ih with ⟨root, declares⟩ | ⟨z, purpose, there, opens, declares⟩
      · exact .inl ⟨same.trans root, fun name h => declares name (declared name h)⟩
      · exact .inr ⟨z, purpose, there, same ▸ opens, fun name h => declares name (declared name h)⟩
    · exact .inr ⟨x, purpose, before, opens, declared⟩

end

end Lox
