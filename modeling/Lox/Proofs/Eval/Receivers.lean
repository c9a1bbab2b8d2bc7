import Lox.Proofs.Eval.Ready
import Lox.Proofs.Eval.Shape

/-!
# Frames of receivers

In the run of an accepted source only `bind` and class declarations bind a keyword, and they do so
in frames of their own. So what a frame binds `this` and `super` to is settled when the frame is
made, and can be read off the heap at the end of the run (`Reached.grows`); and no frame that is
current binds a keyword (`Reached.no_keyword`). At the distance of a reference to `this` or `super`
lies the nearest frame that binds it (`Heap.Mirrors.searches`).
-/

namespace Lox

/-! ## The heap at the end -/

/-- A name that is no keyword. -/
def NoKeyword (name : String) : Prop :=
  ∀ k : Keyword, name ≠ k.text

theorem Heap.Preserves.grows {h h' : Heap} (p : h.Preserves NoKeyword h') : h.Grows h' :=
  ⟨p.toExtends, fun f inside k => p.kept f inside k.text fun noKeyword => noKeyword k rfl⟩

/-- The heap at the end of a run. -/
def Checked.finalHeap (p : Checked) (host : Host) (fuel : Nat) : Heap :=
  (machineOf (Eval.program fuel p.statements p.distances (.start host))).heap

section
variable {source : String} {p : Checked} {host : Host} {fuel : Nat} {x y : Point} {k : Keyword}

theorem Checked.grows_start (accepted : Source.check source = .ok p) :
    (p.start host).heap.Grows (p.finalHeap host fuel) ∧
      ∀ x, Reached p host fuel x → x.machine.heap.Grows (p.finalHeap host fuel) ∧
        x.after.heap.Grows (p.finalHeap host fuel) := by
  have names : ∀ n ∈ Stmt.writtenList p.statements, NoKeyword n :=
    Stmt.WellFormedList.written (fun _ h => h.isName fun _ => id) p.statements
      (Source.read_of_check accepted fun _ => spelt_of_mem_tokensOf).1
  have ready := Shape.ready_start NoKeyword host
  obtain ⟨r', le, ready', covers, -⟩ :=
    Discipline.leads_program fuel p.distances (fun _ _ => trivial) names ready
  have grows {r : Shape NoKeyword} {m : Machine} (ready : (shaped NoKeyword).Ready r m)
      (le : r ≤ r') : m.heap.Grows (p.finalHeap host fuel) := by
    rw [Checked.finalHeap, ready.fits.heap, ready'.fits.heap]
    exact le.heap.grows
  have start : (shaped NoKeyword).Ready (Shape.start NoKeyword host) (p.start host) :=
    ⟨(shaped NoKeyword).fits_congr ready.fits rfl rfl rfl, ready.current⟩
  refine ⟨grows start le, fun x reached => ?_⟩
  obtain ⟨s, m, starts, path⟩ := reached
  obtain ⟨r₁, r₂, -, le₁, le₂, start, -, atEnd, -⟩ := covers _ ⟨s, m, starts, rfl⟩ x path
  exact ⟨grows start (le₁.trans le₂), grows atEnd le₂⟩

/-- What a frame binds a keyword to at some point, it binds it to at the end. -/
theorem Reached.grows (accepted : Source.check source = .ok p) (reached : Reached p host fuel x) :
    x.machine.heap.Grows (p.finalHeap host fuel) :=
  ((Checked.grows_start accepted).2 x reached).1

theorem Reached.grows_after (accepted : Source.check source = .ok p)
    (reached : Reached p host fuel x) : x.after.heap.Grows (p.finalHeap host fuel) :=
  ((Checked.grows_start accepted).2 x reached).2

/-! ## Current frames -/

/-- The current frame stays the same, but for the body of a block and that of a function, which
start in a frame of their own. -/
theorem Point.Calls.current_cases (h : x.Calls y) :
    y.machine.current = x.machine.current ∨
      (∃ body, x.task = .stmt (.block body) ∧ y.machine = x.machine.enter x.machine.current) ∨
      ∃ f vs, x.task = .call f vs ∧ y.machine = x.machine.activate f vs := by
  have kept {n : Nat} {t : Task} {m m' : Machine} {a : t.Answer} (e : t.run n m = .ok a m') :
      m'.current = m.current := ((Eval.keeps_task n t).ok e).current
  cases h with
  | block => exact .inr (.inl ⟨_, rfl, rfl⟩)
  | body => exact .inr (.inr ⟨_, _, rfl, rfl⟩)
  | binaryRight h => exact .inl (kept (t := .expr _) h)
  | arguments h => exact .inl (kept (t := .expr _) h)
  | apply h h' => exact .inl ((kept (t := .exprs _) h').trans (kept (t := .expr _) h))
  | logicalRight h => exact .inl (kept (t := .expr _) h)
  | setObject h => exact .inl (kept (t := .expr _) h)
  | restOf h => exact .inl (kept (t := .expr _) h)
  | initializer _ made =>
    cases made
    exact .inl rfl
  | ifThen h => exact .inl (kept (t := .expr _) h)
  | ifElseThen h => exact .inl (kept (t := .expr _) h)
  | ifElse h => exact .inl (kept (t := .expr _) h)
  | restStmts h => exact .inl (kept (t := .stmt _) h)
  | loopBody h => exact .inl (kept (t := .expr _) h)
  | loopAgain h _ h' => exact .inl ((kept (t := .stmt _) h').trans (kept (t := .expr _) h))
  | _ => exact .inl rfl

/-- What a body has its part in is performed as a part of it, or is the body of a call. -/
theorem Point.Calls.body_cases (h : x.Calls y)
    (body : y.task.evaluates = true ∨ y.task.runsStatements = true) :
    (x.task.evaluates = true ∨ x.task.runsStatements = true) ∨ ∃ n f vs m,
      x = ⟨n + 1, .call f vs, m⟩ ∧ y = ⟨n, .stmts f.decl.body, m.activate f vs⟩ := by
  cases h with
  | function | «class» | initializer => rcases body with e | e <;> cases e
  | body => exact .inr ⟨_, _, _, _, rfl, rfl⟩
  | _ => first | exact .inl (.inl rfl) | exact .inl (.inr rfl)

theorem Heap.lookup?_of_ge {h : Heap} {f : FrameId} (new : h.frames.size ≤ f) (name : String) :
    h.lookup? f name = none := by
  cases e : h.lookup? f name with
  | none => rfl
  | some v => exact absurd (lt_size_of_lookup? e) (Nat.not_lt.mpr new)

theorem Heap.lookup?_defineAll_of_ne {h : Heap} {f g : FrameId} {params : List Lexeme}
    {vs : List Value} {name : String} (apart : ∀ param ∈ params, param.text ≠ name) :
    (h.defineAll f params vs).lookup? g name = h.lookup? g name := by
  induction params generalizing h vs with
  | nil => rfl
  | cons param params ih =>
    obtain ⟨first, rest⟩ := List.forall_mem_cons.mp apart
    cases vs with
    | nil => rfl
    | cons v vs =>
      rw [defineAll, ih rest, lookup?_define, if_neg fun c => first c.2.2.symm]

theorem Heap.enclosing?_defineAll (h : Heap) (f g : FrameId) (params : List Lexeme)
    (vs : List Value) : (h.defineAll f params vs).enclosing? g = h.enclosing? g := by
  induction params generalizing h vs with
  | nil => rfl
  | cons param params ih =>
    cases vs with
    | nil => rfl
    | cons v vs => rw [defineAll, ih, enclosing?_define]

/-- The frame in which the body of a function starts lies inside its closure. -/
theorem Machine.enclosing?_activate (m : Machine) (f : Function) (vs : List Value) :
    (m.activate f vs).heap.enclosing? m.heap.frames.size = some f.closure := by
  rw [activate, Heap.enclosing?_defineAll, Heap.enclosing?_push, if_pos rfl]

/-- The frame in which the body of a block starts lies inside the current one. -/
theorem Machine.enclosing?_enter (m : Machine) (outer : FrameId) :
    (m.enter outer).heap.enclosing? m.heap.frames.size = some outer := by
  rw [enter, Heap.enclosing?_push, if_pos rfl]

/-- The frame in which a method is bound binds `this`. -/
theorem Machine.lookup?_afterBinding (m : Machine) (f : Function) (o : Instance) :
    (m.afterBinding f o).heap.lookup? (f.boundBy m).closure "this" = some (.instance o) := by
  show ((m.heap.push _).define m.heap.frames.size _ _).lookup? m.heap.frames.size _ = _
  rw [Heap.lookup?_define, if_pos ⟨rfl, by rw [Heap.size_push]; exact Nat.lt_succ_self _, rfl⟩]

/-- The frame in which a method is bound lies inside the closure of the method. -/
theorem Machine.enclosing?_afterBinding (m : Machine) (f : Function) (o : Instance) :
    (m.afterBinding f o).heap.enclosing? (f.boundBy m).closure = some f.closure := by
  show ((m.heap.push _).define m.heap.frames.size _ _).enclosing? m.heap.frames.size = _
  rw [Heap.enclosing?_define, Heap.enclosing?_push, if_pos rfl]

theorem Starts.current {ss : List Stmt} {m m' : Machine} {s : Stmt}
    (h : Starts fuel ss m s m') : m'.current = m.current := by
  induction h with
  | first => rfl
  | later ran _ ih => exact ih.trans ((Eval.keeps_task fuel (.stmt _)).ok ran).current

/-- The frame that is current at a point binds no keyword, then or later. -/
theorem Reached.no_keyword (accepted : Source.check source = .ok p)
    (reached : Reached p host fuel x) (k : Keyword) :
    (p.finalHeap host fuel).lookup? x.machine.current k.text = none := by
  -- A frame that binds no keyword when it becomes current never binds one.
  have lasting {h : Heap} {f : FrameId} (grows : h.Grows (p.finalHeap host fuel))
      (made : f < h.frames.size) (free : h.lookup? f k.text = none) :
      (p.finalHeap host fuel).lookup? f k.text = none := (grows.keyword f made k).trans free
  obtain ⟨s, m, starts, path⟩ := id reached
  induction path with
  | refl =>
    refine starts.current ▸ lasting (Checked.grows_start accepted).1 Nat.one_pos ?_
    cases k <;> rfl
  | @tail x y path calls ih =>
    have before : Reached p host fuel x := ⟨s, m, starts, path⟩
    have grows := reached.grows accepted
    rcases calls.current_cases with same | ⟨body, -, e⟩ | ⟨f, vs, task, e⟩
    · rw [same]
      exact ih before
    · rw [e] at grows ⊢
      refine lasting grows ?_ ?_
      · show x.machine.heap.frames.size < (x.machine.heap.push _).frames.size
        rw [Heap.size_push]
        exact Nat.lt_succ_self _
      · exact (Heap.lookup?_push ..).trans (Heap.lookup?_of_ge (Nat.le_refl _) _)
    · obtain ⟨Γ, ⟨-, ready⟩, -⟩ := before.ready accepted
      rw [task] at ready
      obtain ⟨-, ⟨_, _, -, -, located, -⟩, -⟩ := ready
      obtain ⟨isName, -⟩ := (FunctionDecl.located_iff _).mp located
      rw [e] at grows ⊢
      refine lasting grows (Heap.lt_size_of_enclosing? (x.machine.enclosing?_activate f vs)) ?_
      show ((x.machine.heap.push _).defineAll _ _ _).lookup? _ _ = _
      rw [Heap.lookup?_defineAll_of_ne fun param inside => isName param inside k, Heap.lookup?_push]
      exact Heap.lookup?_of_ge (Nat.le_refl _) _

end

/-! ## The nearest frame -/

namespace Heap

/-- A search for a keyword ends at the same frame when the heap has grown. -/
theorem Searches.grows {h h' : Heap} {k : Keyword} {f g : FrameId}
    (s : h.Searches k.text f (some g)) (grows : h.Grows h') : h'.Searches k.text f (some g) := by
  generalize e : some g = found at s
  induction s with
  | here bound => exact .here (grows.bound _ _ bound)
  | outward free link _ ih =>
    have made := lt_size_of_enclosing? link
    exact .outward ((grows.keyword _ made k).trans free) (grows.link_of_eq link) (ih e)
  | nowhere => cases e

/-- A search goes on along the link of a frame that does not bind the name. -/
theorem Searches.rest {h : Heap} {name : String} {f g : FrameId} {found : Option FrameId}
    (s : h.Searches name f found) (free : h.lookup? f name = none)
    (link : h.enclosing? f = some g) : h.Searches name g found := by
  cases s with
  | here bound =>
    rw [free] at bound
    cases bound
  | outward _ link' rest =>
    cases link.symm.trans link'
    exact rest
  | nowhere _ outermost => cases link.symm.trans outermost

/-- Where the scopes first have a keyword, the frames first bind it. -/
theorem Mirrors.searches {h : Heap} {globals f : FrameId} {scopes : List Scope}
    (m : h.Mirrors globals scopes f) {k : Keyword} {d : Nat}
    (e : scopes.findIdx? (·.contains k.text) = some d) {scope : Scope}
    (there : scopes[d]? = some scope) (defined : scope[k.text]? = some .defined) :
    ∃ g, h.outward? f d = some g ∧ h.Searches k.text f (some g) := by
  induction m generalizing d with
  | nil => cases there
  | @cons first scopes f g isLocal _ bound keyword link _ ih =>
    rw [List.findIdx?_cons] at e
    split at e
    · cases e
      cases there
      exact ⟨f, rfl, .here (bound _ defined)⟩
    · rename_i absent
      obtain ⟨d, e', rfl⟩ := Option.map_eq_some_iff.mp e
      obtain ⟨g', outward, searches⟩ := ih e' there
      refine ⟨g', by rw [Heap.outward?, link]; exact outward, .outward ?_ link searches⟩
      cases free : h.lookup? f k.text with
      | none => rfl
      | some v =>
        refine absurd ?_ absent
        rw [Std.TreeMap.contains_eq_isSome_getElem?]
        exact keyword k (free ▸ rfl)

/-- One link further out. -/
theorem outward?_succ (h : Heap) (f : FrameId) (distance : Nat) :
    h.outward? f (distance + 1) = (h.outward? f distance).bind h.enclosing? := by
  induction distance generalizing f with
  | zero => exact Option.bind_fun_some _
  | succ distance ih =>
    rw [outward?, outward?, Option.bind_assoc]
    exact congrArg _ (funext ih)

end Heap

end Lox
