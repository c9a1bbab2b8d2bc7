import Lox.Proofs.Eval.Failures
import Lox.Proofs.Eval.Sound
import Lox.Proofs.Eval.Discipline.Sessions
import Lox.Proofs.Eval.Course.Calls

/-!
# Fields between the tasks

Between the tasks that a rule performs no field of an instance is set, and after the last of them
only by an assignment to a field, which sets this one (`Point.Stores`). So a rule leads from its
machine to the one that it leaves through the machines of the points that it calls, in order
(`Performs.rule`).
-/

namespace Lox

/-- At the point the field `name` of the instance `o` is set to `v`; value and instance have been
evaluated, which led to the machine `m`. -/
inductive Point.Stores : Point → Instance → String → Value → Machine → Prop
  | intro {n m₀ object name value v m₁ o m} (evaluated : Eval.expr n value m₀ = .ok v m₁)
    (target : Eval.expr n object m₁ = .ok (.instance o) m) :
    Stores ⟨n + 1, .expr (.set object name value), m₀⟩ o name.text v m

/-- The field that is set at the point. -/
def Point.StoresTo (x : Point) (o : InstanceId) (name : String) : Prop :=
  ∃ p v m, x.Stores p name v m ∧ p.identity = o

/-- No field. -/
abbrev NoField : InstanceId → String → Prop :=
  fun _ _ => False

/-- The second machine has the fields of the first, but for those in `S`, and all identities that
were given out. -/
structure Machine.KeepsFields (S : InstanceId → String → Prop) (m m' : Machine) : Prop where
  field : ∀ o name, ¬ S o name → m'.heap.field? o name = m.heap.field? o name
  next : m.nextIdentity ≤ m'.nextIdentity

namespace Machine.KeepsFields

variable {S : InstanceId → String → Prop} {m m₁ m' : Machine}

theorem of_fields (same : m'.heap.fields = m.heap.fields) (le : m.nextIdentity ≤ m'.nextIdentity) :
    m.KeepsFields S m' :=
  ⟨fun o name _ => by rw [Heap.field?, Heap.field?, same], le⟩

theorem refl (m : Machine) : m.KeepsFields S m :=
  of_fields rfl (Nat.le_refl _)

theorem of_eq (e : m' = m) : m.KeepsFields S m' :=
  e ▸ refl m'

theorem trans (h : m.KeepsFields NoField m₁) (h' : m₁.KeepsFields S m') : m.KeepsFields S m' where
  field o name apart := (h'.field o name apart).trans (h.field o name id)
  next := Nat.le_trans h.next h'.next

theorem mono (h : m.KeepsFields NoField m') : m.KeepsFields S m' :=
  h.trans (refl m')

end Machine.KeepsFields

namespace Eval

variable {α β : Type} {S : InstanceId → String → Prop} {m m' : Machine}

/-- However the computation ends, no field outside of `S` was set. -/
def Saves (S : InstanceId → String → Prop) (y : Eval α) (m : Machine) : Prop :=
  m.KeepsFields S (machineOf (y m))

theorem saves_of_fields {y : Eval α} (same : (machineOf (y m)).heap.fields = m.heap.fields)
    (le : m.nextIdentity ≤ (machineOf (y m)).nextIdentity) : Saves S y m :=
  .of_fields same le

theorem saves_pure (a : α) : Saves S (pure a) m :=
  .refl m

theorem saves_throw (s : Stop) : Saves S (throw s : Eval α) m :=
  .refl m

/-- What is true up to the end of a computation, and then of what follows it. -/
theorem keepsFields_bind {m₀ : Machine} {y : Eval α} {f : α → Eval β}
    (hy : m.KeepsFields NoField (machineOf (y m₀)))
    (hf : ∀ a m₁, y m₀ = .ok a m₁ → Saves S (f a) m₁) :
    m.KeepsFields S (machineOf ((y >>= f) m₀)) := by
  cases e : y m₀ with
  | error s m₁ =>
    rw [bind_of_error e]
    rw [e] at hy
    exact hy.mono
  | ok a m₁ =>
    rw [bind_of_ok e]
    rw [e] at hy
    exact hy.trans (hf a m₁ e)

theorem saves_bind {y : Eval α} {f : α → Eval β} (hy : Saves NoField y m)
    (hf : ∀ a m₁, y m = .ok a m₁ → Saves S (f a) m₁) : Saves S (y >>= f) m :=
  keepsFields_bind hy hf

/-- To make another frame the current one again changes no field. -/
theorem keepsFields_within (frame : FrameId) (body : Eval α) (m : Machine) :
    (machineOf (body { m with current := frame })).KeepsFields S
      (machineOf (within frame body m)) := by
  unfold within
  cases body { m with current := frame } <;> exact .of_fields rfl (Nat.le_refl _)

theorem saves_within {frame : FrameId} {body : Eval α}
    (h : Saves NoField body { m with current := frame }) : Saves S (within frame body) m := by
  have started : m.KeepsFields NoField { m with current := frame } :=
    .of_fields rfl (Nat.le_refl _)
  exact (started.trans h).trans (keepsFields_within frame body m)

theorem saves_ofExcept (mark : Lexeme) (r : Except RuntimeCause Value) :
    Saves S (ofExcept mark r) m := by
  cases r <;> exact .refl m

theorem saves_lookUp (id : ExprId) (name : Lexeme) : Saves S (lookUp id name) m := by
  unfold Saves lookUp
  split
  · exact .refl m
  · split <;> exact .refl m

theorem saves_assignFrom (frame : FrameId) (name : Lexeme) (v : Value) :
    Saves S (assignFrom frame name v) m := by
  unfold Saves assignFrom
  split
  · exact .of_fields rfl (Nat.le_refl _)
  · exact .refl m

theorem saves_assign (id : ExprId) (name : Lexeme) (v : Value) : Saves S (assign id name v) m := by
  cases known : m.distances[id]? with
  | some distance =>
    refine saves_of_fields ?_ ?_ <;> simp only [assign, known]
    · rfl
    · exact Nat.le_refl _
  | none =>
    have inGlobals := saves_assignFrom (S := S) (m := m) m.globals name v
    rw [Saves, show assign id name v m = assignFrom m.globals name v m by
      simp only [assign, known]]
    exact inGlobals

theorem saves_result (f : Function) (flow : Flow) : Saves S (result f flow) m := by
  unfold Saves result
  split
  · exact .refl m
  · cases flow <;> exact .refl m

theorem saves_write (text : String) : Saves S (write text) m := by
  unfold Saves write
  split
  · split <;> exact .of_fields rfl (Nat.le_refl _)
  · exact .of_fields rfl (Nat.le_refl _)

theorem saves_flush : Saves S flush m := by
  unfold Saves flush
  split <;> exact .refl m

theorem saves_bindParams (frame : FrameId) (params : List Lexeme) (vs : List Value) :
    Saves S (bindParams frame params vs) m := by
  unfold Saves
  rw [bindParams_apply]
  exact .of_fields (Heap.fields_defineAll ..) (Nat.le_refl _)

theorem saves_newInstance (c : Class) : Saves S (newInstance c) m :=
  ⟨fun o name _ => Heap.field?_pushInstance m.heap o name, Nat.le_refl _⟩

theorem saves_bindMethod (f : Function) (o : Instance) : Saves S (bind f o) m :=
  .of_fields rfl (Nat.le_succ _)

theorem saves_property (o : Instance) (name : Lexeme) : Saves S (property o name) m := by
  refine saves_bind (.refl m) fun _ _ e => ?_
  cases e
  split
  · exact saves_pure _
  · split
    · exact saves_bind (saves_bindMethod _ _) fun _ _ _ => saves_pure _
    · exact saves_throw _

/-- A rule that performs no tasks sets no field. -/
theorem saves_of_noCalls {x : Point} (none : ∀ y, ¬ x.Calls y) :
    Saves S (x.task.run x.fuel) x.machine := by
  have rule : x.Composes fun _ y m => Saves NoField y m := {
    outOfFuel := saves_throw _
    pure := saves_pure
    bind := saves_bind
    within := saves_within
    calls := fun calls => absurd calls (none _)
    fail := fun _ => saves_throw _
    get := fun _ => id
    currentFrame := saves_of_fields rfl (Nat.le_refl _)
    freshIdentity := saves_of_fields rfl (Nat.le_succ _)
    newFrame := fun _ _ => saves_of_fields rfl (Nat.le_refl _)
    newInstance := saves_newInstance
    readClock := saves_of_fields rfl (Nat.le_refl _)
    lookUpAt := fun _ _ => saves_of_fields rfl (Nat.le_refl _)
    lookUp := fun id _ => saves_lookUp id _
    setProperty := fun here => absurd Point.Calls.setValue (here ▸ none _)
    result := saves_result
    assignFrom := fun frame v _ => saves_assignFrom frame _ v
    assign := fun _ _ => saves_assign _ _ _
    define := fun _ _ _ => saves_of_fields rfl (Nat.le_refl _)
    declare := fun _ _ => saves_of_fields rfl (Nat.le_refl _)
    bindMethod := fun _ => saves_bindMethod _ _
    bindSuper := fun _ => saves_of_fields rfl (Nat.le_refl _)
    bindParams := fun _ => saves_bindParams _ _ _
    write := fun _ _ => saves_write _ }
  have kept := rule.task
  exact kept.mono

/-- The tasks `ys` are performed on the way from the first machine to the second. Next to them no
field is set, but that those in `S` may be set at the end. -/
inductive Performs (S : InstanceId → String → Prop) : Machine → List Point → Machine → Prop
  | rest {m m' : Machine} (h : m.KeepsFields S m') : Performs S m [] m'
  | next {m m' : Machine} {y : Point} {ys : List Point} (before : m.KeepsFields NoField y.machine)
    (rest : Performs S y.after ys m') : Performs S m (y :: ys) m'

namespace Performs

theorem later {m m₁ m' : Machine} {ys : List Point} (h : Performs S m₁ ys m')
    (before : m.KeepsFields NoField m₁) : Performs S m ys m' := by
  cases h with
  | rest h => exact .rest (before.trans h)
  | next first rest => exact .next (before.trans first) rest

theorem closed {m m₁ m' : Machine} {ys : List Point} (h : Performs NoField m ys m₁)
    (after : m₁.KeepsFields S m') : Performs S m ys m' := by
  induction h with
  | rest h => exact .rest (h.trans after)
  | next before _ ih => exact .next before (ih after)

/-- A task whose answer is that of the rule. -/
theorem task (x : Point) : Performs S x.machine [x] (machineOf (x.task.run x.fuel x.machine)) :=
  .next (.refl _) (.rest (.refl _))

/-- A task, and what follows it. -/
theorem andThen {x : Point} {f : x.task.Answer → Eval β}
    {further : x.task.Answer → Machine → List Point}
    (h : ∀ a m₁, x.task.run x.fuel x.machine = .ok a m₁ →
      Performs S m₁ (further a m₁) (machineOf (f a m₁))) :
    Performs S x.machine (x.andThen further)
      (machineOf ((x.task.run x.fuel >>= f) x.machine)) := by
  refine .next (.refl _) ?_
  rw [Point.after]
  cases e : x.task.run x.fuel x.machine with
  | ok a m₁ =>
    rw [bind_of_ok e]
    exact h a m₁ e
  | error s m₁ =>
    rw [bind_of_error e]
    exact .rest (.refl m₁)

/-- A task, after which no other is performed. -/
theorem last {x : Point} {f : x.task.Answer → Eval β}
    (h : ∀ a m₁, x.task.run x.fuel x.machine = .ok a m₁ → Saves S (f a) m₁) :
    Performs S x.machine [x] (machineOf ((x.task.run x.fuel >>= f) x.machine)) :=
  .next (.refl _) (.rest (keepsFields_bind (.refl _) h))

/-- A rule that performs no tasks. -/
theorem none {x : Point} (h : x.calls = []) : Performs S x.machine x.calls x.after := by
  rw [h]
  refine .rest (saves_of_noCalls fun y calls => ?_)
  have there := calls.mem_calls
  rw [h] at there
  cases there

/-- A rule that performs one task, on a machine of its own. -/
theorem one {x y : Point} (calls : x.calls = [y])
    (before : x.machine.KeepsFields NoField y.machine) (after : y.after.KeepsFields S x.after) :
    Performs S x.machine x.calls x.after := by
  rw [calls]
  exact .next before (.rest after)

theorem expr {n : Nat} {m : Machine} {e : Expr} :
    Performs (Point.StoresTo ⟨n + 1, .expr e, m⟩) m (Point.calls ⟨n + 1, .expr e, m⟩)
      (machineOf (expr (n + 1) e m)) := by
  cases e with
  | assign id name value =>
    exact last (x := ⟨n, .expr value, m⟩) fun v _ _ =>
      saves_bind (saves_assign id name v) fun _ _ _ => saves_pure v
  | binary op mark left right =>
    exact andThen (x := ⟨n, .expr left, m⟩) fun a m₁ _ =>
      last (x := ⟨n, .expr right, m₁⟩) fun b _ _ => saves_ofExcept mark (op.apply a b)
  | call callee paren arguments =>
    exact andThen (x := ⟨n, .expr callee, m⟩) fun f m₁ _ =>
      andThen (x := ⟨n, .exprs arguments, m₁⟩) fun vs m₂ _ => task ⟨n, .apply f paren vs, m₂⟩
  | get object name =>
    refine last (x := ⟨n, .expr object, m⟩) fun v _ _ => ?_
    split
    · exact saves_property _ name
    · exact saves_throw _
  | grouping inner => exact task ⟨n, .expr inner, m⟩
  | logical op mark left right =>
    refine andThen (x := ⟨n, .expr left, m⟩) fun v m₁ _ => ?_
    split
    · exact .rest (.refl m₁)
    · exact task ⟨n, .expr right, m₁⟩
  | set object name value =>
    refine andThen (x := ⟨n, .expr value, m⟩) fun v m₁ evaluated => ?_
    refine last (x := ⟨n, .expr object, m₁⟩) fun o m₂ target => ?_
    split
    · rename_i o
      refine ⟨fun p other apart => ?_, Nat.le_refl _⟩
      show (m₂.heap.setField o.identity name.text v).field? p other = _
      rw [Heap.field?_setField, if_neg]
      rintro ⟨rfl, -, rfl⟩
      exact apart ⟨o, v, m₂, .intro evaluated target, rfl⟩
    · exact saves_throw _
  | unary op mark right =>
    exact last (x := ⟨n, .expr right, m⟩) fun v _ _ => saves_ofExcept mark (op.apply v)
  | literal _ | «super» _ _ _ | this _ _ | «variable» _ _ =>
    exact none (x := ⟨n + 1, .expr _, m⟩) rfl

theorem stmt {n : Nat} {m : Machine} {s : Stmt} :
    Performs S m (Point.calls ⟨n + 1, .stmt s, m⟩) (machineOf (stmt (n + 1) s m)) := by
  cases s with
  | block body =>
    have entered : m.KeepsFields NoField (m.enter m.current) := .of_fields rfl (Nat.le_refl _)
    exact .next entered (.rest (keepsFields_within m.heap.frames.size (stmts n body)
      { m with heap := m.heap.push (some m.current) }))
  | expression e => exact last (x := ⟨n, .expr e, m⟩) fun _ _ _ => saves_pure Flow.normal
  | ifThen condition thenBranch =>
    refine andThen (x := ⟨n, .expr condition, m⟩) fun v m₁ _ => ?_
    split
    · exact task ⟨n, .stmt thenBranch, m₁⟩
    · exact .rest (.refl m₁)
  | ifElse condition thenBranch elseBranch =>
    refine andThen (x := ⟨n, .expr condition, m⟩) fun v m₁ _ => ?_
    split
    · exact task ⟨n, .stmt thenBranch, m₁⟩
    · exact task ⟨n, .stmt elseBranch, m₁⟩
  | print e =>
    exact last (x := ⟨n, .expr e, m⟩) fun v _ _ =>
      saves_bind (saves_write v.text) fun _ _ _ => saves_pure Flow.normal
  | returning keyword value =>
    cases value with
    | none => exact none (x := ⟨n + 1, .stmt _, m⟩) rfl
    | some value => exact last (x := ⟨n, .expr value, m⟩) fun v _ _ => saves_pure (Flow.returned v)
  | varDecl name initializer =>
    cases initializer with
    | none => exact none (x := ⟨n + 1, .stmt _, m⟩) rfl
    | some initializer =>
      exact last (x := ⟨n, .expr initializer, m⟩) fun v _ _ =>
        saves_bind (saves_of_fields rfl (Nat.le_refl _)) fun _ _ _ => saves_pure Flow.normal
  | «while» condition body => exact task ⟨n, .loop condition body, m⟩
  | classDecl _ _ _ | function _ => exact none (x := ⟨n + 1, .stmt _, m⟩) rfl

/-- The tasks that a rule performs are performed in order. -/
theorem rule (x : Point) : Performs x.StoresTo x.machine x.calls x.after := by
  obtain ⟨_ | n, t, m⟩ := x
  · exact none rfl
  cases t with
  | expr e => exact expr
  | exprs es =>
    cases es with
    | nil => exact none rfl
    | cons e es =>
      exact andThen (x := ⟨n, .expr e, m⟩) fun v m₁ _ =>
        last (x := ⟨n, .exprs es, m₁⟩) fun vs _ _ => saves_pure (v :: vs)
  | apply f paren vs =>
    cases f with
    | function f =>
      by_cases enough : f.arity ≤ vs.length
      · have checked : checkArity paren f.arity vs.length m = .ok () m :=
          checkArity_eq_ok.mpr ⟨enough, rfl⟩
        have called : apply (n + 1) (.function f) paren vs m = call n f vs m := bind_of_ok checked
        exact one (if_pos enough) (.refl m) (.of_eq (congrArg machineOf called))
      · exact none (if_neg enough)
    | «class» c =>
      by_cases enough : c.arity ≤ vs.length
      · have checked : checkArity paren c.arity vs.length m = .ok () m :=
          checkArity_eq_ok.mpr ⟨enough, rfl⟩
        have called : apply (n + 1) (.class c) paren vs m = make n c vs m := bind_of_ok checked
        exact one (if_pos enough) (.refl m) (.of_eq (congrArg machineOf called))
      · exact none (if_neg enough)
    | _ => exact none rfl
  | call f vs =>
    refine one rfl (.of_fields (Heap.fields_defineAll ..) (Nat.le_refl _)) ?_
    show (machineOf (stmts n f.decl.body (m.activate f vs))).KeepsFields _
      (machineOf (call (n + 1) f vs m))
    rw [call_succ]
    exact keepsFields_bind (keepsFields_within m.heap.frames.size (stmts n f.decl.body)
      { m.activate f vs with current := m.current }) fun flow _ _ => saves_result f flow
  | make c vs =>
    cases found : c.initializer? with
    | none => exact none (by simp only [Point.calls, found])
    | some f =>
      have calls : Point.calls ⟨n + 1, .make c vs, m⟩ =
          [⟨n, .call (f.boundBy { m with heap := m.heap.pushInstance }) vs,
            ({ m with heap := m.heap.pushInstance } : Machine).afterBinding f
              ⟨m.heap.fields.size, c⟩⟩] := by
        simp only [Point.calls, found]
      refine one calls ?_ ?_
      · exact (saves_newInstance c).trans (saves_bindMethod f _)
      · show Machine.KeepsFields _ _ (machineOf (make (n + 1) c vs m))
        rw [make_of_some found]
        exact keepsFields_bind (.refl _) fun _ _ _ => saves_pure _
  | stmt s => exact stmt
  | stmts ss =>
    cases ss with
    | nil => exact none rfl
    | cons s ss =>
      refine andThen (x := ⟨n, .stmt s, m⟩) fun flow m₁ _ => ?_
      cases flow with
      | normal => exact task ⟨n, .stmts ss, m₁⟩
      | returned v => exact .rest (.refl m₁)
  | loop condition body =>
    refine andThen (x := ⟨n, .expr condition, m⟩) fun v m₁ _ => ?_
    split
    · refine andThen (x := ⟨n, .stmt body, m₁⟩) fun flow m₂ _ => ?_
      cases flow with
      | normal => exact task ⟨n, .loop condition body, m₂⟩
      | returned v => exact .rest (.refl m₂)
    · exact .rest (.refl m₁)

end Performs

end Eval

end Lox
