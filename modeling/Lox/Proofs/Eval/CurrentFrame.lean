import Lox.Session
import Lox.Proofs.Eval.Tasks

/-!
# The current frame

A machine goes on from another if the current frame, the frame of the globals, the distances and the
host are the same, and what was printed is still printed (`Machine.GoesOn`). However a computation
ends, the machine goes on (`Keeps`). Every task does so (`keeps_task`), by induction on the fuel:
the only step that changes the current frame is `within`, which puts it back. So each step of a
session begins in the global frame (`current_frame_is_restored`).
-/

namespace Lox

/-- The machine that a computation leaves, however it ends. -/
def machineOf {α : Type} : EStateM.Result Stop Machine α → Machine
  | .ok _ m => m
  | .error _ m => m

/-- The current frame, the globals and the distances of two machines are the same. -/
structure Machine.SameSetting (m m' : Machine) : Prop where
  current : m'.current = m.current
  globals : m'.globals = m.globals
  distances : m'.distances = m.distances

namespace Machine.SameSetting

theorem refl (m : Machine) : m.SameSetting m :=
  ⟨rfl, rfl, rfl⟩

theorem trans {m₁ m₂ m₃ : Machine} (h : m₁.SameSetting m₂) (h' : m₂.SameSetting m₃) :
    m₁.SameSetting m₃ :=
  ⟨h'.current.trans h.current, h'.globals.trans h.globals, h'.distances.trans h.distances⟩

end Machine.SameSetting

/-- The second machine has the setting and the host of the first, and has printed what the first has
printed, and perhaps more. -/
structure Machine.GoesOn (m m' : Machine) : Prop extends SameSetting m m' where
  host : m'.host = m.host
  printed : m.printed.toList <+: m'.printed.toList

namespace Machine.GoesOn

theorem refl (m : Machine) : m.GoesOn m :=
  ⟨.refl m, rfl, List.prefix_rfl⟩

theorem trans {m₁ m₂ m₃ : Machine} (h : m₁.GoesOn m₂) (h' : m₂.GoesOn m₃) : m₁.GoesOn m₃ :=
  ⟨h.toSameSetting.trans h'.toSameSetting, h'.host.trans h.host, h.printed.trans h'.printed⟩

/-- Nothing is printed. -/
theorem silent {m m' : Machine} (setting : m.SameSetting m') (host : m'.host = m.host)
    (printed : m'.printed = m.printed) : m.GoesOn m' :=
  ⟨setting, host, printed ▸ List.prefix_rfl⟩

end Machine.GoesOn

namespace Eval

open Machine (GoesOn)

variable {α β : Type}

/-- However the computation ends, it leaves the setting of the machine as it was, and what was
printed stays printed. -/
def Keeps (x : Eval α) : Prop :=
  ∀ m : Machine, m.GoesOn (machineOf (x m))

theorem Keeps.ok {x : Eval α} (h : Keeps x) {m m' : Machine} {a : α} (e : x m = .ok a m') :
    m.GoesOn m' := by
  have := h m
  rwa [e] at this

/-! ## Steps -/

theorem keeps_pure (a : α) : Keeps (pure a) := GoesOn.refl

theorem keeps_throw (s : Stop) : Keeps (throw s : Eval α) := GoesOn.refl

theorem keeps_fail (blamed : Lexeme) (cause : RuntimeCause) : Keeps (fail blamed cause : Eval α) :=
  GoesOn.refl

theorem keeps_bind {x : Eval α} {f : α → Eval β} (hx : Keeps x) (hf : ∀ a, Keeps (f a)) :
    Keeps (x >>= f) := by
  intro m
  have first := hx m
  cases h : x m with
  | ok a m₁ =>
    rw [h] at first
    rw [bind_of_ok h]
    exact first.trans (hf a m₁)
  | error s m₁ =>
    rw [h] at first
    rwa [bind_of_error h]

/-- The frame that was current before `within` is current after it. -/
theorem keeps_within (frame : FrameId) {body : Eval α} (h : Keeps body) :
    Keeps (within frame body) := by
  intro m
  have inside := h { m with current := frame }
  unfold within
  split <;> rename_i e <;> rw [e] at inside
  all_goals exact ⟨⟨rfl, inside.globals, inside.distances⟩, inside.host, inside.printed⟩

theorem keeps_get : Keeps get := GoesOn.refl

theorem keeps_modifyHeap (f : Heap → Heap) : Keeps (modifyHeap f) :=
  fun _ => .silent ⟨rfl, rfl, rfl⟩ rfl rfl

theorem keeps_freshIdentity : Keeps freshIdentity :=
  fun _ => .silent ⟨rfl, rfl, rfl⟩ rfl rfl

theorem keeps_currentFrame : Keeps currentFrame := GoesOn.refl

theorem keeps_newFrame (outer : FrameId) : Keeps (newFrame outer) :=
  fun _ => .silent ⟨rfl, rfl, rfl⟩ rfl rfl

theorem keeps_newInstance (c : Class) : Keeps (newInstance c) :=
  fun _ => .silent ⟨rfl, rfl, rfl⟩ rfl rfl

theorem keeps_write (text : String) : Keeps (write text) := by
  intro m
  have written : m.GoesOn { m with printed := m.printed.push text } :=
    ⟨⟨rfl, rfl, rfl⟩, rfl, Array.toList_push ▸ List.prefix_append _ _⟩
  unfold write
  split
  · split
    · exact .refl m
    · exact written
  · exact written

theorem keeps_readClock : Keeps readClock := fun _ => .silent ⟨rfl, rfl, rfl⟩ rfl rfl

theorem keeps_flush : Keeps flush := by
  intro m
  unfold flush
  split <;> exact .refl m

/-! ## Variables -/

theorem keeps_lookUp (id : ExprId) (name : Lexeme) : Keeps (lookUp id name) := by
  intro m
  unfold lookUp
  split
  · exact .refl m
  · split <;> exact .refl m

theorem keeps_assignFrom (frame : FrameId) (name : Lexeme) (v : Value) :
    Keeps (assignFrom frame name v) := by
  intro m
  unfold assignFrom
  split <;> exact .silent ⟨rfl, rfl, rfl⟩ rfl rfl

theorem keeps_assign (id : ExprId) (name : Lexeme) (v : Value) : Keeps (assign id name v) := by
  intro m
  unfold assign
  split
  · exact .silent ⟨rfl, rfl, rfl⟩ rfl rfl
  · exact keeps_assignFrom _ name v m

theorem keeps_define (name : Lexeme) (v : Value) : Keeps (define name v) :=
  fun _ => .silent ⟨rfl, rfl, rfl⟩ rfl rfl

theorem keeps_declare (name : Lexeme) : Keeps (declare name) :=
  fun _ => .silent ⟨rfl, rfl, rfl⟩ rfl rfl

/-! ## Functions, classes and instances -/

theorem keeps_bindMethod (f : Function) (o : Instance) : Keeps (bind f o) :=
  fun _ => .silent ⟨rfl, rfl, rfl⟩ rfl rfl

theorem keeps_property (o : Instance) (name : Lexeme) : Keeps (property o name) := by
  refine keeps_bind keeps_get fun m => ?_
  split
  · exact keeps_pure _
  · split
    · exact keeps_bind (keeps_bindMethod _ o) fun f => keeps_pure _
    · exact keeps_fail _ _

theorem keeps_superMethod (id : ExprId) (keyword method : Lexeme) :
    Keeps (superMethod id keyword method) := by
  have lookUpAt (distance : Nat) (name : String) : Keeps (lookUpAt distance name) :=
    GoesOn.refl
  refine keeps_bind keeps_get fun m => ?_
  split
  · exact keeps_fail _ _
  · exact keeps_fail _ _
  · refine keeps_bind (lookUpAt _ _) fun superclass => keeps_bind (lookUpAt _ _) fun receiver => ?_
    split
    · split
      · exact keeps_bind (keeps_bindMethod _ _) fun f => keeps_pure _
      · exact keeps_fail _ _
    · exact keeps_fail _ _

theorem keeps_declareFunction (decl : FunctionDecl) : Keeps (declareFunction decl) :=
  keeps_bind (keeps_declare _) fun _ => keeps_bind keeps_currentFrame fun _ =>
    keeps_bind keeps_freshIdentity fun _ => keeps_assignFrom _ _ _

theorem keeps_declareMethods (decls : List FunctionDecl) (methods : Std.TreeMap String Function) :
    Keeps (declareMethods decls methods) := by
  induction decls generalizing methods with
  | nil => exact keeps_pure methods
  | cons decl decls ih =>
    exact keeps_bind keeps_freshIdentity fun _ => keeps_bind keeps_currentFrame fun _ => ih _

theorem keeps_superclassOf (name : Lexeme) (superclass : Option Superclass) :
    Keeps (superclassOf name superclass) := by
  cases superclass with
  | none => exact keeps_pure none
  | some superclass =>
    refine keeps_bind (keeps_lookUp _ _) fun v => ?_
    split
    · exact keeps_pure _
    · exact keeps_fail _ _

theorem keeps_inMethodFrame (superclass : Option Class) {body : Eval α} (h : Keeps body) :
    Keeps (inMethodFrame superclass body) := by
  cases superclass with
  | none => exact h
  | some c =>
    exact keeps_bind keeps_currentFrame fun _ => keeps_bind (keeps_newFrame _) fun frame =>
      keeps_bind (keeps_modifyHeap _) fun _ => keeps_within frame h

theorem keeps_declareClass (name : Lexeme) (superclass : Option Superclass)
    (methods : List FunctionDecl) : Keeps (declareClass name superclass methods) :=
  keeps_bind (keeps_declare _) fun _ => keeps_bind (keeps_superclassOf _ _) fun superclass =>
    keeps_bind (keeps_inMethodFrame superclass (keeps_declareMethods _ _)) fun _ =>
      keeps_bind keeps_currentFrame fun _ => keeps_bind keeps_freshIdentity fun _ =>
        keeps_assignFrom _ _ _

theorem keeps_checkArity (paren : Lexeme) (expected given : Nat) :
    Keeps (checkArity paren expected given) := by
  unfold checkArity
  split
  · exact keeps_fail _ _
  · exact keeps_pure _

theorem keeps_bindParams (frame : FrameId) (params : List Lexeme) (vs : List Value) :
    Keeps (bindParams frame params vs) := by
  intro m
  rw [bindParams_apply]
  exact .silent ⟨rfl, rfl, rfl⟩ rfl rfl

theorem keeps_ofExcept (mark : Lexeme) (r : Except RuntimeCause Value) :
    Keeps (ofExcept mark r) := by
  cases r with
  | ok v => exact keeps_pure v
  | error cause => exact keeps_fail mark cause

theorem keeps_result (f : Function) (flow : Flow) : Keeps (result f flow) := by
  intro m
  unfold result
  split
  · exact .refl m
  · cases flow <;> exact .refl m

/-! ## Tasks -/

section
variable {n : Nat} (ih : ∀ t : Task, Keeps (t.run n))
include ih

theorem keeps_expr (e : Expr) : Keeps (expr (n + 1) e) := by
  have expr (e : Expr) : Keeps (Eval.expr n e) := ih (.expr e)
  cases e with
  | assign id name value =>
    exact keeps_bind (expr value) fun v => keeps_bind (keeps_assign id name v) fun _ =>
      keeps_pure v
  | binary op mark left right =>
    exact keeps_bind (expr left) fun a => keeps_bind (expr right) fun b => keeps_ofExcept _ _
  | call callee paren arguments =>
    exact keeps_bind (expr callee) fun f => keeps_bind (ih (.exprs arguments)) fun vs =>
      ih (.apply f paren vs)
  | get object name =>
    refine keeps_bind (expr object) fun v => ?_
    split
    · exact keeps_property _ name
    · exact keeps_fail _ _
  | grouping inner => exact expr inner
  | literal value => exact keeps_pure _
  | logical op mark left right =>
    refine keeps_bind (expr left) fun v => ?_
    split
    · exact keeps_pure v
    · exact expr right
  | set object name value =>
    refine keeps_bind (expr value) fun v => keeps_bind (expr object) fun o => ?_
    split
    · exact keeps_bind (keeps_modifyHeap _) fun _ => keeps_pure v
    · exact keeps_fail _ _
  | super id keyword method => exact keeps_superMethod id keyword method
  | this id keyword => exact keeps_lookUp id keyword
  | unary op mark right => exact keeps_bind (expr right) fun v => keeps_ofExcept _ _
  | «variable» id name => exact keeps_lookUp id name

theorem keeps_apply (f : Value) (paren : Lexeme) (vs : List Value) :
    Keeps (apply (n + 1) f paren vs) := by
  cases f with
  | function f => exact keeps_bind (keeps_checkArity _ _ _) fun _ => ih (.call f vs)
  | «class» c => exact keeps_bind (keeps_checkArity _ _ _) fun _ => ih (.make c vs)
  | native f => cases f with
    | clock => exact keeps_readClock
  | _ => exact keeps_fail _ _

theorem keeps_call (f : Function) (vs : List Value) : Keeps (call (n + 1) f vs) :=
  keeps_bind (keeps_newFrame _) fun frame => keeps_bind (keeps_bindParams _ _ _) fun _ =>
    keeps_bind (keeps_within frame (ih (.stmts f.decl.body))) fun flow => keeps_result f flow

theorem keeps_make (c : Class) (vs : List Value) : Keeps (make (n + 1) c vs) := by
  refine keeps_bind (keeps_newInstance c) fun o => ?_
  split
  · exact keeps_bind (keeps_bindMethod _ o) fun f => keeps_bind (ih (.call f vs)) fun _ =>
      keeps_pure _
  · exact keeps_pure _

theorem keeps_stmt (s : Stmt) : Keeps (stmt (n + 1) s) := by
  have expr (e : Expr) : Keeps (Eval.expr n e) := ih (.expr e)
  have stmt (s : Stmt) : Keeps (Eval.stmt n s) := ih (.stmt s)
  cases s with
  | block body =>
    exact keeps_bind keeps_currentFrame fun _ => keeps_bind (keeps_newFrame _) fun frame =>
      keeps_within frame (ih (.stmts body))
  | classDecl name superclass methods =>
    exact keeps_bind (keeps_declareClass name superclass methods) fun _ => keeps_pure _
  | expression e => exact keeps_bind (expr e) fun _ => keeps_pure _
  | function decl => exact keeps_bind (keeps_declareFunction decl) fun _ => keeps_pure _
  | ifThen condition thenBranch =>
    refine keeps_bind (expr condition) fun v => ?_
    split
    · exact stmt thenBranch
    · exact keeps_pure _
  | ifElse condition thenBranch elseBranch =>
    refine keeps_bind (expr condition) fun v => ?_
    split
    · exact stmt thenBranch
    · exact stmt elseBranch
  | print e =>
    exact keeps_bind (expr e) fun v => keeps_bind (keeps_write v.text) fun _ => keeps_pure _
  | returning keyword value =>
    cases value with
    | none => exact keeps_pure _
    | some value => exact keeps_bind (expr value) fun v => keeps_pure _
  | varDecl name initializer =>
    cases initializer with
    | none => exact keeps_bind (keeps_define name _) fun _ => keeps_pure _
    | some initializer =>
      exact keeps_bind (expr initializer) fun v => keeps_bind (keeps_define name v) fun _ =>
        keeps_pure _
  | «while» condition body => exact ih (.loop condition body)

theorem keeps_loop (condition : Expr) (body : Stmt) : Keeps (loop (n + 1) condition body) := by
  refine keeps_bind (ih (.expr condition)) fun v => ?_
  split
  · refine keeps_bind (ih (.stmt body)) fun flow => ?_
    cases flow with
    | normal => exact ih (.loop condition body)
    | returned v => exact keeps_pure _
  · exact keeps_pure _

end

/-- Every task keeps the setting of the machine. -/
theorem keeps_task (n : Nat) (t : Task) : Keeps (t.run n) := by
  induction n generalizing t with
  | zero => cases t <;> exact keeps_throw _
  | succ n ih =>
    cases t with
    | expr e => exact keeps_expr ih e
    | exprs es =>
      cases es with
      | nil => exact keeps_pure []
      | cons e es =>
        exact keeps_bind (ih (.expr e)) fun v => keeps_bind (ih (.exprs es)) fun vs => keeps_pure _
    | apply f paren vs => exact keeps_apply ih f paren vs
    | call f vs => exact keeps_call ih f vs
    | make c vs => exact keeps_make ih c vs
    | stmt s => exact keeps_stmt ih s
    | stmts ss =>
      cases ss with
      | nil => exact keeps_pure _
      | cons s ss =>
        refine keeps_bind (ih (.stmt s)) fun flow => ?_
        cases flow with
        | normal => exact ih (.stmts ss)
        | returned v => exact keeps_pure _
    | loop condition body => exact keeps_loop ih condition body

/-! ## Programs and sessions -/

theorem keeps_topLevel (fuel : Nat) (ss : List Stmt) : Keeps (topLevel fuel ss) := by
  induction ss with
  | nil => exact keeps_pure ()
  | cons s ss ih => exact keeps_bind (keeps_task fuel (.stmt s)) fun _ => ih

/-- A program sets the distances, and keeps the setting that this gives. -/
theorem keeps_program (fuel : Nat) (ss : List Stmt) (distances : Distances) (m : Machine) :
    Machine.GoesOn { m with distances := distances }
      (machineOf (program fuel ss distances m)) :=
  keeps_bind (keeps_topLevel fuel ss) (fun _ => keeps_flush) { m with distances := distances }

end Eval

open Eval

namespace Session

/-- The machine after the steps of a session. -/
def machineAfter (fuel : Nat) (m : Machine) (ss : List Step) : Machine :=
  ss.foldl (fun m s => (step fuel m s).2) m

theorem finish_machine {α : Type} (report : α → Report) (r : EStateM.Result Stop Machine α) :
    (finish report r).2 = machineOf r := by
  unfold finish
  split <;> rfl

/-- However a step of a session ends, the current frame and the globals are what they were. -/
theorem step_frames (fuel : Nat) (m : Machine) (s : Step) :
    (step fuel m s).2.current = m.current ∧ (step fuel m s).2.globals = m.globals := by
  cases s with
  | evaluate source =>
    simp only [step, proceed]
    split
    · rename_i e _
      have kept := keeps_task fuel (.expr e) m
      rw [finish_machine]
      exact ⟨kept.current, kept.globals⟩
    · exact ⟨rfl, rfl⟩
  | run source =>
    simp only [step, proceed]
    split
    · rename_i p _
      have kept := keeps_program fuel p.statements p.distances m
      rw [finish_machine]
      exact ⟨kept.current, kept.globals⟩
    · exact ⟨rfl, rfl⟩
  | runAt source distances =>
    simp only [step, proceed]
    split
    · rename_i ss _
      have kept := keeps_program fuel ss distances m
      rw [finish_machine]
      exact ⟨kept.current, kept.globals⟩
    · exact ⟨rfl, rfl⟩

theorem machineAfter_frames (fuel : Nat) (m : Machine) (ss : List Step) :
    (machineAfter fuel m ss).current = m.current ∧
      (machineAfter fuel m ss).globals = m.globals := by
  induction ss generalizing m with
  | nil => exact ⟨rfl, rfl⟩
  | cons s ss ih =>
    obtain ⟨current, globals⟩ := step_frames fuel m s
    obtain ⟨current', globals'⟩ := ih (step fuel m s).2
    exact ⟨current'.trans current, globals'.trans globals⟩

end Session

/-- On every machine, every task and every body run in a frame of its own leaves the current frame,
the globals and the distances as they were, whether it ends with a value, with a failure or without
fuel. So in a session the global frame is current before each step, whatever the steps before it
did. -/
theorem current_frame_is_restored :
    (∀ n (t : Task) (m : Machine), m.SameSetting (machineOf (t.run n m))) ∧
    (∀ n frame body (m : Machine), m.SameSetting (machineOf (within frame (stmts n body) m))) ∧
    ∀ fuel host ss, (Session.machineAfter fuel (Machine.start host) ss).current =
      (Session.machineAfter fuel (Machine.start host) ss).globals := by
  refine ⟨fun n t m => (keeps_task n t m).toSameSetting, fun n frame body m => ?_, ?_⟩
  · exact (keeps_within frame (keeps_task n (.stmts body)) m).toSameSetting
  · intro fuel host ss
    obtain ⟨current, globals⟩ := Session.machineAfter_frames fuel (Machine.start host) ss
    rw [current, globals]
    rfl

end Lox
