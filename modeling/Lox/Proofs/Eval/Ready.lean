import Lox.Proofs.Eval.CurrentFrame
import Lox.Proofs.Eval.Sound
import Lox.Proofs.Scope.Located

/-!
# Every point of a run stands in its context

A task is ready in a context if what it performs is located there and the machine stands there
(`Task.Ready`). A task that is ready leaves a sound machine, and every point that it calls is ready
in a context of its own (`Point.Safe`, `safe_task`). So every point of the run of an accepted
program is ready (`Reached.ready`).
-/

namespace Lox

/-! ## Readiness -/

/-- Returning a value other than `nil` is for bodies of functions that are no initializers. -/
def Flow.Sound (D : Distances) (m : Machine) (body : BodyKind) : Flow → Prop
  | .normal => True
  | .returned v => v.Sound D m ∧ body ≠ .none ∧ (body = .initializer → v = .nil)

namespace Task

variable (D : Distances) (Γ : Context)

/-- What the task performs is located in the context, in which the machine stands, and the values
that it is given are sound. -/
def Ready : Task → Machine → Prop
  | expr e, m => Γ.Proper ∧ m.At Γ ∧ e.Located D Γ
  | exprs es, m => Γ.Proper ∧ m.At Γ ∧ Expr.LocatedList D Γ es
  | apply f _ vs, m => Γ.Settled ∧ f.Sound D m ∧ m.SoundAll D vs
  | call f vs, m => Γ.Settled ∧ f.Sound D m ∧ f.arity ≤ vs.length ∧ m.SoundAll D vs
  | make c vs, m => Γ.Settled ∧ c.Sound D m ∧ c.arity ≤ vs.length ∧ m.SoundAll D vs
  | stmt s, m => Γ.Settled ∧ m.At Γ ∧ s.Located D Γ
  | stmts ss, m => Γ.Settled ∧ m.At Γ ∧ Stmt.LocatedList D ss Γ
  | loop condition body, m =>
    Γ.Settled ∧ m.At Γ ∧ condition.Located D Γ ∧ body.Located D Γ

/-- The answer is sound, and after a statement the machine stands in the context after it. -/
def Gives : (t : Task) → t.Answer → Machine → Prop
  | expr _, v, m | apply .., v, m | call .., v, m | make .., v, m => v.Sound D m
  | exprs _, vs, m => m.SoundAll D vs
  | stmt s, flow, m => flow.Sound D m Γ.body ∧ m.At (s.after Γ)
  | stmts _, flow, m | loop .., flow, m => flow.Sound D m Γ.body

/-- Is the task the declaration of a variable of that name with an initializer? -/
def Initializes (name : String) : Task → Prop
  | stmt (.varDecl declared (some _)) => declared.text = name
  | _ => False

/-- How the context of a task that another one performs comes from the context of that one. A name
is pending only in expressions inside the initializer of its variable, and the body stays the same
from statement to statement. -/
structure Inherits (t : Task) (Γ' : Context) (t' : Task) : Prop where
  pending : ∀ name, Γ'.Pending name →
    t'.evaluates = true ∧ (t.evaluates = true ∧ Γ.Pending name ∨ t.Initializes name)
  body : t.runsStatements = true → t'.runsStatements = true → Γ'.body = Γ.body

variable {Γ}

theorem Inherits.evaluates {t t' : Task} (h : t.evaluates = true) (h' : t'.evaluates = true) :
    Inherits Γ t Γ t' :=
  ⟨fun _ pending => ⟨h', .inl ⟨h, pending⟩⟩, fun _ _ => rfl⟩

theorem Inherits.settled {Γ' : Context} {t t' : Task} (settled : Γ'.Settled)
    (body : t.runsStatements = true → t'.runsStatements = true → Γ'.body = Γ.body) :
    Inherits Γ t Γ' t' :=
  ⟨fun name pending => absurd pending (settled.not_pending name), body⟩

end Task

/-- The machine of the point is sound, and its task is ready. -/
structure Point.Ready (D : Distances) (Γ : Context) (x : Point) : Prop where
  sound : x.machine.Sound D
  ready : x.task.Ready D Γ x.machine

/-- The task of the point leaves a sound machine and a sound answer, and the points that it calls
are ready. -/
structure Point.Safe (D : Distances) (Γ : Context) (x : Point) : Prop where
  answer : Eval.Ensures D x.machine (x.task.run x.fuel) (x.task.Gives D Γ)
  calls : ∀ y, x.Calls y → ∃ Γ', y.Ready D Γ' ∧ Task.Inherits Γ x.task Γ' y.task

namespace Eval

open Point (Safe)
open Lox.Task (Inherits)

variable {D : Distances}

theorem ensures_ofExcept {m : Machine} (sound : m.Sound D) {mark : Lexeme}
    {r : Except RuntimeCause Value} (h : ∀ v, r = .ok v → v.Sound D m) :
    Ensures D m (ofExcept mark r) fun v m' => v.Sound D m' := by
  cases r with
  | ok v => exact ensures_pure sound (h v rfl)
  | error cause => exact ensures_fail

/-! ## Expressions -/

theorem ensures_write {m : Machine} (sound : m.Sound D) (text : String) :
    Ensures D m (write text) fun _ _ => True := by
  have printed : Ensures D m (fun m => .ok () { m with printed := m.printed.push text })
      fun _ _ => True := by
    rintro _ _ ⟨⟩
    exact ⟨sound.grows (.refl _) rfl rfl (fun _ _ _ => .inl) fun _ _ _ => .inl,
      ⟨.refl _, rfl, rfl⟩, trivial⟩
  intro _ m' e
  unfold write at e
  split at e
  · split at e
    · cases e
    · exact printed _ m' e
  · exact printed _ m' e

theorem ensures_newInstance (sound : m.Sound D) (c : Class) :
    Ensures D m (newInstance c) fun o m' => newInstance c m = .ok o m' ∧ o.ofClass = c := by
  rintro _ _ ⟨⟩
  refine ⟨sound.grows (.pushInstance _) rfl rfl (fun _ _ _ => .inl) fun o name v e => ?_,
    ⟨.pushInstance _, rfl, rfl⟩, rfl, rfl⟩
  dsimp only at e
  rw [Heap.field?_pushInstance] at e
  exact .inl e

section
variable {n : Nat} (ih : ∀ {t : Task} {Γ : Context} {m : Machine},
  Point.Ready D Γ ⟨n, t, m⟩ → Safe D Γ ⟨n, t, m⟩)
  {Γ : Context} {m : Machine}
include ih

theorem safe_assign {id : ExprId} {name : Lexeme} {value : Expr}
    (h : Point.Ready D Γ ⟨n + 1, .expr (.assign id name value), m⟩) :
    Safe D Γ ⟨n + 1, .expr (.assign id name value), m⟩ := by
  obtain ⟨sound, proper, stands, located, isName, -⟩ := h
  have inner : Point.Ready D Γ ⟨n, .expr value, m⟩ := ⟨sound, proper, stands, located⟩
  refine ⟨?_, fun y h => ?_⟩
  · refine ensures_bind (ih inner).answer fun v _ sound _ hv => ?_
    refine ensures_bind (ensures_assign sound id isName hv) fun _ _ sound grows _ => ?_
    exact ensures_pure sound (hv.mono grows.heap grows.globals)
  · cases h with
    | assign => exact ⟨Γ, inner, .evaluates rfl rfl⟩

theorem safe_binary {op : BinaryOp} {mark : Lexeme} {left right : Expr}
    (h : Point.Ready D Γ ⟨n + 1, .expr (.binary op mark left right), m⟩) :
    Safe D Γ ⟨n + 1, .expr (.binary op mark left right), m⟩ := by
  obtain ⟨sound, proper, stands, hl, hr⟩ := h
  have first : Point.Ready D Γ ⟨n, .expr left, m⟩ := ⟨sound, proper, stands, hl⟩
  have second {m₁} (sound : m₁.Sound D) (grows : m.Grows m₁) :
      Point.Ready D Γ ⟨n, .expr right, m₁⟩ := ⟨sound, proper, stands.grows grows, hr⟩
  refine ⟨?_, fun y h => ?_⟩
  · refine ensures_bind (ih first).answer fun a _ sound grows _ => ?_
    refine ensures_bind (ih (second sound grows)).answer fun b _ sound _ _ => ?_
    exact ensures_ofExcept sound fun v e => (BinaryOp.isPlain_of_apply e).sound
  · cases h with
    | binaryLeft => exact ⟨Γ, first, .evaluates rfl rfl⟩
    | binaryRight h =>
      obtain ⟨sound, grows, -⟩ := (ih first).answer _ _ h
      exact ⟨Γ, second sound grows, .evaluates rfl rfl⟩

theorem safe_callExpr {callee : Expr} {paren : Lexeme} {arguments : List Expr}
    (h : Point.Ready D Γ ⟨n + 1, .expr (.call callee paren arguments), m⟩) :
    Safe D Γ ⟨n + 1, .expr (.call callee paren arguments), m⟩ := by
  obtain ⟨sound, proper, stands, hc, ha⟩ := h
  have first : Point.Ready D Γ ⟨n, .expr callee, m⟩ := ⟨sound, proper, stands, hc⟩
  have second {m₁} (sound : m₁.Sound D) (grows : m.Grows m₁) :
      Point.Ready D Γ ⟨n, .exprs arguments, m₁⟩ := ⟨sound, proper, stands.grows grows, ha⟩
  have third {f vs m₁ m₂} (sound : m₂.Sound D) (grows : m₁.Grows m₂) (hf : f.Sound D m₁)
      (hvs : m₂.SoundAll D vs) : Point.Ready D .top ⟨n, .apply f paren vs, m₂⟩ :=
    ⟨sound, .top, hf.mono grows.heap grows.globals, hvs⟩
  refine ⟨?_, fun y h => ?_⟩
  · refine ensures_bind (ih first).answer fun f _ sound grows hf => ?_
    refine ensures_bind (ih (second sound grows)).answer fun vs _ sound grows hvs => ?_
    exact (ih (third sound grows hf hvs)).answer
  · cases h with
    | callee => exact ⟨Γ, first, .evaluates rfl rfl⟩
    | arguments h =>
      obtain ⟨sound, grows, -⟩ := (ih first).answer _ _ h
      exact ⟨Γ, second sound grows, .evaluates rfl rfl⟩
    | apply h h' =>
      obtain ⟨sound, grows, hf⟩ := (ih first).answer _ _ h
      obtain ⟨sound, grows, hvs⟩ := (ih (second sound grows)).answer _ _ h'
      exact ⟨_, third sound grows hf hvs, .settled .top nofun⟩

theorem safe_get {object : Expr} {name : Lexeme}
    (h : Point.Ready D Γ ⟨n + 1, .expr (.get object name), m⟩) :
    Safe D Γ ⟨n + 1, .expr (.get object name), m⟩ := by
  have inner : Point.Ready D Γ ⟨n, .expr object, m⟩ := ⟨h.sound, h.ready⟩
  refine ⟨?_, fun y h => ?_⟩
  · refine ensures_bind (ih inner).answer fun v _ sound _ hv => ?_
    split
    · exact ensures_property sound hv name
    · exact ensures_fail
  · cases h with
    | getObject => exact ⟨Γ, inner, .evaluates rfl rfl⟩

theorem safe_logical {op : LogicalOp} {mark : Lexeme} {left right : Expr}
    (h : Point.Ready D Γ ⟨n + 1, .expr (.logical op mark left right), m⟩) :
    Safe D Γ ⟨n + 1, .expr (.logical op mark left right), m⟩ := by
  obtain ⟨sound, proper, stands, hl, hr⟩ := h
  have first : Point.Ready D Γ ⟨n, .expr left, m⟩ := ⟨sound, proper, stands, hl⟩
  have second {m₁} (sound : m₁.Sound D) (grows : m.Grows m₁) :
      Point.Ready D Γ ⟨n, .expr right, m₁⟩ := ⟨sound, proper, stands.grows grows, hr⟩
  refine ⟨?_, fun y h => ?_⟩
  · refine ensures_bind (ih first).answer fun v _ sound grows hv => ?_
    split
    · exact ensures_pure sound hv
    · exact (ih (second sound grows)).answer
  · cases h with
    | logicalLeft => exact ⟨Γ, first, .evaluates rfl rfl⟩
    | logicalRight h =>
      obtain ⟨sound, grows, -⟩ := (ih first).answer _ _ h
      exact ⟨Γ, second sound grows, .evaluates rfl rfl⟩

theorem safe_set {object value : Expr} {name : Lexeme}
    (h : Point.Ready D Γ ⟨n + 1, .expr (.set object name value), m⟩) :
    Safe D Γ ⟨n + 1, .expr (.set object name value), m⟩ := by
  obtain ⟨sound, proper, stands, hv, ho⟩ := h
  have first : Point.Ready D Γ ⟨n, .expr value, m⟩ := ⟨sound, proper, stands, hv⟩
  have second {m₁} (sound : m₁.Sound D) (grows : m.Grows m₁) :
      Point.Ready D Γ ⟨n, .expr object, m₁⟩ := ⟨sound, proper, stands.grows grows, ho⟩
  refine ⟨?_, fun y h => ?_⟩
  · refine ensures_bind (ih first).answer fun v _ sound grows hv => ?_
    refine ensures_bind (ih (second sound grows)).answer fun o _ sound grows _ => ?_
    replace hv := hv.mono grows.heap grows.globals
    split
    · refine ensures_bind (ensures_setProperty sound _ name hv) fun _ _ sound grows _ => ?_
      exact ensures_pure sound (hv.mono grows.heap grows.globals)
    · exact ensures_fail
  · cases h with
    | setValue => exact ⟨Γ, first, .evaluates rfl rfl⟩
    | setObject h =>
      obtain ⟨sound, grows, -⟩ := (ih first).answer _ _ h
      exact ⟨Γ, second sound grows, .evaluates rfl rfl⟩

theorem safe_unary {op : UnaryOp} {mark : Lexeme} {right : Expr}
    (h : Point.Ready D Γ ⟨n + 1, .expr (.unary op mark right), m⟩) :
    Safe D Γ ⟨n + 1, .expr (.unary op mark right), m⟩ := by
  have inner : Point.Ready D Γ ⟨n, .expr right, m⟩ := ⟨h.sound, h.ready⟩
  refine ⟨?_, fun y h => ?_⟩
  · refine ensures_bind (ih inner).answer fun v _ sound _ _ => ?_
    exact ensures_ofExcept sound fun w e => (UnaryOp.isPlain_of_apply e).sound
  · cases h with
    | unary => exact ⟨Γ, inner, .evaluates rfl rfl⟩

theorem safe_expr {e : Expr} (h : Point.Ready D Γ ⟨n + 1, .expr e, m⟩) :
    Safe D Γ ⟨n + 1, .expr e, m⟩ := by
  cases e with
  | assign id name value => exact safe_assign ih h
  | binary op mark left right => exact safe_binary ih h
  | call callee paren arguments => exact safe_callExpr ih h
  | get object name => exact safe_get ih h
  | grouping inner =>
    have inside : Point.Ready D Γ ⟨n, .expr inner, m⟩ := ⟨h.sound, h.ready⟩
    refine ⟨(ih inside).answer, fun y h => ?_⟩
    cases h with
    | grouping => exact ⟨Γ, inside, .evaluates rfl rfl⟩
  | literal value =>
    refine ⟨ensures_pure h.sound ?_, fun y h => by cases h⟩
    cases value <;> trivial
  | logical op mark left right => exact safe_logical ih h
  | set object name value => exact safe_set ih h
  | super id keyword method =>
    exact ⟨ensures_superMethod h.sound id keyword method, fun y h => by cases h⟩
  | this id keyword => exact ⟨ensures_lookUp h.sound id keyword, fun y h => by cases h⟩
  | unary op mark right => exact safe_unary ih h
  | «variable» id name => exact ⟨ensures_lookUp h.sound id name, fun y h => by cases h⟩

theorem safe_exprs {es : List Expr} (h : Point.Ready D Γ ⟨n + 1, .exprs es, m⟩) :
    Safe D Γ ⟨n + 1, .exprs es, m⟩ := by
  obtain ⟨sound, proper, stands, located⟩ := h
  cases es with
  | nil => exact ⟨ensures_pure sound nofun, fun y h => by cases h⟩
  | cons e es =>
    have first : Point.Ready D Γ ⟨n, .expr e, m⟩ := ⟨sound, proper, stands, located.1⟩
    have rest {m₁} (sound : m₁.Sound D) (grows : m.Grows m₁) :
        Point.Ready D Γ ⟨n, .exprs es, m₁⟩ := ⟨sound, proper, stands.grows grows, located.2⟩
    refine ⟨?_, fun y h => ?_⟩
    · refine ensures_bind (ih first).answer fun v _ sound grows hv => ?_
      refine ensures_bind (ih (rest sound grows)).answer fun vs _ sound grows hvs => ?_
      refine ensures_pure sound fun w inside => ?_
      rcases List.mem_cons.mp inside with rfl | inside
      · exact hv.mono grows.heap grows.globals
      · exact hvs w inside
    · cases h with
      | firstOf => exact ⟨Γ, first, .evaluates rfl rfl⟩
      | restOf h =>
        obtain ⟨sound, grows, -⟩ := (ih first).answer _ _ h
        exact ⟨Γ, rest sound grows, .evaluates rfl rfl⟩

/-! ## Calls -/

theorem safe_apply {f : Value} {paren : Lexeme} {vs : List Value}
    (h : Point.Ready D Γ ⟨n + 1, .apply f paren vs, m⟩) :
    Safe D Γ ⟨n + 1, .apply f paren vs, m⟩ := by
  obtain ⟨sound, settled, hf, hvs⟩ := h
  have checked (expected : Nat) {x : Eval Value} {P : Value → Machine → Prop}
      (hx : expected ≤ vs.length → Ensures D m x P) :
      Ensures D m (checkArity paren expected vs.length >>= fun _ => x) P := by
    unfold checkArity
    split
    · exact ensures_bind ensures_fail fun _ _ _ _ (h : False) => h.elim
    · rename_i enough
      exact hx (Nat.le_of_not_lt enough)
  cases f with
  | function f =>
    have inner (enough : f.arity ≤ vs.length) : Point.Ready D Γ ⟨n, .call f vs, m⟩ :=
      ⟨sound, settled, hf, enough, hvs⟩
    refine ⟨checked f.arity fun enough => (ih (inner enough)).answer, fun y h => ?_⟩
    cases h with
    | function enough => exact ⟨Γ, inner enough, .settled settled fun _ _ => rfl⟩
  | «class» c =>
    have inner (enough : c.arity ≤ vs.length) : Point.Ready D Γ ⟨n, .make c vs, m⟩ :=
      ⟨sound, settled, hf, enough, hvs⟩
    refine ⟨checked c.arity fun enough => (ih (inner enough)).answer, fun y h => ?_⟩
    cases h with
    | «class» enough => exact ⟨Γ, inner enough, .settled settled fun _ _ => rfl⟩
  | native f =>
    cases f with
    | clock =>
      refine ⟨?_, fun y h => by cases h⟩
      rintro _ _ ⟨⟩
      exact ⟨sound.grows (.refl _) rfl rfl (fun _ _ _ => .inl) fun _ _ _ => .inl,
        ⟨.refl _, rfl, rfl⟩, trivial⟩
  | _ => exact ⟨ensures_fail, fun y h => by cases h⟩

omit ih in
/-- The body of a call is ready in a context of its own. If the function is an initializer, so is
its body, and `this` is bound before the call. -/
theorem ready_body {f : Function} {vs : List Value}
    (h : Point.Ready D Γ ⟨n + 1, .call f vs, m⟩) :
    ∃ Δ, Point.Ready D Δ ⟨n, .stmts f.decl.body, m.activate f vs⟩ ∧
      m.heap.Grows (m.activate f vs).heap ∧
      (f.isInitializer = true → Δ.body = .initializer ∧
        ∃ o, m.heap.lookup? f.closure "this" = some (.instance o)) := by
  obtain ⟨sound, settled, ⟨Δ, kind, hΔ, mirrors, located, initializer⟩, enough, hvs⟩ := h
  obtain ⟨sound', grows⟩ := sound_activate sound (f := f) hvs
  rw [FunctionDecl.located_iff] at located
  refine ⟨Δ.enterBody kind f.decl.params, ⟨sound', hΔ.enterBody kind located.1,
    ⟨mirrors.enterBody sound.globals kind enough⟩, located.2.1⟩, grows, fun isInitializer => ?_⟩
  obtain ⟨e, this⟩ := initializer isInitializer
  exact ⟨(Δ.body_enterBody kind _).trans e, this⟩

theorem safe_call {f : Function} {vs : List Value}
    (h : Point.Ready D Γ ⟨n + 1, .call f vs, m⟩) : Safe D Γ ⟨n + 1, .call f vs, m⟩ := by
  obtain ⟨Δ, body, grows, -⟩ := ready_body h
  refine ⟨fun v m' e => ?_, fun y h => ?_⟩
  · obtain ⟨flow, m₁, ran, e⟩ := call_eq_ok.mp e
    obtain ⟨sound₁, grows₁, hflow⟩ := (ih body).answer _ _ ran
    have back : m.Grows { m₁ with current := m.current } :=
      ⟨grows.trans grows₁.heap, rfl, grows₁.globals⟩
    unfold result at e
    split at e
    · cases e
      exact ⟨sound₁.atFrame _, back, (sound₁.atFrame _).getAt _ _ _⟩
    · cases flow with
      | normal =>
        cases e
        exact ⟨sound₁.atFrame _, back, trivial⟩
      | returned w =>
        cases e
        exact ⟨sound₁.atFrame _, back, hflow.1.mono (.refl _) rfl⟩
  · cases h with
    | body => exact ⟨_, body, .settled body.ready.1 nofun⟩

theorem safe_make {c : Class} {vs : List Value}
    (h : Point.Ready D Γ ⟨n + 1, .make c vs, m⟩) : Safe D Γ ⟨n + 1, .make c vs, m⟩ := by
  obtain ⟨sound, settled, hc, enough, hvs⟩ := h
  have inner {f o m₁} (e : c.initializer? = some f) (made : newInstance c m = .ok o m₁) :
      Ensures D m₁ (bind f o) (fun f' m₂ => Point.Ready D Γ ⟨n, .call f' vs, m₂⟩) := by
    obtain ⟨sound, grows, -, e'⟩ := ensures_newInstance sound c _ _ made
    replace hc := hc.mono grows.heap grows.globals
    intro f' m₂ bound
    obtain ⟨sound, grows', hf⟩ := ensures_bindMethod sound (hc _ f e) (e' ▸ hc) _ _ bound
    have arity : c.arity = f'.arity := by
      rw [bind_apply] at bound
      cases bound
      rw [Class.arity, e]
      rfl
    exact ⟨sound, grows', sound, settled, hf, arity ▸ enough,
      hvs.mono (grows.trans grows').heap (grows.trans grows').globals⟩
  refine ⟨?_, fun y h => ?_⟩
  · refine ensures_bind (ensures_newInstance sound c) fun o m₁ sound grows ⟨made, e⟩ => ?_
    replace hc : o.ofClass.Sound D m₁ := e ▸ hc.mono grows.heap grows.globals
    split
    · rename_i f initializer
      refine ensures_bind (inner initializer made) fun f' _ _ grows ready => ?_
      replace hc := hc.mono grows.heap grows.globals
      refine ensures_bind (ih ready).answer fun _ _ sound grows _ => ?_
      exact ensures_pure sound (hc.mono grows.heap grows.globals)
    · exact ensures_pure sound hc
  · cases h with
    | initializer e made =>
      exact ⟨Γ, (inner e made _ _ (bind_apply _ _ _)).2.2, .settled settled fun _ _ => rfl⟩

/-! ## Statements -/

theorem safe_block {body : List Stmt} (h : Point.Ready D Γ ⟨n + 1, .stmt (.block body), m⟩) :
    Safe D Γ ⟨n + 1, .stmt (.block body), m⟩ := by
  obtain ⟨sound, settled, stands, located⟩ := h
  have grows : m.heap.Grows (m.enter m.current).heap := .push _ _
  have entered : (m.enter m.current).Sound D := by
    refine sound.grows grows rfl rfl (fun f name v e => .inl ?_) fun _ _ _ => .inl
    rwa [Machine.enter, Heap.lookup?_push] at e
  have inside : Point.Ready D Γ.enter ⟨n, .stmts body, m.enter m.current⟩ :=
    ⟨entered, settled.enter, ⟨stands.mirrors.push sound.globals⟩, located.1⟩
  refine ⟨fun flow m' e => ?_, fun y h => ?_⟩
  · obtain ⟨m₁, ran, rfl⟩ := within_eq_ok.mp e
    obtain ⟨sound₁, grows₁, hflow⟩ := (ih inside).answer _ _ ran
    have back : m.Grows { m₁ with current := m.current } :=
      ⟨grows.trans grows₁.heap, rfl, grows₁.globals⟩
    refine ⟨sound₁.atFrame _, back, ?_, stands.grows back⟩
    cases flow with
    | normal => trivial
    | returned v => exact ⟨hflow.1.mono (.refl _) rfl, hflow.2⟩
  · cases h with
    | block => exact ⟨_, inside, .settled settled.enter fun _ _ => rfl⟩

omit ih in
/-- A statement that declares nothing leaves the machine where it stands. -/
theorem ensures_stays (stands : m.At Γ) {x : Eval Flow}
    (h : Ensures D m x fun flow m' => flow.Sound D m' Γ.body) :
    Ensures D m x fun flow m' => flow.Sound D m' Γ.body ∧ m'.At Γ := by
  intro flow m' e
  obtain ⟨sound, grows, hflow⟩ := h flow m' e
  exact ⟨sound, grows, hflow, stands.grows grows⟩

/-- What a statement inside another one gives to it. -/
theorem ensures_branch {s : Stmt} (h : Point.Ready D Γ ⟨n, .stmt s, m⟩) :
    Ensures D m (stmt n s) fun flow m' => flow.Sound D m' Γ.body := by
  intro flow m' e
  obtain ⟨sound, grows, hflow, -⟩ := (ih h).answer flow m' e
  exact ⟨sound, grows, hflow⟩

theorem safe_ifThen {condition : Expr} {thenBranch : Stmt}
    (h : Point.Ready D Γ ⟨n + 1, .stmt (.ifThen condition thenBranch), m⟩) :
    Safe D Γ ⟨n + 1, .stmt (.ifThen condition thenBranch), m⟩ := by
  obtain ⟨sound, settled, stands, hc, ht⟩ := h
  have first : Point.Ready D Γ ⟨n, .expr condition, m⟩ := ⟨sound, settled.proper, stands, hc⟩
  have second {m₁} (sound : m₁.Sound D) (grows : m.Grows m₁) :
      Point.Ready D Γ ⟨n, .stmt thenBranch, m₁⟩ := ⟨sound, settled, stands.grows grows, ht⟩
  refine ⟨ensures_stays stands ?_, fun y h => ?_⟩
  · refine ensures_bind (ih first).answer fun v _ sound grows _ => ?_
    split
    · exact ensures_branch ih (second sound grows)
    · exact ensures_pure sound trivial
  · cases h with
    | ifThenCondition => exact ⟨Γ, first, .settled settled fun _ => nofun⟩
    | ifThen h _ =>
      obtain ⟨sound, grows, -⟩ := (ih first).answer _ _ h
      exact ⟨Γ, second sound grows, .settled settled fun _ _ => rfl⟩

theorem safe_ifElse {condition : Expr} {thenBranch elseBranch : Stmt}
    (h : Point.Ready D Γ ⟨n + 1, .stmt (.ifElse condition thenBranch elseBranch), m⟩) :
    Safe D Γ ⟨n + 1, .stmt (.ifElse condition thenBranch elseBranch), m⟩ := by
  obtain ⟨sound, settled, stands, hc, ht, he⟩ := h
  have first : Point.Ready D Γ ⟨n, .expr condition, m⟩ := ⟨sound, settled.proper, stands, hc⟩
  have branch {s m₁} (located : s.Located D Γ) (sound : m₁.Sound D) (grows : m.Grows m₁) :
      Point.Ready D Γ ⟨n, .stmt s, m₁⟩ := ⟨sound, settled, stands.grows grows, located⟩
  refine ⟨ensures_stays stands ?_, fun y h => ?_⟩
  · refine ensures_bind (ih first).answer fun v _ sound grows _ => ?_
    split
    · exact ensures_branch ih (branch ht sound grows)
    · exact ensures_branch ih (branch he sound grows)
  · cases h with
    | ifElseCondition => exact ⟨Γ, first, .settled settled fun _ => nofun⟩
    | ifElseThen h _ =>
      obtain ⟨sound, grows, -⟩ := (ih first).answer _ _ h
      exact ⟨Γ, branch ht sound grows, .settled settled fun _ _ => rfl⟩
    | ifElse h _ =>
      obtain ⟨sound, grows, -⟩ := (ih first).answer _ _ h
      exact ⟨Γ, branch he sound grows, .settled settled fun _ _ => rfl⟩

theorem safe_print {e : Expr} (h : Point.Ready D Γ ⟨n + 1, .stmt (.print e), m⟩) :
    Safe D Γ ⟨n + 1, .stmt (.print e), m⟩ := by
  obtain ⟨sound, settled, stands, located⟩ := h
  have inner : Point.Ready D Γ ⟨n, .expr e, m⟩ := ⟨sound, settled.proper, stands, located⟩
  refine ⟨ensures_stays stands ?_, fun y h => ?_⟩
  · refine ensures_bind (ih inner).answer fun v _ sound _ _ => ?_
    refine ensures_bind (ensures_write sound v.text) fun _ _ sound _ _ => ?_
    exact ensures_pure sound trivial
  · cases h with
    | print => exact ⟨Γ, inner, .settled settled fun _ => nofun⟩

theorem safe_returning {keyword : Lexeme} {value : Option Expr}
    (h : Point.Ready D Γ ⟨n + 1, .stmt (.returning keyword value), m⟩) :
    Safe D Γ ⟨n + 1, .stmt (.returning keyword value), m⟩ := by
  obtain ⟨sound, settled, stands, located⟩ := h
  cases value with
  | none =>
    refine ⟨ensures_stays stands ?_, fun y h => by cases h⟩
    exact ensures_pure sound ⟨trivial, located, fun _ => rfl⟩
  | some value =>
    obtain ⟨inside, noInitializer, located⟩ := located
    have inner : Point.Ready D Γ ⟨n, .expr value, m⟩ := ⟨sound, settled.proper, stands, located⟩
    refine ⟨ensures_stays stands ?_, fun y h => ?_⟩
    · refine ensures_bind (ih inner).answer fun v _ sound _ hv => ?_
      exact ensures_pure sound ⟨hv, inside, fun e => absurd e noInitializer⟩
    · cases h with
      | returning => exact ⟨Γ, inner, .settled settled fun _ => nofun⟩

theorem safe_varDecl {name : Lexeme} {initializer : Option Expr}
    (h : Point.Ready D Γ ⟨n + 1, .stmt (.varDecl name initializer), m⟩) :
    Safe D Γ ⟨n + 1, .stmt (.varDecl name initializer), m⟩ := by
  obtain ⟨sound, settled, stands, located⟩ := h
  cases initializer with
  | none =>
    refine ⟨?_, fun y h => by cases h⟩
    refine ensures_bind (ensures_define sound stands located trivial) fun _ _ sound _ stands => ?_
    exact ensures_pure sound ⟨trivial, stands⟩
  | some initializer =>
    obtain ⟨isName, located⟩ := located
    have inner : Point.Ready D (Γ.declare name.text) ⟨n, .expr initializer, m⟩ :=
      ⟨sound, settled.declare isName, ⟨stands.mirrors.declare⟩, located⟩
    refine ⟨?_, fun y h => ?_⟩
    · refine ensures_bind (ih inner).answer fun v _ sound grows hv => ?_
      refine ensures_bind (ensures_define sound (stands.grows grows) isName hv)
        fun _ _ sound _ stands => ?_
      exact ensures_pure sound ⟨trivial, stands⟩
    · cases h with
      | varDecl =>
        refine ⟨_, inner, fun other pending => ⟨rfl, .inr ?_⟩, fun _ => nofun⟩
        exact (settled.pending_declare pending).symm

theorem safe_stmt {s : Stmt} (h : Point.Ready D Γ ⟨n + 1, .stmt s, m⟩) :
    Safe D Γ ⟨n + 1, .stmt s, m⟩ := by
  cases s with
  | block body => exact safe_block ih h
  | classDecl name superclass methods =>
    obtain ⟨sound, settled, stands, located⟩ := h
    refine ⟨?_, fun y h => by cases h⟩
    refine ensures_bind (ensures_declareClass sound settled stands located)
      fun _ _ sound _ stands => ?_
    exact ensures_pure sound ⟨trivial, stands⟩
  | expression e =>
    obtain ⟨sound, settled, stands, located⟩ := h
    have inner : Point.Ready D Γ ⟨n, .expr e, m⟩ := ⟨sound, settled.proper, stands, located⟩
    refine ⟨ensures_stays stands ?_, fun y h => ?_⟩
    · exact ensures_bind (ih inner).answer fun _ _ sound _ _ => ensures_pure sound trivial
    · cases h with
      | expression => exact ⟨Γ, inner, .settled settled fun _ => nofun⟩
  | function decl =>
    obtain ⟨sound, settled, stands, located⟩ := h
    refine ⟨?_, fun y h => by cases h⟩
    refine ensures_bind (ensures_declareFunction sound settled stands located.1 located.2)
      fun _ _ sound _ stands => ?_
    exact ensures_pure sound ⟨trivial, stands⟩
  | ifThen condition thenBranch => exact safe_ifThen ih h
  | ifElse condition thenBranch elseBranch => exact safe_ifElse ih h
  | print e => exact safe_print ih h
  | returning keyword value => exact safe_returning ih h
  | varDecl name initializer => exact safe_varDecl ih h
  | «while» condition body =>
    have inner : Point.Ready D Γ ⟨n, .loop condition body, m⟩ := ⟨h.sound, h.ready⟩
    refine ⟨ensures_stays h.ready.2.1 (ih inner).answer, fun y h => ?_⟩
    cases h with
    | «while» => exact ⟨Γ, inner, .settled inner.ready.1 fun _ _ => rfl⟩

theorem safe_stmts {ss : List Stmt} (h : Point.Ready D Γ ⟨n + 1, .stmts ss, m⟩) :
    Safe D Γ ⟨n + 1, .stmts ss, m⟩ := by
  obtain ⟨sound, settled, stands, located⟩ := h
  cases ss with
  | nil => exact ⟨ensures_pure sound trivial, fun y h => by cases h⟩
  | cons s ss =>
    have first : Point.Ready D Γ ⟨n, .stmt s, m⟩ := ⟨sound, settled, stands, located.1⟩
    have rest {m₁} (sound : m₁.Sound D) (stands : m₁.At (s.after Γ)) :
        Point.Ready D (s.after Γ) ⟨n, .stmts ss, m₁⟩ :=
      ⟨sound, settled.after located.1, stands, located.2⟩
    refine ⟨?_, fun y h => ?_⟩
    · refine ensures_bind (ih first).answer fun flow _ sound _ hflow => ?_
      cases flow with
      | normal =>
        intro flow m' e
        have ran := (ih (rest sound hflow.2)).answer flow m' e
        rwa [Task.Gives, s.body_after] at ran
      | returned v => exact ensures_pure sound hflow.1
    · cases h with
      | firstStmt => exact ⟨Γ, first, .settled settled fun _ _ => rfl⟩
      | restStmts h =>
        obtain ⟨sound, -, hflow⟩ := (ih first).answer _ _ h
        exact ⟨_, rest sound hflow.2,
          .settled (settled.after located.1) fun _ _ => s.body_after Γ⟩

theorem safe_loop {condition : Expr} {body : Stmt}
    (h : Point.Ready D Γ ⟨n + 1, .loop condition body, m⟩) :
    Safe D Γ ⟨n + 1, .loop condition body, m⟩ := by
  obtain ⟨sound, settled, stands, hc, hb⟩ := h
  have first : Point.Ready D Γ ⟨n, .expr condition, m⟩ := ⟨sound, settled.proper, stands, hc⟩
  have second {m₁} (sound : m₁.Sound D) (grows : m.Grows m₁) :
      Point.Ready D Γ ⟨n, .stmt body, m₁⟩ := ⟨sound, settled, stands.grows grows, hb⟩
  have again {m₁} (sound : m₁.Sound D) (grows : m.Grows m₁) :
      Point.Ready D Γ ⟨n, .loop condition body, m₁⟩ :=
    ⟨sound, settled, stands.grows grows, hc, hb⟩
  refine ⟨?_, fun y h => ?_⟩
  · refine ensures_bind (ih first).answer fun v _ sound grows _ => ?_
    split
    · refine ensures_bind (ih (second sound grows)).answer fun flow _ sound grows' hflow => ?_
      cases flow with
      | normal => exact (ih (again sound (grows.trans grows'))).answer
      | returned v => exact ensures_pure sound hflow.1
    · exact ensures_pure sound trivial
  · cases h with
    | loopCondition => exact ⟨Γ, first, .settled settled fun _ => nofun⟩
    | loopBody h _ =>
      obtain ⟨sound, grows, -⟩ := (ih first).answer _ _ h
      exact ⟨Γ, second sound grows, .settled settled fun _ _ => rfl⟩
    | loopAgain h _ h' =>
      obtain ⟨sound, grows, -⟩ := (ih first).answer _ _ h
      obtain ⟨sound, grows', -⟩ := (ih (second sound grows)).answer _ _ h'
      exact ⟨Γ, again sound (grows.trans grows'), .settled settled fun _ _ => rfl⟩

end

/-- Whatever is ready leaves a sound machine, and calls what is ready. -/
theorem safe_task {n : Nat} {t : Task} {Γ : Context} {m : Machine}
    (h : Point.Ready D Γ ⟨n, t, m⟩) : Safe D Γ ⟨n, t, m⟩ := by
  induction n generalizing t Γ m with
  | zero => exact ⟨by cases t <;> exact fun _ _ e => (throw_eq_ok.mp e).elim, fun y h => by cases h⟩
  | succ n ih =>
    cases t with
    | expr e => exact safe_expr ih h
    | exprs es => exact safe_exprs ih h
    | apply f paren vs => exact safe_apply ih h
    | call f vs => exact safe_call ih h
    | make c vs => exact safe_make ih h
    | stmt s => exact safe_stmt ih h
    | stmts ss => exact safe_stmts ih h
    | loop condition body => exact safe_loop ih h

end Eval

/-! ## The points of a run -/

/-- The expressions of a body are evaluated in the frame that is current there. -/
theorem Point.Calls.current_eq {x y : Point} (h : x.Calls y) (evaluates : y.task.evaluates = true) :
    y.machine.current = x.machine.current := by
  have kept {n : Nat} {t : Task} {m m' : Machine} {a : t.Answer} (e : t.run n m = .ok a m') :
      m'.current = m.current := ((Eval.keeps_task n t).ok e).current
  cases h with
  | binaryRight h => exact kept (t := .expr _) h
  | arguments h => exact kept (t := .expr _) h
  | logicalRight h => exact kept (t := .expr _) h
  | setObject h => exact kept (t := .expr _) h
  | restOf h => exact kept (t := .expr _) h
  | _ => first | rfl | cases evaluates

/-- The first point evaluates an expression, the second, as a step of its own rule. -/
def Point.Evaluates (x y : Point) : Prop :=
  x.Calls y ∧ y.task.evaluates = true

/-- `x` is evaluated inside the initializer of a variable of that name, whose declaration will bind
it in the frame that is current at `x`. -/
def Initializing (p : Checked) (host : Host) (fuel : Nat) (name : String) (x : Point) : Prop :=
  ∃ y declared initializer, Reached p host fuel y ∧
    y.task = .stmt (.varDecl declared (some initializer)) ∧ declared.text = name ∧
    y.machine.current = x.machine.current ∧ Relation.TransGen Point.Evaluates y x

theorem Initializing.of_declaration {p : Checked} {host : Host} {fuel : Nat} {name : String}
    {x y : Point} (reached : Reached p host fuel x) (declaration : x.task.Initializes name)
    (calls : x.Calls y) (evaluates : y.task.evaluates = true) :
    Initializing p host fuel name y := by
  unfold Task.Initializes at declaration
  split at declaration
  · rename_i task
    exact ⟨_, _, _, reached, task, declaration, (calls.current_eq evaluates).symm,
      .single ⟨calls, evaluates⟩⟩
  · exact declaration.elim

theorem Initializing.step {p : Checked} {host : Host} {fuel : Nat} {name : String} {x y : Point}
    (h : Initializing p host fuel name x) (calls : x.Calls y)
    (evaluates : y.task.evaluates = true) : Initializing p host fuel name y := by
  obtain ⟨z, declared, initializer, reached, task, e, same, path⟩ := h
  exact ⟨z, declared, initializer, reached, task, e,
    same.trans (calls.current_eq evaluates).symm, path.tail ⟨calls, evaluates⟩⟩

theorem Reached.calls {p : Checked} {host : Host} {fuel : Nat} {x y : Point}
    (h : Reached p host fuel x) (calls : x.Calls y) : Reached p host fuel y := by
  obtain ⟨s, m, starts, path⟩ := h
  exact ⟨s, m, starts, path.tail calls⟩

/-- A new machine is sound, and stands outside all scopes. -/
theorem Checked.ready_start (p : Checked) (host : Host) :
    (p.start host).Sound p.distances ∧ (p.start host).At Context.top := by
  refine ⟨⟨rfl, Nat.zero_lt_one, fun f name v e => ?_, fun o name v e => ?_⟩, ⟨.nil⟩⟩
  · rcases Heap.lookup?_define_cases e with before | rfl
    · rw [Heap.lookup?_push] at before
      obtain ⟨frame, there, -⟩ := Option.bind_eq_some_iff.mp before
      cases there
    · trivial
  · obtain ⟨fields, there, -⟩ := Option.bind_eq_some_iff.mp e
    cases there

theorem Stmt.after_top (s : Stmt) : s.after Context.top = Context.top := by
  cases s <;> rfl

/-- Where a statement of a program starts, it is ready outside all scopes. -/
theorem Starts.ready {D : Distances} {fuel : Nat} {ss : List Stmt} {m m' : Machine} {s : Stmt}
    (h : Starts fuel ss m s m') (sound : m.Sound D) (stands : m.At Context.top)
    (located : Stmt.LocatedList D ss Context.top) :
    Point.Ready D Context.top ⟨fuel, .stmt s, m'⟩ := by
  induction h with
  | first => exact ⟨sound, .top, stands, located.1⟩
  | @later s ss m flow m₁ _ _ h _ ih =>
    have ready : Point.Ready D Context.top ⟨fuel, .stmt s, m⟩ := ⟨sound, .top, stands, located.1⟩
    obtain ⟨sound, -, -, stands⟩ := (Eval.safe_task ready).answer _ _ h
    have rest := located.2
    rw [s.after_top] at stands rest
    exact ih sound stands rest

/-- Every point of the run of an accepted source is ready in some context. A name is pending there
only inside the initializer of its variable. -/
theorem Reached.ready {source : String} {p : Checked} (accepted : Source.check source = .ok p)
    {host : Host} {fuel : Nat} {x : Point} (h : Reached p host fuel x) :
    ∃ Γ, x.Ready p.distances Γ ∧ ∀ name, Γ.Pending name → Initializing p host fuel name x := by
  obtain ⟨s, m, starts, path⟩ := h
  induction path with
  | refl =>
    obtain ⟨sound, stands⟩ := p.ready_start host
    have ready := starts.ready sound stands (Source.located_of_check accepted)
    exact ⟨_, ready, fun name pending => absurd pending (Context.Settled.top.not_pending name)⟩
  | @tail x y path calls ih =>
    obtain ⟨Γ, ready, pending⟩ := ih
    obtain ⟨Γ', ready', inherits⟩ := (Eval.safe_task ready).calls y calls
    refine ⟨Γ', ready', fun name isPending => ?_⟩
    obtain ⟨evaluates, ⟨-, before⟩ | declaration⟩ := inherits.pending name isPending
    · exact (pending name before).step calls evaluates
    · exact .of_declaration ⟨s, m, starts, path⟩ declaration calls evaluates

end Lox
