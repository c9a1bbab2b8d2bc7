import Lox.Proofs.Heap.Chains
import Lox.Proofs.Heap.Pointwise
import Lox.Proofs.Eval.Failures

/-!
# What a run makes and binds

A heap is changed by points if each frame that is new was made at one of them, and each name that is
bound anew was bound at one (`Heap.ChangedBy`). Whatever a task does to the heap is done by the
points that it comes to (`changes_task`), and each of them does little by its own rule: it makes a
frame for a block, a call, a superclass or a receiver (`Point.Opens`), and it binds a name where the
name is declared, in a frame that it makes, or where the name is assigned at a distance and is not
bound there yet (`Point.Adds`).
-/

namespace Lox

/-- At the point the name may be bound in the frame, which may not have bound it before: it is
declared there, the frame is made for it, or it is assigned at a distance, but not yet bound. -/
inductive Point.Adds : Point → FrameId → String → Prop
  | declaration {x name} (declares : x.Declares name) : Adds x x.machine.current name
  | opening {x frame purpose name} (opens : x.Opens frame purpose)
    (inside : name ∈ purpose.names) : Adds x frame name
  | assignment {n id name value m₀ v m distance} (evaluated : Eval.expr n value m₀ = .ok v m)
    (known : m.distances[id]? = some distance)
    (free : m.heap.lookup? (m.heap.ancestor m.current distance) name.text = none) :
    Adds ⟨n + 1, .expr (.assign id name value), m₀⟩ (m.heap.ancestor m.current distance) name.text

namespace Heap

/-- `h'` has the frames of `h`, and others that were made at points in `Z`; a name that it binds was
bound in `h`, or was added at a point in `Z`. -/
structure ChangedBy (Z : Point → Prop) (h h' : Heap) : Prop where
  size : h.frames.size ≤ h'.frames.size
  frame : ∀ f, h.frames.size ≤ f → f < h'.frames.size → ∃ x purpose, Z x ∧ x.Opens f purpose
  binding : ∀ f name, (h'.lookup? f name).isSome →
    (h.lookup? f name).isSome ∨ ∃ x, Z x ∧ x.Adds f name

namespace ChangedBy

variable {Z Y : Point → Prop} {h h' h'' : Heap} {f : FrameId} {name : String} {v : Value}

/-- Only frames and their names matter. -/
theorem of_frames (same : h'.frames = h.frames) : h.ChangedBy Z h' where
  size := Nat.le_of_eq (congrArg Array.size same).symm
  frame f old new := absurd new (Nat.not_lt.mpr (same ▸ old))
  binding f name bound := by
    rw [lookup?, same] at bound
    exact .inl bound

theorem refl (h : Heap) : h.ChangedBy Z h :=
  of_frames rfl

theorem trans (a : h.ChangedBy Z h') (b : h'.ChangedBy Z h'') : h.ChangedBy Z h'' where
  size := Nat.le_trans a.size b.size
  frame f old new := by
    by_cases inside : f < h'.frames.size
    · exact a.frame f old inside
    · exact b.frame f (Nat.le_of_not_lt inside) new
  binding f name bound := (b.binding f name bound).elim (a.binding f name) .inr

theorem mono (a : h.ChangedBy Z h') (points : ∀ x, Z x → Y x) : h.ChangedBy Y h' where
  size := a.size
  frame f old new := by
    obtain ⟨x, purpose, inside, opens⟩ := a.frame f old new
    exact ⟨x, purpose, points x inside, opens⟩
  binding f name bound :=
    (a.binding f name bound).imp_right fun ⟨x, inside, adds⟩ => ⟨x, points x inside, adds⟩

theorem binds (b : h.Binds f name v h')
    (added : (h.lookup? f name).isSome ∨ ∃ x, Z x ∧ x.Adds f name) : h.ChangedBy Z h' where
  size := Nat.le_of_eq b.size.symm
  frame g old new := absurd new (b.size ▸ Nat.not_lt.mpr old)
  binding g other bound := by
    rw [b.lookup] at bound
    split at bound
    · rename_i here
      obtain ⟨rfl, -, rfl⟩ := here
      exact added
    · exact .inl bound

theorem push {x : Point} {purpose : Purpose} (inside : Z x)
    (opens : x.Opens h.frames.size purpose) (outer : Option FrameId) :
    h.ChangedBy Z (h.push outer) where
  size := by
    rw [size_push]
    exact Nat.le_succ _
  frame f old new := by
    rw [size_push] at new
    obtain rfl := Nat.le_antisymm (Nat.le_of_lt_succ new) old
    exact ⟨x, purpose, inside, opens⟩
  binding f name bound := .inl (by rwa [lookup?_push] at bound)

theorem defineAll {x : Point} {purpose : Purpose} (inside : Z x) (opens : x.Opens f purpose)
    {params : List Lexeme} (named : ∀ param ∈ params, param.text ∈ purpose.names) (vs : List Value)
    (h : Heap) : h.ChangedBy Z (h.defineAll f params vs) := by
  induction params generalizing h vs with
  | nil => exact .refl h
  | cons param params ih =>
    obtain ⟨first, rest⟩ := List.forall_mem_cons.mp named
    cases vs with
    | nil => exact .refl h
    | cons v vs =>
      have bound := binds_define h f param.text v
      exact (binds bound (.inr ⟨x, inside, .opening opens first⟩)).trans (ih rest vs _)

end ChangedBy

/-- The nearest frame that binds a name binds it. -/
theorem bound_of_holder? {h : Heap} {f g : FrameId} {name : String}
    (e : h.holder? f name = some g) : (h.lookup? g name).isSome := by
  induction f using Nat.strongRecOn with
  | ind f ih =>
    rw [holder?_eq] at e
    split at e
    · rename_i bound
      cases e
      exact bound
    · obtain ⟨outer, -, e⟩ := Option.bind_eq_some_iff.mp e
      split at e
      · exact ih outer ‹_› e
      · cases e

end Heap

namespace Eval

variable {α β : Type} {Z Y : Point → Prop} {m m' : Machine}

/-- However the computation ends, points in `Z` have changed the heap. -/
def Changes (Z : Point → Prop) (y : Eval α) (m : Machine) : Prop :=
  m.heap.ChangedBy Z (machineOf (y m)).heap

theorem Changes.mono {y : Eval α} (h : Changes Z y m) (points : ∀ x, Z x → Y x) : Changes Y y m :=
  Heap.ChangedBy.mono h points

theorem changes_of_frames {y : Eval α} (e : (machineOf (y m)).heap.frames = m.heap.frames) :
    Changes Z y m :=
  .of_frames e

theorem changes_bind {y : Eval α} {f : α → Eval β} (hy : Changes Z y m)
    (hf : ∀ a m₁, y m = .ok a m₁ → Changes Z (f a) m₁) : Changes Z (y >>= f) m := by
  unfold Changes at *
  cases e : y m with
  | error s m₁ =>
    rw [bind_of_error e]
    rwa [e] at hy
  | ok a m₁ =>
    rw [bind_of_ok e]
    rw [e] at hy
    exact hy.trans (hf a m₁ e)

theorem changes_within {frame : FrameId} {body : Eval α}
    (h : Changes Z body { m with current := frame }) : Changes Z (within frame body) m := by
  have same : (machineOf (within frame body m)).heap =
      (machineOf (body { m with current := frame })).heap := by
    unfold within
    cases body { m with current := frame } <;> rfl
  unfold Changes
  rw [same]
  exact h

theorem changes_lookUp (id : ExprId) (name : Lexeme) : Changes Z (lookUp id name) m := by
  refine changes_of_frames ?_
  unfold lookUp
  split
  · rfl
  · split <;> rfl

theorem changes_result (f : Function) (flow : Flow) : Changes Z (result f flow) m := by
  refine changes_of_frames ?_
  unfold result
  split
  · rfl
  · cases flow <;> rfl

theorem changes_write (text : String) : Changes Z (write text) m := by
  refine changes_of_frames ?_
  unfold write
  split
  · split <;> rfl
  · rfl

theorem changes_assignFrom (frame : FrameId) (name : Lexeme) (v : Value) :
    Changes Z (assignFrom frame name v) m := by
  cases found : m.heap.holder? frame name.text with
  | some holder =>
    unfold Changes
    rw [assignFrom_of_some found]
    exact .binds (Heap.binds_define m.heap holder name.text v) (.inl (Heap.bound_of_holder? found))
  | none =>
    refine changes_of_frames ?_
    rw [assignFrom_of_none found]
    rfl

theorem changes_assign {x : Point} {n : Nat} {id : ExprId} {name : Lexeme} {value : Expr}
    {m₀ : Machine} {v : Value} (inside : Z x)
    (here : x = ⟨n + 1, .expr (.assign id name value), m₀⟩)
    (evaluated : expr n value m₀ = .ok v m) : Changes Z (assign id name v) m := by
  subst here
  cases known : m.distances[id]? with
  | some distance =>
    have ran : assign id name v m =
        .ok () { m with heap := m.heap.assignAt m.current distance name.text v } := by
      simp only [assign, known]
    unfold Changes
    rw [ran]
    refine .binds (Heap.binds_define m.heap (m.heap.ancestor m.current distance) name.text v) ?_
    cases free : m.heap.lookup? (m.heap.ancestor m.current distance) name.text with
    | some w => exact .inl rfl
    | none => exact .inr ⟨_, inside, .assignment evaluated known free⟩
  | none =>
    have ran : assign id name v m = assignFrom m.globals name v m := by simp only [assign, known]
    unfold Changes
    rw [ran]
    exact changes_assignFrom m.globals name v

/-- A point that binds a name in the current frame runs its declaration. -/
theorem changes_current {x : Point} {name : String} {y : Eval α} (inside : Z x)
    (declares : x.Declares name) (same : x.machine.SameSetting m) {v : Value}
    (b : m.heap.Binds m.current name v (machineOf (y m)).heap) : Changes Z y m :=
  have adds : x.Adds m.current name := same.current ▸ .declaration declares
  .binds b (.inr ⟨x, inside, adds⟩)

theorem changes_bindMethod {x : Point} {f : Function} {o : Instance} (inside : Z x)
    (binds : x.BindsMethod f o m) : Changes Z (bind f o) m := by
  have opens : x.Opens m.heap.frames.size (.receiver o) := .receiver binds
  exact (Heap.ChangedBy.push inside opens (some f.closure)).trans
    (.binds (Heap.binds_define _ _ "this" (.instance o))
      (.inr ⟨x, inside, .opening opens (List.mem_singleton_self _)⟩))

theorem changes_bindParams {x : Point} {n : Nat} {f : Function} {vs : List Value} {m₀ : Machine}
    (inside : Z x) (here : x = ⟨n + 1, .call f vs, m₀⟩) :
    Changes Z (bindParams m₀.heap.frames.size f.decl.params vs) m := by
  subst here
  unfold Changes
  rw [bindParams_apply]
  exact .defineAll inside .call
    (fun param h => List.mem_append_left _ (List.mem_map_of_mem h)) vs m.heap

/-- Whatever a task does to the heap is done by the points that it comes to. -/
theorem changes_task (n : Nat) (t : Task) (m : Machine) :
    Changes (Point.Reaches ⟨n, t, m⟩) (t.run n) m := by
  induction n using Nat.strongRecOn generalizing t m with
  | ind n ih =>
    have rule : Point.Composes ⟨n, t, m⟩ fun _ y m' =>
        Changes (Point.Reaches ⟨n, t, m⟩) y m' := {
      outOfFuel := changes_of_frames rfl
      pure := fun _ => changes_of_frames rfl
      bind := changes_bind
      within := changes_within
      calls := fun calls => (ih _ calls.fuel_lt _ _).mono fun _ path => .head calls path
      fail := fun _ => changes_of_frames rfl
      get := fun _ => id
      currentFrame := changes_of_frames rfl
      freshIdentity := changes_of_frames rfl
      newFrame := fun outer opens => .push .refl opens (some outer)
      newInstance := fun _ => changes_of_frames rfl
      readClock := changes_of_frames rfl
      lookUpAt := fun _ _ => changes_of_frames rfl
      lookUp := fun id _ => changes_lookUp id _
      setProperty := fun _ _ _ => changes_of_frames rfl
      result := changes_result
      assignFrom := fun frame v _ => changes_assignFrom frame _ v
      assign := changes_assign .refl
      define := fun v declares same =>
        changes_current .refl declares same (Heap.binds_define _ _ _ v)
      declare := fun declares same =>
        changes_current .refl declares same (Heap.binds_declare _ _ _)
      bindMethod := changes_bindMethod .refl
      bindSuper := fun {_ c} opens => .binds (Heap.binds_define _ _ "super" (.class c))
        (.inr ⟨_, .refl, .opening opens (List.mem_singleton_self _)⟩)
      bindParams := changes_bindParams .refl
      write := fun _ _ => changes_write _ }
    exact rule.task

theorem changes_topLevel (fuel : Nat) (ss : List Stmt) (m : Machine) :
    Changes (Passes fuel ss m) (topLevel fuel ss) m := by
  induction ss generalizing m with
  | nil => exact changes_of_frames rfl
  | cons s ss ih =>
    exact changes_bind ((changes_task fuel (.stmt s) m).mono fun _ => Starts.first.passes)
      fun _ m₁ ran => (ih m₁).mono fun _ => .later ran

end Eval

end Lox
