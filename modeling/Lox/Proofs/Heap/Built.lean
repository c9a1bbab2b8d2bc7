import Mathlib.Order.Defs.LinearOrder
import Lox.Proofs.Heap.Pointwise
import Lox.Proofs.Heap.Chains

/-!
# Heaps of frames

A heap of frames is built by the operations on frames, in any order (`Heap.Built`). There may be
any number of global frames, so that the frames form a forest; a link leads to a frame made before
(`Built.linked`). A name is found in the nearest frame of a chain that binds it (`Heap.Nearest`),
and the search for a name, which knows no distance, finds that frame
(`Linked.holder_iff_holder?`). So names and distances agree, and a definition is seen from the
frames whose nearest holder of the name is where it was made, and from no other
(`names_and_distances_agree`).
-/

namespace Lox.Heap

/-- The heap has been built by operations on frames. -/
inductive Built : Heap → Prop
  | empty : Built .empty
  | global {h : Heap} (b : Built h) : Built (h.push none)
  | enterScope {h : Heap} {f : FrameId} (b : Built h) (inside : f < h.frames.size) :
    Built (h.push (some f))
  | declare {h : Heap} {f : FrameId} {name : String} (b : Built h) (inside : f < h.frames.size) :
    Built (h.declare f name)
  | define {h : Heap} {f : FrameId} {name : String} {v : Value} (b : Built h)
    (inside : f < h.frames.size) : Built (h.define f name v)
  | assign {h h' : Heap} {f : FrameId} {name : String} {v : Value} (b : Built h)
    (inside : f < h.frames.size) (e : h.assign? f name v = some h') : Built h'
  | assignAt {h : Heap} {f : FrameId} {distance : Nat} {name : String} {v : Value} (b : Built h)
    (inside : f < h.frames.size) : Built (h.assignAt f distance name v)

/-- Links lead to frames made before. -/
def Linked (h : Heap) : Prop :=
  ∀ f g, h.enclosing? f = some g → g < f

namespace Linked

variable {h h' : Heap}

theorem of_links (l : h.Linked) (link : ∀ f, h'.enclosing? f = h.enclosing? f) : h'.Linked :=
  fun f g e => l f g (link f ▸ e)

theorem push (l : h.Linked) {outer : Option FrameId} (inside : ∀ f ∈ outer, f < h.frames.size) :
    (h.push outer).Linked := by
  intro f g e
  rw [enclosing?_push] at e
  split at e
  · rename_i new
    rw [new]
    exact inside g e
  · exact l f g e

end Linked

theorem Built.linked {h : Heap} (b : h.Built) : h.Linked := by
  induction b with
  | empty => exact fun _ _ e => nomatch e
  | global _ ih => exact ih.push nofun
  | enterScope _ inside ih => exact ih.push (by rintro _ ⟨⟩; exact inside)
  | declare _ _ ih => exact ih.of_links (enclosing?_declare _ _ _)
  | define _ _ ih => exact ih.of_links (enclosing?_define _ _ _ _)
  | assign _ _ e ih =>
    obtain ⟨holder, -, rfl⟩ := Option.map_eq_some_iff.mp e
    exact ih.of_links (enclosing?_define _ _ _ _)
  | assignAt _ _ ih => exact ih.of_links (enclosing?_define _ _ _ _)

/-! ## The nearest frame that binds a name -/

/-- The frame `g` is `distance` links out from `f` and binds the name, and no frame nearer does. -/
structure Nearest (h : Heap) (f : FrameId) (name : String) (distance : Nat) (g : FrameId) :
    Prop where
  outward : h.outward? f distance = some g
  bound : (h.lookup? g name).isSome
  free : ∀ nearer < distance, ∀ g', h.outward? f nearer = some g' → h.lookup? g' name = none

/-- The nearest frame that binds the name on the chain of `f` is `g`. -/
def Holder (h : Heap) (f : FrameId) (name : String) (g : FrameId) : Prop :=
  ∃ distance, h.Nearest f name distance g

namespace Nearest

variable {h : Heap} {f g outer : FrameId} {name : String} {distance : Nat}

theorem here (bound : (h.lookup? f name).isSome) : h.Nearest f name 0 f :=
  ⟨rfl, bound, fun _ nearer => absurd nearer (Nat.not_lt_zero _)⟩

theorem outside (free : h.lookup? f name = none) (link : h.enclosing? f = some outer)
    (nearest : h.Nearest outer name distance g) : h.Nearest f name (distance + 1) g where
  outward := by rw [outward?, link]; exact nearest.outward
  bound := nearest.bound
  free nearer lt g' e := by
    cases nearer with
    | zero =>
      cases e
      exact free
    | succ nearer =>
      rw [outward?, link] at e
      exact nearest.free nearer (Nat.lt_of_succ_lt_succ lt) g' e

/-- The first step of the walk. -/
theorem step (nearest : h.Nearest f name (distance + 1) g) :
    ∃ outer, h.lookup? f name = none ∧ h.enclosing? f = some outer ∧
      h.Nearest outer name distance g := by
  obtain ⟨outer, link, outward⟩ := Option.bind_eq_some_iff.mp nearest.outward
  refine ⟨outer, nearest.free 0 (Nat.succ_pos _) f rfl, link, outward, nearest.bound, ?_⟩
  intro nearer lt g' e
  refine nearest.free (nearer + 1) (Nat.succ_lt_succ lt) g' ?_
  rw [outward?, link]
  exact e

/-- At a distance that reaches the nearest holder, a read and a write are there. -/
theorem getAt (nearest : h.Nearest f name distance g) :
    h.lookup? g name = some (h.getAt f distance name) := by
  obtain ⟨v, e⟩ := Option.isSome_iff_exists.mp nearest.bound
  rw [e, getAt_of_outward? nearest.outward e]

theorem assignAt (nearest : h.Nearest f name distance g) (v : Value) :
    h.assignAt f distance name v = h.define g name v := by
  rw [Heap.assignAt, ancestor_of_outward? nearest.outward]

end Nearest

section
variable {h : Heap}

/-- One step of the search, where links lead to frames made before. -/
theorem Linked.holder?_eq (l : h.Linked) (f : FrameId) (name : String) :
    h.holder? f name =
      if (h.lookup? f name).isSome then some f
      else (h.enclosing? f).bind (h.holder? · name) := by
  rw [Heap.holder?_eq]
  cases link : h.enclosing? f with
  | none => rfl
  | some outer => simp only [Option.bind_some, if_pos (l f outer link)]

/-- The search for a name finds the nearest frame that binds it. -/
theorem Linked.holder_iff_holder? (l : h.Linked) (f g : FrameId) (name : String) :
    h.Holder f name g ↔ h.holder? f name = some g := by
  induction f using Nat.strongRecOn with
  | ind f ih =>
    rw [l.holder?_eq]
    split
    · rename_i bound
      refine ⟨fun ⟨distance, nearest⟩ => ?_, fun e => ⟨0, Option.some.inj e ▸ .here bound⟩⟩
      cases distance with
      | zero => exact nearest.outward
      | succ distance =>
        obtain ⟨_, free, -⟩ := nearest.step
        rw [free] at bound
        cases bound
    · rename_i free
      rw [Bool.not_eq_true, Option.isSome_eq_false_iff, Option.isNone_iff_eq_none] at free
      constructor
      · rintro ⟨distance, nearest⟩
        cases distance with
        | zero =>
          have bound := nearest.bound
          rw [← Option.some.inj nearest.outward, free] at bound
          cases bound
        | succ distance =>
          obtain ⟨outer, -, link, nearest⟩ := nearest.step
          rw [link]
          exact (ih outer (l f outer link)).mp ⟨distance, nearest⟩
      · intro e
        obtain ⟨outer, link, e⟩ := Option.bind_eq_some_iff.mp e
        obtain ⟨distance, nearest⟩ := (ih outer (l f outer link)).mpr e
        exact ⟨distance + 1, .outside free link nearest⟩

/-- A name is found if and only if some frame of the chain binds it. -/
theorem Linked.exists_holder? (l : h.Linked) (f : FrameId) (name : String) :
    (h.holder? f name).isSome ↔
      ∃ distance g, h.outward? f distance = some g ∧ (h.lookup? g name).isSome := by
  constructor
  · intro found
    obtain ⟨g, e⟩ := Option.isSome_iff_exists.mp found
    obtain ⟨distance, nearest⟩ := (l.holder_iff_holder? f g name).mpr e
    exact ⟨distance, g, nearest.outward, nearest.bound⟩
  · rintro ⟨distance, g, outward, bound⟩
    induction distance generalizing f with
    | zero =>
      cases outward
      rw [holder?_of_bound bound]
      rfl
    | succ distance ih =>
      obtain ⟨outer, link, outward⟩ := Option.bind_eq_some_iff.mp outward
      rw [l.holder?_eq, link]
      split
      · rfl
      · exact ih outer outward

/-! ## Definitions -/

/-- A frame that binds the name already still holds it after it is bound anew there. -/
theorem holder?_define_of_bound {k : FrameId} {name : String} (bound : (h.lookup? k name).isSome)
    (v : Value) (f : FrameId) (other : String) :
    (h.define k name v).holder? f other = h.holder? f other := by
  refine holder?_congr (enclosing?_define h k name v) (fun g => ?_) f
  rw [lookup?_define]
  split
  · rename_i same
    rw [same.1, same.2.2, bound]
    rfl
  · rfl

/-- A search that does not end where the name was bound ends where it ended before. -/
theorem Linked.holder?_define (l : h.Linked) (f : FrameId) {name : String} {v : Value}
    (g : FrameId) {other : String}
    (apart : other = name → (h.define f name v).holder? g other ≠ some f) :
    (h.define f name v).holder? g other = h.holder? g other := by
  have l' : (h.define f name v).Linked := l.of_links (enclosing?_define h f name v)
  induction g using Nat.strongRecOn with
  | ind g ih =>
    have elsewhere : (h.define f name v).lookup? g other = h.lookup? g other := by
      rw [lookup?_define, if_neg]
      rintro ⟨rfl, inside, rfl⟩
      refine apart rfl (holder?_of_bound ?_)
      rw [lookup?_define, if_pos ⟨rfl, inside, rfl⟩]
      rfl
    rw [l'.holder?_eq, elsewhere, enclosing?_define] at apart
    rw [l'.holder?_eq, l.holder?_eq, elsewhere, enclosing?_define]
    split
    · rfl
    · rename_i free
      rw [if_neg free] at apart
      cases link : h.enclosing? g with
      | none => rfl
      | some outer =>
        rw [link] at apart
        exact ih outer (l g outer link) apart

/-- What is found of a name after a definition. -/
theorem Linked.get?_define (l : h.Linked) (f : FrameId) (name : String) (v : Value) (g : FrameId)
    (other : String) :
    (other = name ∧ (h.define f name v).Holder g name f →
      (h.define f name v).get? g other = some v) ∧
    (¬ (other = name ∧ (h.define f name v).Holder g name f) →
      (h.define f name v).get? g other = h.get? g other) := by
  have l' : (h.define f name v).Linked := l.of_links (enclosing?_define h f name v)
  rw [l'.holder_iff_holder?]
  constructor
  · rintro ⟨rfl, e⟩
    obtain ⟨_, nearest⟩ := (l'.holder_iff_holder? _ _ _).mpr e
    obtain ⟨w, bound⟩ := Option.isSome_iff_exists.mp nearest.bound
    have inside := lt_size_of_lookup? bound
    rw [size_define] at inside
    rw [get?, e, Option.bind_some, lookup?_define, if_pos ⟨rfl, inside, rfl⟩]
  · intro apart
    have same : (h.define f name v).holder? g other = h.holder? g other :=
      l.holder?_define f g fun here e => apart ⟨here, here ▸ e⟩
    rw [get?, get?, same]
    cases found : h.holder? g other with
    | none => rfl
    | some k =>
      rw [Option.bind_some, Option.bind_some, lookup?_define, if_neg]
      rintro ⟨rfl, -, rfl⟩
      exact apart ⟨rfl, same.trans found⟩

/-- What is found of a name after it was bound anew in the frame that holds it. -/
theorem Linked.get?_assign (l : h.Linked) {f k : FrameId} {name : String}
    (found : h.holder? f name = some k) (v : Value) (g : FrameId) (other : String) :
    (other = name ∧ h.Holder g name k → (h.define k name v).get? g other = some v) ∧
    (¬ (other = name ∧ h.Holder g name k) →
      (h.define k name v).get? g other = h.get? g other) := by
  have l' : (h.define k name v).Linked := l.of_links (enclosing?_define h k name v)
  obtain ⟨_, nearest⟩ := (l.holder_iff_holder? _ _ _).mpr found
  have same : (h.define k name v).Holder g name k ↔ h.Holder g name k := by
    rw [l'.holder_iff_holder?, l.holder_iff_holder?, holder?_define_of_bound nearest.bound]
  rw [← same]
  exact l.get?_define k name v g other

/-! ## Distances beyond the last frame -/

/-- The chain of a frame ends, and a walk of any greater distance ends where the chain does. -/
theorem Linked.exists_root (l : h.Linked) (f : FrameId) :
    ∃ depth root, h.outward? f depth = some root ∧ h.enclosing? root = none ∧
      ∀ distance ≥ depth, h.ancestor f distance = root := by
  induction f using Nat.strongRecOn with
  | ind f ih =>
    cases link : h.enclosing? f with
    | none =>
      refine ⟨0, f, rfl, link, fun distance _ => ?_⟩
      cases distance with
      | zero => rfl
      | succ distance => rw [ancestor, link]
    | some outer =>
      obtain ⟨depth, root, outward, outermost, beyond⟩ := ih outer (l f outer link)
      refine ⟨depth + 1, root, ?_, outermost, fun distance far => ?_⟩
      · rw [outward?, link]
        exact outward
      · cases distance with
        | zero => exact absurd far (Nat.not_succ_le_zero depth)
        | succ distance =>
          rw [ancestor, link]
          exact beyond distance (Nat.le_of_succ_le_succ far)

end

/-! ## Names and distances -/

/-- On every heap that was built by operations on frames, a read by name succeeds if and only if
some frame of the chain binds the name, and gives what a read at the least such distance gives. An
assignment by name succeeds in the same cases and does what an assignment at that distance does;
otherwise the machine fails with an undefined variable and is left as it was. After an assignment a
name reads the new value from the frames that have the same nearest holder, and what it read before
from all others; after a definition likewise, with the holders as they are then. And a distance
beyond the last frame of the chain acts on that frame. -/
theorem names_and_distances_agree {h : Heap} (built : h.Built) (f : FrameId) (name : String)
    (v : Value) :
    ((h.get? f name).isSome ↔
      ∃ distance g, h.outward? f distance = some g ∧ (h.lookup? g name).isSome) ∧
    ((h.get? f name).isSome → ∃ distance g, h.Nearest f name distance g) ∧
    (∀ distance g, h.Nearest f name distance g →
      h.get? f name = some (h.getAt f distance name) ∧
      h.assign? f name v = some (h.assignAt f distance name v)) ∧
    ((h.assign? f name v).isSome = (h.get? f name).isSome) ∧
    (h.assign? f name v = none → ∀ (m : Machine) (line : Nat), m.heap = h →
      Eval.assignFrom f ⟨name, line⟩ v m =
        .error (.failed (.runtime ⟨.undefinedVariable name, line⟩)) m) ∧
    (∀ h', h.assign? f name v = some h' →
      (∀ (m : Machine) (line : Nat), m.heap = h →
        Eval.assignFrom f ⟨name, line⟩ v m = .ok () { m with heap := h' }) ∧
      ∀ g other,
        ((other = name ∧ ∃ k, h.Holder f name k ∧ h.Holder g name k) →
          h'.get? g other = some v) ∧
        (¬ (other = name ∧ ∃ k, h.Holder f name k ∧ h.Holder g name k) →
          h'.get? g other = h.get? g other)) ∧
    (∀ g other,
      ((other = name ∧ (h.define f name v).Holder g name f) →
        (h.define f name v).get? g other = some v) ∧
      (¬ (other = name ∧ (h.define f name v).Holder g name f) →
        (h.define f name v).get? g other = h.get? g other)) ∧
    ∃ depth root, h.outward? f depth = some root ∧ h.enclosing? root = none ∧
      ∀ distance ≥ depth,
        h.getAt f distance name = h.getAt root 0 name ∧
        h.assignAt f distance name v = h.assignAt root 0 name v := by
  have l := built.linked
  have isSome_get? : (h.get? f name).isSome = (h.holder? f name).isSome := by
    cases found : h.holder? f name with
    | none => rw [get?, found]; rfl
    | some g =>
      obtain ⟨_, nearest⟩ := (l.holder_iff_holder? f g name).mpr found
      rw [get?, found]
      exact nearest.bound
  refine ⟨?_, fun found => ?_, fun distance g nearest => ?_, ?_, fun none m line e => ?_,
    fun h' some => ?_, l.get?_define f name v, ?_⟩
  · rw [isSome_get?]
    exact l.exists_holder? f name
  · rw [isSome_get?] at found
    obtain ⟨g, found⟩ := Option.isSome_iff_exists.mp found
    obtain ⟨distance, nearest⟩ := (l.holder_iff_holder? f g name).mpr found
    exact ⟨distance, g, nearest⟩
  · have found := (l.holder_iff_holder? f g name).mp ⟨distance, nearest⟩
    rw [get?, assign?, found, nearest.assignAt]
    exact ⟨nearest.getAt, rfl⟩
  · rw [isSome_get?, assign?, Option.isSome_map]
  · have found : m.heap.holder? f name = .none := by rw [e]; exact Option.map_eq_none_iff.mp none
    unfold Eval.assignFrom
    dsimp only
    rw [found]
    rfl
  · obtain ⟨k, found, rfl⟩ := Option.map_eq_some_iff.mp some
    refine ⟨fun m line e => ?_, fun g other => ?_⟩
    · have found' : m.heap.holder? f name = .some k := by rw [e, found]
      unfold Eval.assignFrom
      dsimp only
      rw [found', e]
    · have same : (∃ k, h.Holder f name k ∧ h.Holder g name k) ↔ h.Holder g name k := by
        rw [l.holder_iff_holder? g]
        simp only [l.holder_iff_holder?, found, Option.some.injEq, exists_eq_left']
      rw [same]
      exact l.get?_assign found v g other
  · obtain ⟨depth, root, outward, outermost, beyond⟩ := l.exists_root f
    refine ⟨depth, root, outward, outermost, fun distance far => ?_⟩
    rw [getAt, assignAt, beyond distance far]
    exact ⟨rfl, rfl⟩

theorem shadowing_frame_is_assigned : ∃ h h' : Heap, h.Built ∧ h.Nearest 3 "x" 1 1 ∧
    h.get? 3 "x" = some (.bool true) ∧ h.assign? 3 "x" .nil = some h' ∧
    h'.get? 1 "x" = some .nil ∧ h'.get? 2 "x" = some (.bool false) := by
  -- two chains share the global frame 0: frame 2 alone, and frame 3 inside frame 1
  let h := ((((empty.push none).define 0 "x" (.bool false)).push (some 0)).define 1 "x"
    (.bool true)).push (some 0) |>.push (some 1)
  have built : h.Built := by
    refine .enterScope (.enterScope (.define (.enterScope (.define (.global .empty) ?_) ?_) ?_) ?_)
      ?_ <;> simp [empty]
  have nearest : h.Nearest 3 "x" 1 1 := .outside (by cbv) rfl (.here (by cbv))
  have shared : h.Holder 1 "x" 1 := ⟨0, .here (by cbv)⟩
  have apart : h.Holder 2 "x" 0 := ⟨1, .outside (by cbv) rfl (.here (by cbv))⟩
  obtain ⟨-, -, agree, -, -, assigned, -⟩ := names_and_distances_agree built 3 "x" .nil
  obtain ⟨read, written⟩ := agree 1 1 nearest
  obtain ⟨-, seen⟩ := assigned _ written
  have known : h.getAt 3 1 "x" = .bool true := by cbv
  refine ⟨h, _, built, nearest, read.trans (congrArg some known), written,
    (seen 1 "x").1 ⟨rfl, 1, ⟨1, nearest⟩, shared⟩, ((seen 2 "x").2 ?_).trans (by cbv)⟩
  rintro ⟨-, k, held, held'⟩
  rw [built.linked.holder_iff_holder?] at apart held'
  have first := (built.linked.holder_iff_holder? 3 k "x").mp held
  rw [(built.linked.holder_iff_holder? 3 1 "x").mp ⟨1, nearest⟩] at first
  cases first
  cases apart.symm.trans held'

end Lox.Heap
