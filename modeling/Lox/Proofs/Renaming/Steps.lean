import Lox.Proofs.Eval.Laws
import Lox.Proofs.Renaming.Heap

/-!
# The steps of two machines

A program and a renamed one run on twin machines: the heap of the second is the heap of the first
with names renamed, and all else is the same (`Twins`). One computation simulates another if from
twins both end with results that are alike, on machines that are twins again, or both stop for the
same reason after they printed the same (`Twins.Simulates`). The operations of the machine do so,
if names are renamed as the marks of their frames demand.
-/

namespace Lox

/-- Two machines, of which the second has a heap with renamed names. -/
structure Twins (R : Renaming) where
  machine : Machine
  marked : FrameId → Bool
  heap' : Heap
  distances : machine.distances = R.distances
  renames : Marking.Renames R ⟨machine.heap, machine.globals, marked⟩ heap'

namespace Twins

variable {R : Renaming} {α β γ δ : Type}

/-- The frames of the machines, and their marks. -/
def marking (t : Twins R) : Marking :=
  ⟨t.machine.heap, t.machine.globals, t.marked⟩

/-- The machine that the renamed program runs on. -/
def other (t : Twins R) : Machine :=
  { t.machine with heap := t.heap' }

/-- The chain of frames from the current one has the marks. -/
def At (t : Twins R) (marks : List Bool) : Prop :=
  t.marking.Chain marks t.machine.current

/-- The twins `u` may come after `t`. -/
structure Follows (t u : Twins R) : Prop where
  marking : t.marking.Extends u.marking
  current : u.machine.current = t.machine.current

/-- Two results after the twins `t`: both are values that `Q` relates, on twins again, or both are
stops for the same reason, after the same was printed. -/
inductive Alike (t : Twins R) (Q : Marking → α → β → Prop) :
    EStateM.Result Stop Machine α → EStateM.Result Stop Machine β → Prop
  | ok {a : α} {b : β} (u : Twins R) (follows : t.Follows u) (related : Q u.marking a b) :
    Alike t Q (.ok a u.machine) (.ok b u.other)
  | error {stop : Stop} {m m' : Machine} (printed : m'.printed = m.printed) :
    Alike t Q (.error stop m) (.error stop m')

/-- The computations, each on its own one of the twins, end alike. -/
def Simulates (t : Twins R) (x : Eval α) (x' : Eval β) (Q : Marking → α → β → Prop) : Prop :=
  t.Alike Q (x t.machine) (x' t.other)

variable {t u : Twins R} {marks : List Bool}

theorem Follows.refl (t : Twins R) : t.Follows t :=
  ⟨.refl _, rfl⟩

theorem Follows.trans {t₁ t₂ t₃ : Twins R} (h : t₁.Follows t₂) (h' : t₂.Follows t₃) :
    t₁.Follows t₃ :=
  ⟨h.marking.trans h'.marking, h'.current.trans h.current⟩

theorem At.follows (h : t.At marks) (follows : t.Follows u) : u.At marks := by
  unfold At
  rw [follows.current]
  exact Marking.Chain.mono h follows.marking

theorem At.headD (h : t.At marks) : marks.headD false = t.marked t.machine.current :=
  Marking.Chain.headD h t.renames.unmarked

theorem At.inside (h : t.At marks) : t.machine.current < t.machine.heap.frames.size :=
  Marking.Chain.lt_size h t.renames.inside

theorem Alike.follows {Q : Marking → α → β → Prop} {r : EStateM.Result Stop Machine α}
    {r' : EStateM.Result Stop Machine β} (h : u.Alike Q r r') (follows : t.Follows u) :
    t.Alike Q r r' := by
  cases h with
  | ok v follows' related => exact .ok v (follows.trans follows') related
  | error printed => exact .error printed

/-! ## Sequencing -/

theorem simulates_pure {Q : Marking → α → β → Prop} {a : α} {b : β} (h : Q t.marking a b) :
    t.Simulates (pure a) (pure b) Q :=
  .ok t (.refl t) h

theorem simulates_throw {Q : Marking → α → β → Prop} (stop : Stop) :
    t.Simulates (throw stop) (throw stop) Q :=
  .error rfl

theorem simulates_fail {Q : Marking → α → β → Prop} (blamed : Lexeme) (cause : RuntimeCause) :
    t.Simulates (Eval.fail blamed cause) (Eval.fail blamed cause) Q :=
  simulates_throw _

theorem Simulates.bind {x : Eval α} {x' : Eval β} {f : α → Eval γ} {f' : β → Eval δ}
    {P : Marking → α → β → Prop} {Q : Marking → γ → δ → Prop} (hx : t.Simulates x x' P)
    (hf : ∀ (u : Twins R) a b, t.Follows u → P u.marking a b → u.Simulates (f a) (f' b) Q) :
    t.Simulates (x >>= f) (x' >>= f') Q := by
  unfold Simulates at hx ⊢
  generalize e : x t.machine = r at hx
  generalize e' : x' t.other = r' at hx
  cases hx with
  | ok u follows related =>
    rw [bind_of_ok e, bind_of_ok e']
    exact (hf u _ _ follows related).follows follows
  | error printed =>
    rw [bind_of_error e, bind_of_error e']
    exact .error printed

theorem Simulates.imp {x : Eval α} {x' : Eval β} {P Q : Marking → α → β → Prop}
    (hx : t.Simulates x x' P) (sub : ∀ (u : Twins R) a b, t.Follows u → P u.marking a b →
      Q u.marking a b) : t.Simulates x x' Q := by
  unfold Simulates at hx ⊢
  generalize x t.machine = r at hx ⊢
  generalize x' t.other = r' at hx ⊢
  cases hx with
  | ok u follows related => exact .ok u follows (sub u _ _ follows related)
  | error printed => exact .error printed

/-- The twins with another current frame. -/
def inFrame (t : Twins R) (frame : FrameId) : Twins R :=
  { t with machine := { t.machine with current := frame } }

theorem Simulates.within {frame : FrameId} {body : Eval α} {body' : Eval β}
    {Q : Marking → α → β → Prop} (h : (t.inFrame frame).Simulates body body' Q) :
    t.Simulates (Eval.within frame body) (Eval.within frame body') Q := by
  unfold Simulates at h ⊢
  unfold Eval.within
  have start : ({ t.machine with current := frame } : Machine) = (t.inFrame frame).machine := rfl
  have start' : ({ t.other with current := frame } : Machine) = (t.inFrame frame).other := rfl
  dsimp only
  rw [start, start']
  generalize body (t.inFrame frame).machine = r at h ⊢
  generalize body' (t.inFrame frame).other = r' at h ⊢
  cases h with
  | ok u follows related =>
    exact .ok (u.inFrame t.machine.current) ⟨follows.marking, rfl⟩ related
  | error printed => exact .error printed

/-- A computation may read the machine. -/
theorem simulates_get {f : Machine → Eval α} {f' : Machine → Eval β} {Q : Marking → α → β → Prop}
    (h : t.Simulates (f t.machine) (f' t.other) Q) :
    t.Simulates (get >>= f) (get >>= f') Q :=
  h

theorem simulates_currentFrame {f : FrameId → Eval α} {f' : FrameId → Eval β}
    {Q : Marking → α → β → Prop}
    (h : t.Simulates (f t.machine.current) (f' t.machine.current) Q) :
    t.Simulates (Eval.currentFrame >>= f) (Eval.currentFrame >>= f') Q :=
  h

/-! ## The heap -/

/-- The twins after both heaps have changed. -/
def withHeap (t : Twins R) {h h' : Heap}
    (renames : Marking.Renames R ⟨h, t.machine.globals, t.marked⟩ h') : Twins R where
  machine := { t.machine with heap := h }
  marked := t.marked
  heap' := h'
  distances := t.distances
  renames := renames

theorem simulates_modifyHeap {f f' : Heap → Heap} (renames : Marking.Renames R
      ⟨f t.machine.heap, t.machine.globals, t.marked⟩ (f' t.heap'))
    (grown : t.machine.heap.Extends (f t.machine.heap)) :
    t.Simulates (Eval.modifyHeap f) (Eval.modifyHeap f') fun K _ _ =>
      K = ⟨f t.machine.heap, t.machine.globals, t.marked⟩ :=
  .ok (t.withHeap renames) ⟨.ofHeap grown, rfl⟩ rfl

theorem simulates_modifyHeap_define {v v' : Value} (hv : v.Renamed R t.marking v') (f : FrameId)
    {name name' : String} (same : R.swap (t.marked f) name = name') :
    t.Simulates (Eval.modifyHeap (·.define f name v)) (Eval.modifyHeap (·.define f name' v'))
      fun _ _ _ => True := by
  subst same
  exact (simulates_modifyHeap (t.renames.define hv f name)
    (Heap.binds_define ..).isExtension).imp
    fun _ _ _ _ _ => trivial

theorem simulates_newFrame (outer : FrameId) (here : Bool) :
    t.Simulates (Eval.newFrame outer) (Eval.newFrame outer) fun K frame frame' =>
      K = t.marking.enter outer here ∧ frame = t.machine.heap.frames.size ∧ frame' = frame := by
  refine Alike.ok ⟨{ t.machine with heap := t.machine.heap.push (some outer) }, _, _, t.distances,
    t.renames.enter outer here⟩ ⟨.enter t.marking outer here, rfl⟩ ⟨rfl, rfl, t.renames.size⟩

theorem simulates_freshIdentity :
    t.Simulates Eval.freshIdentity Eval.freshIdentity fun _ identity identity' =>
      identity' = identity :=
  .ok { t with machine := { t.machine with nextIdentity := t.machine.nextIdentity + 1 } }
    ⟨.refl _, rfl⟩ rfl

theorem simulates_newInstance {c c' : Class} (h : c.Renamed R t.marking c') :
    t.Simulates (Eval.newInstance c) (Eval.newInstance c') (Instance.Renamed R) := by
  have grown : t.marking.Extends (t.withHeap t.renames.pushInstance).marking :=
    .ofHeap (.pushInstance _)
  exact .ok (t.withHeap t.renames.pushInstance) ⟨grown, rfl⟩ ⟨t.renames.instances, h.mono grown⟩

theorem simulates_setProperty {o o' : Instance} (ho : o.Renamed R t.marking o') {v v' : Value}
    (hv : v.Renamed R t.marking v') (name : Lexeme) :
    t.Simulates (Eval.setProperty o name v) (Eval.setProperty o' name v') fun _ _ _ => True := by
  unfold Eval.setProperty
  rw [ho.identity]
  exact (simulates_modifyHeap (t.renames.setField hv o.identity name.text) (.setField ..)).imp
    fun _ _ _ _ _ => trivial

/-! ## Input and output -/

theorem simulates_write (text : String) :
    t.Simulates (Eval.write text) (Eval.write text) fun _ _ _ => True := by
  have written : t.Alike (fun _ _ _ => True)
      (.ok () { t.machine with printed := t.machine.printed.push text })
      (.ok () { t.other with printed := t.other.printed.push text }) :=
    .ok { t with machine := { t.machine with printed := t.machine.printed.push text } }
      ⟨.refl _, rfl⟩ trivial
  have capacity : t.other.host.capacity = t.machine.host.capacity := rfl
  unfold Simulates Eval.write
  rw [capacity]
  cases t.machine.host.capacity with
  | none => exact written
  | some n =>
    dsimp only
    by_cases full : n ≤ t.machine.printed.size
    · have full' : n ≤ t.other.printed.size := full
      rw [if_pos full, if_pos full']
      exact .error rfl
    · have notFull' : ¬ n ≤ t.other.printed.size := full
      rw [if_neg full, if_neg notFull']
      exact written

theorem simulates_flush : t.Simulates Eval.flush Eval.flush fun _ _ _ => True := by
  unfold Simulates Eval.flush
  by_cases fails : t.machine.host.flushFails = true
  · have fails' : t.other.host.flushFails = true := fails
    rw [if_pos fails, if_pos fails']
    exact .error rfl
  · have succeeds' : ¬ t.other.host.flushFails = true := fails
    rw [if_neg fails, if_neg succeeds']
    exact .ok t (.refl t) trivial

theorem simulates_readClock :
    t.Simulates Eval.readClock Eval.readClock (Value.Renamed R) :=
  .ok { t with machine := { t.machine with readings := t.machine.readings + 1 } }
    ⟨.refl _, rfl⟩ (.plain trivial)

/-! ## Variables -/

theorem distance (t : Twins R) (id : ExprId) :
    t.machine.distances[id]? = R.distances[id]? ∧ t.other.distances[id]? = R.distances[id]? := by
  have e := congrArg (fun distances : Distances => distances[id]?) t.distances
  exact ⟨e, e⟩

theorem bindings (t : Twins R) (f : FrameId) (name : String) :
    Option.Rel (Value.Renamed R t.marking) (t.machine.heap.lookup? f name)
      (t.other.heap.lookup? f (R.swap (t.marked f) name)) :=
  t.renames.bindings f name

theorem fields (t : Twins R) (o : InstanceId) (name : String) :
    Option.Rel (Value.Renamed R t.marking) (t.machine.heap.field? o name)
      (t.other.heap.field? o name) :=
  t.renames.fields o name

theorem link (t : Twins R) (f : FrameId) :
    t.other.heap.enclosing? f = t.machine.heap.enclosing? f :=
  t.renames.link f

theorem globals_outermost (t : Twins R) : t.machine.heap.enclosing? t.machine.globals = none :=
  t.renames.outermost

theorem swap_globals (t : Twins R) (name : String) :
    R.swap (t.marked t.machine.globals) name = name :=
  congrArg (R.swap · name) t.renames.unmarked

/-- A reference that is renamed with the frame that it leads to. -/
theorem simulates_lookUp (stands : t.At marks) (id : ExprId) {name : Lexeme}
    (fresh : name.text ≠ R.new) :
    t.Simulates (Eval.lookUp id name) (Eval.lookUp id (R.lexeme (R.reaches marks id) name))
      (Value.Renamed R) := by
  unfold Simulates Eval.lookUp
  rw [(t.distance id).1, (t.distance id).2]
  unfold Renaming.reaches
  cases R.distances[id]? with
  | some distance =>
    dsimp only
    rw [R.text_lexeme _ fresh]
    exact .ok t (.refl t) (t.renames.getAt stands distance name.text)
  | none =>
    have found := t.bindings t.machine.globals name.text
    have outermost' : t.other.heap.enclosing? t.other.globals = none :=
      (t.link _).trans t.globals_outermost
    rw [t.swap_globals] at found
    dsimp only [Renaming.markAt, Option.elim_none]
    rw [R.lexeme_false, Heap.get?_of_outermost t.globals_outermost,
      Heap.get?_of_outermost outermost']
    have globals' : t.other.globals = t.machine.globals := rfl
    rw [globals']
    generalize t.machine.heap.lookup? _ _ = v at found ⊢
    generalize t.other.heap.lookup? _ _ = v' at found ⊢
    cases found with
    | none => exact .error rfl
    | some hv => exact .ok t (.refl t) hv

/-- A keyword is not renamed. -/
theorem simulates_lookUp_keyword (stands : t.At marks) (id : ExprId) {k : Keyword}
    {keyword : Lexeme} (from' : keyword.From R.Fresh (.keyword k)) :
    t.Simulates (Eval.lookUp id keyword) (Eval.lookUp id keyword) (Value.Renamed R) := by
  have found := simulates_lookUp stands id from'.ne_of_keyword.2
  rwa [R.lexeme_of_ne _ from'.ne_of_keyword.1] at found

theorem simulates_lookUpAt (stands : t.At marks) (distance : Nat) (k : Keyword) :
    t.Simulates (Eval.lookUpAt distance k.text) (Eval.lookUpAt distance k.text)
      (Value.Renamed R) := by
  have found := t.renames.getAt stands distance k.text
  rw [R.swap_keyword] at found
  exact .ok t (.refl t) found

/-- A name that keeps its spelling in the frame where the search for it ends. -/
theorem simulates_assignFrom {v v' : Value} (hv : v.Renamed R t.marking v') {f : FrameId}
    {name : Lexeme} (keeps : R.swap (t.marked f) name.text = name.text)
    (ends : (t.machine.heap.lookup? f name.text).isSome ∨ t.machine.heap.enclosing? f = none) :
    t.Simulates (Eval.assignFrom f name v) (Eval.assignFrom f name v') fun _ _ _ => True := by
  have found := (t.bindings f name.text).isSome_eq
  rw [keeps] at found
  have ends' : (t.other.heap.lookup? f name.text).isSome ∨ t.other.heap.enclosing? f = none := by
    rwa [found, t.link]
  have holder := Heap.holder?_of_ends ends
  have holder' := Heap.holder?_of_ends ends'
  rw [found] at holder'
  unfold Simulates
  by_cases bound : (t.machine.heap.lookup? f name.text).isSome
  · rw [if_pos bound] at holder holder'
    rw [Eval.assignFrom_of_some holder, Eval.assignFrom_of_some holder']
    have define := t.renames.define hv f name.text
    rw [keeps] at define
    exact .ok (t.withHeap define) ⟨.ofHeap (Heap.binds_define ..).isExtension, rfl⟩ trivial
  · rw [if_neg bound] at holder holder'
    rw [Eval.assignFrom_of_none holder, Eval.assignFrom_of_none holder']
    exact .error rfl

/-- An assignment to a variable that is renamed with the frame that it leads to. -/
theorem simulates_assign (stands : t.At marks) (id : ExprId) {name : Lexeme}
    (fresh : name.text ≠ R.new) {v v' : Value} (hv : v.Renamed R t.marking v') :
    t.Simulates (Eval.assign id name v) (Eval.assign id (R.lexeme (R.reaches marks id) name) v')
      fun _ _ _ => True := by
  unfold Simulates Eval.assign
  rw [(t.distance id).1, (t.distance id).2]
  unfold Renaming.reaches
  cases R.distances[id]? with
  | some distance =>
    have same : t.other.heap.ancestor t.other.current distance =
        t.machine.heap.ancestor t.machine.current distance :=
      Heap.ancestor_congr t.link _ _
    have mark := Marking.Chain.ancestor stands t.renames.outermost t.renames.unmarked distance
    have define := t.renames.define hv
      (t.machine.heap.ancestor t.machine.current distance) name.text
    dsimp only [Renaming.markAt, Option.elim_some, Heap.assignAt]
    rw [R.text_lexeme _ fresh, same, ← mark]
    exact .ok (t.withHeap define) ⟨.ofHeap (Heap.binds_define ..).isExtension, rfl⟩ trivial
  | none =>
    dsimp only [Renaming.markAt, Option.elim_none]
    rw [R.lexeme_false]
    exact simulates_assignFrom hv (t.swap_globals _) (.inr t.globals_outermost)

/-- A variable is declared in a frame whose names may be renamed. -/
theorem simulates_define (stands : t.At marks) {name : Lexeme} (fresh : name.text ≠ R.new)
    {v v' : Value} (hv : v.Renamed R t.marking v') :
    t.Simulates (Eval.define name v) (Eval.define (R.lexeme (marks.headD false) name) v')
      fun _ _ _ => True := by
  have define := t.renames.define hv t.machine.current name.text
  have text := R.text_lexeme (marks.headD false) fresh
  rw [stands.headD] at text ⊢
  rw [← text] at define
  exact .ok (t.withHeap define) ⟨.ofHeap (Heap.binds_define ..).isExtension, rfl⟩ trivial

/-- A name is declared that is not renamed. -/
theorem simulates_declare (stands : t.At marks) {name : Lexeme}
    (keeps : R.Keeps (marks.headD false) name.text) :
    t.Simulates (Eval.declare name) (Eval.declare name) fun K _ _ =>
      (K.heap.lookup? t.machine.current name.text).isSome := by
  have declare := t.renames.declare t.machine.current name.text
  have kept := R.swap_of_keeps keeps
  rw [stands.headD] at kept
  rw [kept] at declare
  refine .ok (t.withHeap declare) ⟨.ofHeap (Heap.binds_declare ..).isExtension, rfl⟩ ?_
  show ((t.machine.heap.declare _ _).lookup? _ _).isSome
  rw [Heap.lookup?_declare, if_pos ⟨rfl, stands.inside, rfl⟩]
  rfl

end Twins

end Lox
