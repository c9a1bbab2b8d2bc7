import Lox.Objects
import Lox.Proofs.Relabelling.Machines

/-!
# Operations on machines with other labels

One computation follows another if, on machines that differ in their labels, it ends as the other
does (`Follows`): with related values, or with the same failure, blamed on its other line. If it may
have more fuel, it need not end where the other runs out of fuel. The operations of a machine follow
themselves.
-/

namespace Lox

section
variable (C : Comparison) {α β γ δ : Type}

/-- The results are the same end, unless the first is none at all and the second machine may have
more fuel. -/
inductive EndsAlike (Q : α → β → Prop) :
    EStateM.Result Stop Machine α → EStateM.Result Stop Machine β → Prop
  | ok {a : α} {b : β} {m m' : Machine} (machines : m.Relabelled C m') (related : Q a b) :
    EndsAlike Q (.ok a m) (.ok b m')
  | failed {m m' : Machine} (machines : m.Relabelled C m') {f f' : Failure}
    (failures : f.Relabelled C f') : EndsAlike Q (.error (.failed f) m) (.error (.failed f') m')
  | outOfFuel {m : Machine} {r : EStateM.Result Stop Machine β}
    (both : C.moreFuel ∨ ∃ m', r = .error .outOfFuel m') : EndsAlike Q (.error .outOfFuel m) r

/-- On a machine with other labels, `x'` ends as `x` does. -/
def Follows (Q : α → β → Prop) (x : Eval α) (x' : Eval β) : Prop :=
  ∀ m m', Machine.Relabelled C m m' → EndsAlike C Q (x m) (x' m')

end

namespace Follows

variable {C : Comparison} {R : Relabelling} {α β γ δ : Type} {P : α → β → Prop} {Q : γ → δ → Prop}

/-! ## Sequencing -/

theorem pure {a : α} {b : β} (h : P a b) : Follows C P (pure a) (pure b) :=
  fun _ _ machines => .ok machines h

theorem fail (relabels : C.relabels R) (blamed : Lexeme) (cause : RuntimeCause) :
    Follows C P (Eval.fail blamed cause) (Eval.fail (blamed.relabel R) cause) :=
  fun _ _ machines => .failed machines (.runtime relabels ⟨cause, blamed.line⟩)

theorem outOfFuel {n' : Nat} (fuels : C.Fuels 0 n') {x' : Eval β}
    (none : n' = 0 → x' = throw .outOfFuel) : Follows C P (throw .outOfFuel) x' := by
  intro m m' _
  obtain empty | ⟨more, -⟩ := fuels
  · rw [none empty]
    exact .outOfFuel (.inr ⟨m', rfl⟩)
  · exact .outOfFuel (.inl more)

theorem bind {x : Eval α} {x' : Eval β} {f : α → Eval γ} {f' : β → Eval δ}
    (hx : Follows C P x x') (hf : ∀ a b, P a b → Follows C Q (f a) (f' b)) :
    Follows C Q (x >>= f) (x' >>= f') := by
  intro m m' machines
  have first := hx m m' machines
  generalize e : x m = r at first
  generalize e' : x' m' = r' at first
  cases first with
  | ok machines related =>
    rw [bind_of_ok e, bind_of_ok e']
    exact hf _ _ related _ _ machines
  | failed machines failures =>
    rw [bind_of_error e, bind_of_error e']
    exact .failed machines failures
  | outOfFuel both =>
    rw [bind_of_error e]
    exact .outOfFuel (both.imp_right fun ⟨m', empty⟩ =>
      ⟨m', bind_of_error (e'.trans empty)⟩)

theorem within {body : Eval α} {body' : Eval β} (h : Follows C P body body') (frame : FrameId) :
    Follows C P (Eval.within frame body) (Eval.within frame body') := by
  intro m m' machines
  have inner := h _ _ (machines.inFrame frame)
  have current : m'.current = m.current := by
    obtain ⟨-, -⟩ := machines
    rfl
  unfold Eval.within
  dsimp only
  rw [current]
  generalize body { m with current := frame } = r at inner ⊢
  generalize body' { m' with current := frame } = r' at inner ⊢
  cases inner with
  | ok machines related => exact .ok (machines.inFrame m.current) related
  | failed machines failures => exact .failed (machines.inFrame m.current) failures
  | outOfFuel both =>
    refine .outOfFuel (both.imp_right ?_)
    rintro ⟨m', rfl⟩
    exact ⟨_, rfl⟩

/-- A computation may read the machine. -/
theorem get {f : Machine → Eval α} {f' : Machine → Eval β}
    (h : ∀ m m', Machine.Relabelled C m m' → EndsAlike C P (f m m) (f' m' m')) :
    Follows C P (get >>= f) (get >>= f') :=
  h

theorem currentFrame :
    Follows C (fun frame frame' => frame' = frame) Eval.currentFrame Eval.currentFrame := by
  rintro m _ ⟨heap, distances⟩
  exact .ok (.intro heap distances) rfl

theorem freshIdentity : Follows C (fun identity identity' => identity' = identity)
    Eval.freshIdentity Eval.freshIdentity := by
  rintro m _ ⟨heap, distances⟩
  exact .ok (.intro heap distances) rfl

/-! ## The heap -/

theorem modifyHeap {f f' : Heap → Heap}
    (h : ∀ H H', Heap.Relabelled C H H' → (f H).Relabelled C (f' H')) :
    Follows C (fun _ _ => True) (Eval.modifyHeap f) (Eval.modifyHeap f') := by
  rintro m _ ⟨heap, distances⟩
  exact .ok (.intro (h _ _ heap) distances) trivial

theorem newFrame (outer : FrameId) : Follows C (fun frame frame' => frame' = frame)
    (Eval.newFrame outer) (Eval.newFrame outer) := by
  rintro m _ ⟨heap, distances⟩
  exact .ok (.intro (heap.push (some outer)) distances) heap.size

theorem newInstance {c c' : Class} (h : c.Relabelled C c') :
    Follows C (Instance.Relabelled C) (Eval.newInstance c) (Eval.newInstance c') := by
  rintro m _ ⟨heap, distances⟩
  exact .ok (.intro heap.pushInstance distances) ⟨heap.instances, h⟩

theorem setProperty {o o' : Instance} (ho : o.Relabelled C o') {v v' : Value}
    (hv : v.Relabelled C v') (name : Lexeme) : Follows C (fun _ _ => True)
      (Eval.setProperty o name v) (Eval.setProperty o' (name.relabel R) v') := by
  unfold Eval.setProperty
  rw [ho.identity]
  exact modifyHeap fun _ _ heap => heap.setField hv o.identity name.text

/-! ## Input and output -/

theorem write (text : String) :
    Follows C (fun _ _ => True) (Eval.write text) (Eval.write text) := by
  rintro m _ ⟨heap, distances⟩
  unfold Eval.write
  dsimp only
  split
  · split
    · exact .failed (.intro heap distances) (.io .sinkFull)
    · exact .ok (.intro heap distances) trivial
  · exact .ok (.intro heap distances) trivial

theorem flush : Follows C (fun _ _ => True) Eval.flush Eval.flush := by
  rintro m _ ⟨heap, distances⟩
  unfold Eval.flush
  dsimp only
  split
  · exact .failed (.intro heap distances) (.io .flushFailed)
  · exact .ok (.intro heap distances) trivial

theorem readClock : Follows C (Value.Relabelled C) Eval.readClock Eval.readClock := by
  rintro m _ ⟨heap, distances⟩
  exact .ok (.intro heap distances) (.plain trivial)

/-! ## Variables -/

theorem lookUp {id : ExprId} (fits : C.Fits R [id]) (name : Lexeme) :
    Follows C (Value.Relabelled C) (Eval.lookUp id name)
      (Eval.lookUp (R.id id) (name.relabel R)) := by
  rintro m _ ⟨heap, distances⟩
  have found := heap.get? m.globals name.text
  unfold Eval.lookUp
  simp only [distances, fits.head, Lexeme.text_relabel]
  split
  · rename_i distance _
    exact .ok (.intro heap distances) (heap.getAt m.current distance name.text)
  · generalize m.heap.get? m.globals name.text = v at found ⊢
    generalize Heap.get? _ m.globals name.text = v' at found ⊢
    cases found with
    | none =>
      exact fail fits.relabels name (.undefinedVariable name.text) m _ (.intro heap distances)
    | some hv => exact .ok (.intro heap distances) hv

theorem lookUpAt (distance : Nat) (name : String) :
    Follows C (Value.Relabelled C) (Eval.lookUpAt distance name)
      (Eval.lookUpAt distance name) := by
  rintro m _ ⟨heap, distances⟩
  exact .ok (.intro heap distances) (heap.getAt m.current distance name)

theorem assignFrom (relabels : C.relabels R) {v v' : Value} (hv : v.Relabelled C v')
    (frame : FrameId) (name : Lexeme) : Follows C (fun _ _ => True)
      (Eval.assignFrom frame name v) (Eval.assignFrom frame (name.relabel R) v') := by
  rintro m _ ⟨heap, distances⟩
  unfold Eval.assignFrom
  simp only [Lexeme.text_relabel, heap.holder?_eq]
  split
  · rename_i holder _
    exact .ok (.intro (heap.define hv holder name.text) distances) trivial
  · exact fail relabels name (.undefinedVariable name.text) m _ (.intro heap distances)

theorem assign {id : ExprId} (fits : C.Fits R [id]) {v v' : Value} (hv : v.Relabelled C v')
    (name : Lexeme) : Follows C (fun _ _ => True) (Eval.assign id name v)
      (Eval.assign (R.id id) (name.relabel R) v') := by
  rintro m _ ⟨heap, distances⟩
  unfold Eval.assign
  simp only [distances, fits.head]
  split
  · rename_i distance _
    unfold Heap.assignAt
    rw [Heap.ancestor_congr heap.link]
    exact .ok (.intro (heap.define hv _ name.text) rfl) trivial
  · exact assignFrom fits.relabels hv m.globals name m _ (.intro heap distances)

theorem define {v v' : Value} (hv : v.Relabelled C v') (name : Lexeme) :
    Follows C (fun _ _ => True) (Eval.define name v) (Eval.define (name.relabel R) v') := by
  rintro m _ ⟨heap, distances⟩
  exact .ok (.intro (heap.define hv m.current name.text) distances) trivial

theorem declare (name : Lexeme) :
    Follows C (fun _ _ => True) (Eval.declare name) (Eval.declare (name.relabel R)) := by
  rintro m _ ⟨heap, distances⟩
  exact .ok (.intro (heap.declare m.current name.text) distances) trivial

/-! ## Functions, classes and instances -/

theorem bindMethod {f f' : Function} (hf : f.Relabelled C f') {o o' : Instance}
    (ho : o.Relabelled C o') :
    Follows C (Function.Relabelled C) (Eval.bind f o) (Eval.bind f' o') := by
  obtain ⟨f, fits⟩ := hf
  unfold Eval.bind
  refine (newFrame f.closure).bind ?_
  rintro _ frame rfl
  refine (modifyHeap fun _ _ heap => heap.define (.instance ho) _ "this").bind fun _ _ _ => ?_
  refine freshIdentity.bind ?_
  rintro _ identity rfl
  exact pure (.intro { f with identity := identity, closure := frame } fits)

theorem property (relabels : C.relabels R) {o o' : Instance} (ho : o.Relabelled C o')
    (name : Lexeme) : Follows C (Value.Relabelled C) (Eval.property o name)
      (Eval.property o' (name.relabel R)) := by
  unfold Eval.property
  refine get fun m m' machines => ?_
  have field := machines.field o.identity name.text
  have method := ho.ofClass.methods name.text
  simp only [ho.identity, Lexeme.text_relabel]
  generalize m.heap.field? o.identity name.text = v at field ⊢
  generalize m'.heap.field? o.identity name.text = v' at field ⊢
  cases field with
  | some hv => exact pure hv m m' machines
  | none =>
    generalize o.ofClass.method? name.text = f at method ⊢
    generalize o'.ofClass.method? name.text = f' at method ⊢
    cases method with
    | none => exact fail relabels name (.undefinedProperty name.text) m m' machines
    | some hf =>
      exact bind (bindMethod hf ho) (fun _ _ hg => pure (.function hg)) m m' machines

theorem superMethod {id : ExprId} (fits : C.Fits R [id]) (keyword method : Lexeme) :
    Follows C (Value.Relabelled C) (Eval.superMethod id keyword method)
      (Eval.superMethod (R.id id) (keyword.relabel R) (method.relabel R)) := by
  unfold Eval.superMethod
  refine get fun m m' machines => ?_
  rw [machines.distances_eq.1, machines.distances_eq.2, fits.head]
  rcases C.distances[id]? with _ | _ | distance
  · exact fail fits.relabels keyword .superOutsideClass m m' machines
  · exact fail fits.relabels keyword .superOutsideClass m m' machines
  · refine bind (lookUpAt (distance + 1) "super") (fun v v' hv => ?_) m m' machines
    refine bind (lookUpAt distance "this") fun w w' hw => ?_
    have missing :=
      fail (P := Value.Relabelled C) fits.relabels method (.undefinedProperty method.text)
    cases hv with
    | plain hv =>
      cases v with
      | «class» _ => exact hv.elim
      | _ => exact missing
    | function _ | «instance» _ => exact missing
    | @«class» c c' hc =>
      cases hw with
      | plain hw =>
        cases w with
        | «instance» _ => exact hw.elim
        | _ => exact missing
      | function _ | «class» _ => exact missing
      | @«instance» o o' ho =>
        have found := hc.methods method.text
        simp only [Lexeme.text_relabel]
        generalize c.method? method.text = f at found ⊢
        generalize c'.method? method.text = f' at found ⊢
        cases found with
        | none => exact missing
        | some hf => exact (bindMethod hf ho).bind fun _ _ hg => pure (.function hg)

theorem declareFunction {decl : FunctionDecl} (fits : C.Fits R decl.ids) :
    Follows C (fun _ _ => True) (Eval.declareFunction decl)
      (Eval.declareFunction (decl.relabel R)) := by
  unfold Eval.declareFunction
  rw [decl.name_relabel]
  refine (declare decl.name).bind fun _ _ _ => ?_
  refine currentFrame.bind ?_
  rintro _ frame rfl
  refine freshIdentity.bind ?_
  rintro _ identity rfl
  exact assignFrom fits.relabels (.function (.intro ⟨identity, decl, frame, false⟩ fits)) frame
    decl.name

theorem declareMethods {methods : List FunctionDecl}
    (fits : C.Fits R (FunctionDecl.idsList methods)) {table table' : Std.TreeMap String Function}
    (before : ∀ name : String, Option.Rel (Function.Relabelled C) table[name]? table'[name]?) :
    Follows C (fun t t' => ∀ name : String, Option.Rel (Function.Relabelled C) t[name]? t'[name]?)
      (Eval.declareMethods methods table)
      (Eval.declareMethods (FunctionDecl.relabelList R methods) table') := by
  induction methods generalizing table table' with
  | nil => exact pure before
  | cons decl decls ih =>
    obtain ⟨own, others⟩ := fits.append
    unfold Eval.declareMethods
    refine freshIdentity.bind ?_
    rintro _ identity rfl
    refine currentFrame.bind ?_
    rintro _ frame rfl
    refine ih others fun name => ?_
    rw [decl.name_relabel]
    simp only [Std.TreeMap.getElem?_insert, Lexeme.text_relabel]
    split
    · exact .some (.intro ⟨identity, decl, frame, decl.name.text = initializerName⟩ own)
    · exact before name

theorem superclassOf (name : Lexeme) {superclass : Option Superclass}
    (fits : C.Fits R (superclass.map Superclass.id).toList) :
    Follows C (Option.Rel (Class.Relabelled C)) (Eval.superclassOf name superclass)
      (Eval.superclassOf (name.relabel R) (superclass.map (Superclass.relabel R))) := by
  cases superclass with
  | none => exact pure .none
  | some s =>
    have notClass := fail (P := Option.Rel (Class.Relabelled C)) fits.relabels name
      .superclassNotClass
    refine (lookUp fits s.name).bind fun v v' hv => ?_
    cases hv with
    | plain hv =>
      cases v with
      | «class» _ => exact hv.elim
      | _ => exact notClass
    | function _ | «instance» _ => exact notClass
    | «class» hc => exact pure (.some hc)

theorem inMethodFrame {c c' : Option Class} (hc : Option.Rel (Class.Relabelled C) c c')
    {body : Eval α} {body' : Eval β} (h : Follows C P body body') :
    Follows C P (Eval.inMethodFrame c body) (Eval.inMethodFrame c' body') := by
  cases hc with
  | none => exact h
  | some hc =>
    refine currentFrame.bind ?_
    rintro _ outer rfl
    refine (newFrame outer).bind ?_
    rintro _ frame rfl
    refine (modifyHeap fun _ _ heap => heap.define (.class hc) frame "super").bind fun _ _ _ => ?_
    exact h.within frame

theorem declareClass (name : Lexeme) {superclass : Option Superclass}
    {methods : List FunctionDecl}
    (fits : C.Fits R ((superclass.map Superclass.id).toList ++ FunctionDecl.idsList methods)) :
    Follows C (fun _ _ => True) (Eval.declareClass name superclass methods)
      (Eval.declareClass (name.relabel R) (superclass.map (Superclass.relabel R))
        (FunctionDecl.relabelList R methods)) := by
  obtain ⟨above, own⟩ := fits.append
  unfold Eval.declareClass
  refine (declare name).bind fun _ _ _ => ?_
  refine (superclassOf name above).bind fun c c' hc => ?_
  have none (name : String) : Option.Rel (Function.Relabelled C)
      (∅ : Std.TreeMap String Function)[name]? (∅ : Std.TreeMap String Function)[name]? := by
    rw [Std.TreeMap.getElem?_emptyc]
    exact .none
  refine (inMethodFrame hc (declareMethods own none)).bind fun table table' same => ?_
  refine currentFrame.bind ?_
  rintro _ frame rfl
  refine freshIdentity.bind ?_
  rintro _ identity rfl
  have made : Class.Relabelled C ⟨identity, name.text, c, table⟩
      ⟨identity, name.text, c', table'⟩ := by
    refine ⟨rfl, rfl, fun other => ?_⟩
    have found := same other
    unfold Class.method?
    generalize table[other]? = f at found ⊢
    generalize table'[other]? = f' at found ⊢
    cases found with
    | some hf => exact .some hf
    | none =>
      cases hc with
      | none => exact .none
      | some hc => exact hc.methods other
  exact assignFrom fits.relabels (.class made) frame name

end Follows

end Lox
