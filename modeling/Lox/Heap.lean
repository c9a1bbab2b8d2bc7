import Lox.Value

/-!
# The heap

Frames of bindings, each with a link to the frame that encloses it, and the fields of instances.
A frame or instance, once made, keeps its number. Links lead to frames made earlier, so that a
walk outward ends.

A name is looked up either through all frames on the way outward (`get?`, `assign?`), or in the
frame a given distance out (`getAt`, `assignAt`). A distance that leads past the last frame stops
there.
-/

namespace Lox

/-- Names and their values. -/
abbrev Bindings := Std.TreeMap String Value

/-- A frame: its bindings, and the frame around it. -/
structure Frame where
  bindings : Bindings
  enclosing : Option FrameId

/-- All frames, and the fields of all instances, by their numbers. -/
structure Heap where
  frames : Array Frame
  fields : Array Bindings

namespace Heap

/-- Nothing has been made. -/
def empty : Heap :=
  ⟨#[], #[]⟩

/-! ## Frames -/

/-- Adds a frame; its number is the number of frames so far. -/
def push (h : Heap) (enclosing : Option FrameId) : Heap :=
  { h with frames := h.frames.push ⟨∅, enclosing⟩ }

/-- The frame around a frame. -/
def enclosing? (h : Heap) (f : FrameId) : Option FrameId :=
  h.frames[f]?.bind Frame.enclosing

/-- Binds a name in a frame, whether or not it is bound there already. -/
def define (h : Heap) (f : FrameId) (name : String) (v : Value) : Heap :=
  { h with frames := h.frames.modify f fun frame =>
      { frame with bindings := frame.bindings.insert name v } }

/-- Binds a name to `nil` in a frame, unless it is bound there already. -/
def declare (h : Heap) (f : FrameId) (name : String) : Heap :=
  { h with frames := h.frames.modify f fun frame =>
      { frame with bindings := frame.bindings.insertIfNew name .nil } }

/-- The value of a name in one frame. -/
def lookup? (h : Heap) (f : FrameId) (name : String) : Option Value :=
  h.frames[f]?.bind (·.bindings[name]?)

/-! ## Names, from a frame outward -/

/-- The nearest frame, from `f` outward, that binds the name. -/
def holder? (h : Heap) (f : FrameId) (name : String) : Option FrameId :=
  match h.frames[f]? with
  | none => none
  | some frame =>
    if frame.bindings.contains name then
      some f
    else
      match frame.enclosing with
      | none => none
      | some outer => if outer < f then h.holder? outer name else none
termination_by f

/-- The value of a name in the nearest frame that binds it. -/
def get? (h : Heap) (f : FrameId) (name : String) : Option Value :=
  (h.holder? f name).bind (h.lookup? · name)

/-- Binds a name anew in the nearest frame that binds it. -/
def assign? (h : Heap) (f : FrameId) (name : String) (v : Value) : Option Heap :=
  (h.holder? f name).map (h.define · name v)

/-! ## Names, a distance out -/

/-- The frame `distance` links out from `f`, or the last one before that. -/
def ancestor (h : Heap) (f : FrameId) : Nat → FrameId
  | 0 => f
  | distance + 1 =>
    match h.enclosing? f with
    | some outer => h.ancestor outer distance
    | none => f

/-- The value of a name in the frame `distance` links out; `nil` if it is not bound there. -/
def getAt (h : Heap) (f : FrameId) (distance : Nat) (name : String) : Value :=
  (h.lookup? (h.ancestor f distance) name).getD .nil

/-- Binds a name in the frame `distance` links out. -/
def assignAt (h : Heap) (f : FrameId) (distance : Nat) (name : String) (v : Value) : Heap :=
  h.define (h.ancestor f distance) name v

/-! ## Instances -/

/-- Adds an instance without fields; its number is the number of instances so far. -/
def pushInstance (h : Heap) : Heap :=
  { h with fields := h.fields.push ∅ }

/-- The value of a field. -/
def field? (h : Heap) (o : InstanceId) (name : String) : Option Value :=
  h.fields[o]?.bind (·[name]?)

/-- Sets a field. -/
def setField (h : Heap) (o : InstanceId) (name : String) (v : Value) : Heap :=
  { h with fields := h.fields.modify o (·.insert name v) }

/-! ## The text of a frame -/

/-- The names that a frame binds, in order, and whether another frame is around it. -/
def frameText (h : Heap) (f : FrameId) : String :=
  let names := ((h.frames[f]?.map (·.bindings.keys)).getD []).map Text.Quoted.debug
  "Environment \x7b names: [" ++ ", ".intercalate names ++ "], has_enclosing: " ++
    (if (h.enclosing? f).isSome then "true" else "false") ++ " \x7d"

end Heap

end Lox
