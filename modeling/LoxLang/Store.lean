import LoxLang.Table

/-!
# Stores of frames

A `Store` holds the frames of a running program. A frame has a table of names and, unless it is
outermost, a parent created before it; the frames from a frame on outwards are its chain. A name is
reached in two ways: by walking the chain to the first frame that has it (`read?`, `assign?`), or in
the frame at a known distance (`readAt?`, `writeAt?`). All writes are `define` in some frame, which
changes one name there (`get?_define`) and no parent (`parent?_define`).
-/

namespace LoxLang

/-- A table of names inside another frame, or outermost. -/
structure Frame (α : Type) where
  names : Table α
  parent : Option Nat

/-- Frames, numbered in the order of their creation. -/
structure Store (α : Type) where
  frames : Array (Frame α)

namespace Store

variable {α : Type}

/-- The store without frames. -/
def empty : Store α := ⟨#[]⟩

/-- Adds a frame with the given names, and returns its number. -/
def create (s : Store α) (names : Table α) (parent : Option Nat) : Nat × Store α :=
  (s.frames.size, ⟨s.frames.push ⟨names, parent⟩⟩)

/-- The frame around a frame. -/
def parent? (s : Store α) (frame : Nat) : Option Nat := s.frames[frame]?.bind Frame.parent

/-- The value of a name in one frame. -/
def get? (s : Store α) (frame : Nat) (name : String) : Option α :=
  s.frames[frame]?.bind (·.names.find? name)

/-- Gives a name a value in one frame. -/
def define (s : Store α) (frame : Nat) (name : String) (value : α) : Store α :=
  ⟨s.frames.modify frame fun f => { f with names := f.names.insert name value }⟩

/-- The first frame of a chain that has a name. Parents are older than their children, so the walk
ends. -/
def owner? (s : Store α) (frame : Nat) (name : String) : Option Nat :=
  match s.frames[frame]? with
  | none => none
  | some f =>
    if f.names.contains name then some frame
    else match f.parent with
      | none => none
      | some p => if p < frame then s.owner? p name else none
termination_by frame

/-- The value of a name in the first frame of a chain that has it. -/
def read? (s : Store α) (frame : Nat) (name : String) : Option α :=
  (s.owner? frame name).bind (s.get? · name)

/-- Gives a name a new value in the first frame of a chain that has it. -/
@[inline] def assign? (s : Store α) (frame : Nat) (name : String) (value : α) : Option (Store α) :=
  (s.owner? frame name).map (s.define · name value)

/-- The frame a number of steps out from a frame. -/
def ancestor? (s : Store α) : Nat → Nat → Option Nat
  | 0, frame => some frame
  | distance + 1, frame =>
    match s.parent? frame with
    | none => none
    | some p => s.ancestor? distance p

/-- The value of a name in the frame at a distance. -/
def readAt? (s : Store α) (distance frame : Nat) (name : String) : Option α :=
  (s.ancestor? distance frame).bind (s.get? · name)

/-- Gives a name a value in the frame at a distance. -/
@[inline] def writeAt? (s : Store α) (distance frame : Nat) (name : String) (value : α) :
    Option (Store α) :=
  (s.ancestor? distance frame).map (s.define · name value)

/-- A definition touches one frame only. -/
theorem getElem?_frames_define (s : Store α) (frame i : Nat) (name : String) (value : α) :
    (s.define frame name value).frames[i]? =
      if frame = i then
        s.frames[i]?.map fun f => { f with names := f.names.insert name value }
      else s.frames[i]? :=
  Array.getElem?_modify

/-- A definition adds no frame. -/
@[simp] theorem size_frames_define (s : Store α) (frame : Nat) (name : String) (value : α) :
    (s.define frame name value).frames.size = s.frames.size :=
  Array.size_modify

/-- A definition moves no frame. -/
@[simp] theorem parent?_define (s : Store α) (frame i : Nat) (name : String) (value : α) :
    (s.define frame name value).parent? i = s.parent? i := by
  rw [parent?, parent?, getElem?_frames_define]
  split
  · cases s.frames[i]? <;> rfl
  · rfl

/-- A definition gives one name of one frame a value, and does nothing if there is no such frame. -/
theorem get?_define (s : Store α) (frame i : Nat) (name key : String) (value : α) :
    (s.define frame name value).get? i key =
      if frame = i ∧ name = key ∧ frame < s.frames.size then some value else s.get? i key := by
  rw [get?, get?, getElem?_frames_define]
  by_cases h : frame = i
  · subst h
    cases hf : s.frames[frame]? with
    | none =>
      have : ¬ frame < s.frames.size := fun hlt => by
        rw [Array.getElem?_eq_getElem hlt] at hf
        cases hf
      simp [this]
    | some f =>
      have hlt : frame < s.frames.size := (Array.getElem?_eq_some_iff.1 hf).1
      simp [hlt, Table.find?_insert]
  · simp [h]

end Store

end LoxLang
