import LoxLang.Store

/-!
# Frames that are created, and the walk out of them

A store grows by one frame at a time: the new one has the names and the parent that were asked for,
and all others stay as they are. The walk out of a frame depends on the parents of the frames alone;
from an outermost frame it leads nowhere.
-/

namespace LoxLang

namespace Store

variable {α : Type}

theorem getElem?_frames_create (s : Store α) (names : Table α) (parent : Option Nat) (i : Nat) :
    (s.create names parent).2.frames[i]? =
      if i = s.frames.size then some ⟨names, parent⟩ else s.frames[i]? :=
  Array.getElem?_push

/-- The new frame. -/
theorem getElem?_frames_create_size (s : Store α) (names : Table α) (parent : Option Nat) :
    (s.create names parent).2.frames[s.frames.size]? = some ⟨names, parent⟩ := by
  rw [getElem?_frames_create, if_pos rfl]

@[simp] theorem size_frames_create (s : Store α) (names : Table α) (parent : Option Nat) :
    (s.create names parent).2.frames.size = s.frames.size + 1 :=
  Array.size_push _

/-- Only the new frame gets a parent. -/
theorem parent?_create (s : Store α) (names : Table α) (parent : Option Nat) (i : Nat) :
    (s.create names parent).2.parent? i = if i = s.frames.size then parent else s.parent? i := by
  rw [parent?, parent?, getElem?_frames_create]
  split <;> rfl

/-- Only the new frame gets names. -/
theorem get?_create (s : Store α) (names : Table α) (parent : Option Nat) (i : Nat)
    (name : String) :
    (s.create names parent).2.get? i name =
      if i = s.frames.size then names.find? name else s.get? i name := by
  rw [get?, get?, getElem?_frames_create]
  split <;> rfl

/-- An outermost frame is the only one in its chain. -/
theorem owner?_of_outermost {s : Store α} {i : Nat} (h : s.parent? i = none) (name : String) :
    s.owner? i name = if (s.get? i name).isSome then some i else none := by
  unfold parent? at h
  unfold owner? get? Table.contains
  generalize s.frames[i]? = o at h ⊢
  cases o with
  | none => rfl
  | some f =>
    change f.parent = none at h
    simp only [h]
    rfl

/-- The walk out of the first frame leads nowhere, since parents are older. -/
theorem owner?_zero (s : Store α) (name : String) :
    s.owner? 0 name = if (s.get? 0 name).isSome then some 0 else none := by
  unfold owner? get? Table.contains
  cases s.frames[0]? with
  | none => rfl
  | some f =>
    change (if (f.names.find? name).isSome then some 0 else _) =
      if (f.names.find? name).isSome then some 0 else none
    cases f.parent with
    | none => rfl
    | some p =>
      dsimp only
      rw [if_neg (Nat.not_lt_zero p)]

theorem eq_of_owner?_zero {s : Store α} {name : String} {i : Nat} (h : s.owner? 0 name = some i) :
    i = 0 := by
  rw [owner?_zero] at h
  split at h
  · exact (Option.some.inj h).symm
  · cases h

theorem read?_of_outermost {s : Store α} {i : Nat} (h : s.parent? i = none) (name : String) :
    s.read? i name = s.get? i name := by
  rw [read?, owner?_of_outermost h]
  cases hv : s.get? i name with
  | none => rfl
  | some v => exact hv

/-- The last step of a walk out of a frame. -/
theorem ancestor?_succ (s : Store α) (d i : Nat) :
    s.ancestor? (d + 1) i = (s.ancestor? d i).bind s.parent? := by
  induction d generalizing i with
  | zero =>
    rw [ancestor?, ancestor?, Option.bind_some]
    cases s.parent? i <;> rfl
  | succ d ih =>
    rw [ancestor?, ancestor?]
    cases s.parent? i with
    | none => rfl
    | some p => exact ih p

/-- Stores whose frames have the same parents have the same chains. -/
theorem ancestor?_congr {β : Type} {s : Store α} {s' : Store β}
    (h : ∀ i, s'.parent? i = s.parent? i) (d i : Nat) : s'.ancestor? d i = s.ancestor? d i := by
  induction d generalizing i with
  | zero => rfl
  | succ d ih =>
    rw [ancestor?, ancestor?, h]
    cases s.parent? i with
    | none => rfl
    | some p => exact ih p

end Store

end LoxLang
