import LoxLang.Proofs.Run.Frames
import LoxLang.Proofs.Run.Step
import LoxLang.Proofs.Safety.Nesting

/-!
# Chains of frames and contexts

The frame of a receiver has one entry, an instance under `this`, and the frame of a superclass has
one entry, a class under `super`: these frames are sealed, and all others are open. A frame fits a
context if the chain that begins with it has a frame for every scope of the context (`Store.Fits`):
each holds the names declared in its scope but for the one that is not ready, and it is sealed if
the scope is that of a receiver or a superclass. Stores only grow (`Store.Grows`): frames stay,
names stay, and sealed frames stay as they are. So a frame that fits a context goes on to do so.
-/

namespace LoxLang

/-- A table with one entry has that value alone. -/
theorem Table.find?_single {α : Type} {name x : String} {a b : α}
    (h : (Table.single name a).find? x = some b) : b = a := by
  unfold Table.single Table.find? Table.findIn at h
  split at h
  · exact (Option.some.inj h).symm
  · cases h

namespace Frame

/-- The frame of a receiver. -/
def receiver (o : Object) (parent : Nat) : Frame Value :=
  ⟨.single thisName (.object o), some parent⟩

/-- The frame of a superclass. -/
def superclass (c : Class) (parent : Nat) : Frame Value := ⟨.single superName (.cls c), some parent⟩

/-- A frame for one word alone. -/
inductive Sealed : Frame Value → Prop
  | receiver (o : Object) (parent : Nat) : Sealed (.receiver o parent)
  | superclass (c : Class) (parent : Nat) : Sealed (.superclass c parent)

/-- A frame for names, to which `this` and `super` do not belong. -/
structure Open (f : Frame Value) : Prop where
  this : f.names.find? thisName = none
  super : f.names.find? superName = none

theorem Open.empty (parent : Option Nat) : Open ⟨.empty, parent⟩ := ⟨rfl, rfl⟩

/-- Another name may be added to an open frame. -/
theorem Open.insert {f : Frame Value} (h : f.Open) {name : String} (v : Value)
    (hname : name ≠ thisName ∧ name ≠ superName) :
    Open { f with names := f.names.insert name v } where
  this := by rw [Table.find?_insert, if_neg hname.1, h.this]
  super := by rw [Table.find?_insert, if_neg hname.2, h.super]

theorem Sealed.not_open {f : Frame Value} (h : f.Sealed) : ¬ f.Open := by
  intro hopen
  cases h with
  | receiver => cases hopen.this
  | superclass => cases hopen.super

end Frame

namespace Store

/-- The frame is one of the store, and open. -/
def OpenAt (s : Store Value) (frame : Nat) : Prop := ∃ f, s.frames[frame]? = some f ∧ f.Open

theorem OpenAt.lt {s : Store Value} {frame : Nat} (h : s.OpenAt frame) : frame < s.frames.size := by
  obtain ⟨f, hf, -⟩ := h
  exact (Array.getElem?_eq_some_iff.1 hf).1

/-- What is read in the frame of a receiver. -/
theorem get?_receiver {s : Store Value} {frame parent : Nat} {o : Object}
    (h : s.frames[frame]? = some (.receiver o parent)) :
    s.get? frame thisName = some (.object o) := by
  rw [get?, h]
  rfl

/-- What is read in the frame of a superclass. -/
theorem get?_superclass {s : Store Value} {frame parent : Nat} {c : Class}
    (h : s.frames[frame]? = some (.superclass c parent)) :
    s.get? frame superName = some (.cls c) := by
  rw [get?, h]
  rfl

/-- A frame holds what its scope promises. -/
structure Holds (s : Store Value) (frame : Nat) (sc : Scope) : Prop where
  names : ∀ x ∈ sc.names, sc.pending ≠ some x → (s.get? frame x).isSome
  receiver : sc.kind = .receiver → ∃ o p, s.frames[frame]? = some (.receiver o p)
  superclass : sc.kind = .superclass → ∃ c p, s.frames[frame]? = some (.superclass c p)
  opened : sc.kind ≠ .receiver → sc.kind ≠ .superclass → s.OpenAt frame

/-- The chain that begins with a frame has a frame for every scope of a context. -/
inductive Fits (s : Store Value) : Nat → Context → Prop
  | global : s.OpenAt Machine.globalFrame → Fits s Machine.globalFrame []
  | inside {frame parent : Nat} {sc : Scope} {Γ : Context} : s.parent? frame = some parent →
      s.Holds frame sc → Fits s parent Γ → Fits s frame (sc :: Γ)

/-- A later store has all frames and names of an earlier one. Open frames are still open, and sealed
frames have not changed. -/
structure Grows (s s' : Store Value) : Prop where
  size : s.frames.size ≤ s'.frames.size
  parents : ∀ i p, s.parent? i = some p → s'.parent? i = some p
  names : ∀ i x, (s.get? i x).isSome → (s'.get? i x).isSome
  opened : ∀ i, s.OpenAt i → s'.OpenAt i
  sealed : ∀ (i : Nat) (f : Frame Value), s.frames[i]? = some f → f.Sealed → s'.frames[i]? = some f

namespace Grows

variable {s s' s'' : Store Value}

theorem refl (s : Store Value) : s.Grows s :=
  ⟨Nat.le_refl _, fun _ _ h => h, fun _ _ h => h, fun _ h => h, fun _ _ h _ => h⟩

theorem trans (h : s.Grows s') (h' : s'.Grows s'') : s.Grows s'' where
  size := Nat.le_trans h.size h'.size
  parents i p hp := h'.parents i p (h.parents i p hp)
  names i x hx := h'.names i x (h.names i x hx)
  opened i hi := h'.opened i (h.opened i hi)
  sealed i f hf hsealed := h'.sealed i f (h.sealed i f hf hsealed) hsealed

/-- A definition of a name of the program in an open frame. -/
theorem define {frame : Nat} (hopen : s.OpenAt frame) {name : String} (v : Value)
    (hname : name ≠ thisName ∧ name ≠ superName) : s.Grows (s.define frame name v) where
  size := Nat.le_of_eq (s.size_frames_define frame name v).symm
  parents i p hp := by rwa [parent?_define]
  names i x hx := by
    rw [get?_define]
    split
    · rfl
    · exact hx
  opened i hi := by
    obtain ⟨f, hf, ho⟩ := hi
    unfold OpenAt
    rw [getElem?_frames_define, hf]
    split
    · exact ⟨_, rfl, ho.insert v hname⟩
    · exact ⟨f, rfl, ho⟩
  sealed i f hf hsealed := by
    rw [getElem?_frames_define, if_neg]
    · exact hf
    · rintro rfl
      obtain ⟨f', hf', ho⟩ := hopen
      rw [hf] at hf'
      cases hf'
      exact hsealed.not_open ho

/-- A frame that is looked up is one of the store. -/
theorem lt_of_get? {i : Nat} {x : String} {v : Value} (h : s.get? i x = some v) :
    i < s.frames.size := by
  unfold get? at h
  cases hf : s.frames[i]? with
  | none =>
    rw [hf] at h
    cases h
  | some f => exact (Array.getElem?_eq_some_iff.1 hf).1

theorem lt_of_parent? {i p : Nat} (h : s.parent? i = some p) : i < s.frames.size := by
  unfold parent? at h
  cases hf : s.frames[i]? with
  | none =>
    rw [hf] at h
    cases h
  | some f => exact (Array.getElem?_eq_some_iff.1 hf).1

theorem create (s : Store Value) (names : Table Value) (parent : Option Nat) :
    s.Grows (s.create names parent).2 where
  size := by
    rw [size_frames_create]
    exact Nat.le_succ _
  parents i p hp := by
    rwa [parent?_create, if_neg (Nat.ne_of_lt (lt_of_parent? hp))]
  names i x hx := by
    obtain ⟨v, hv⟩ := Option.isSome_iff_exists.1 hx
    rwa [get?_create, if_neg (Nat.ne_of_lt (lt_of_get? hv))]
  opened i hi := by
    have hlt := hi.lt
    obtain ⟨f, hf, ho⟩ := hi
    exact ⟨f, by rwa [getElem?_frames_create, if_neg (Nat.ne_of_lt hlt)], ho⟩
  sealed i f hf _ := by
    rwa [getElem?_frames_create, if_neg (Nat.ne_of_lt (Array.getElem?_eq_some_iff.1 hf).1)]

/-- The chain of a frame stays as it is. -/
theorem ancestor? (h : s.Grows s') {d i j : Nat} (ha : s.ancestor? d i = some j) :
    s'.ancestor? d i = some j := by
  induction d generalizing i with
  | zero => exact ha
  | succ d ih =>
    unfold Store.ancestor? at ha ⊢
    cases hp : s.parent? i with
    | none =>
      rw [hp] at ha
      cases ha
    | some p =>
      rw [hp] at ha
      rw [h.parents i p hp]
      exact ih ha

end Grows

namespace Holds

variable {s s' : Store Value} {frame : Nat} {sc : Scope}

/-- The frame of a receiver holds what the scope of a receiver promises. -/
theorem of_receiver {o : Object} {parent : Nat}
    (h : s.frames[frame]? = some (.receiver o parent)) : s.Holds frame .receiver where
  names x hx _ := by
    cases List.mem_singleton.1 hx
    rw [get?_receiver h]
    rfl
  receiver _ := ⟨o, parent, h⟩
  superclass := nofun
  opened hkind := absurd rfl hkind

/-- The frame of a superclass holds what the scope of a superclass promises. -/
theorem of_superclass {c : Class} {parent : Nat}
    (h : s.frames[frame]? = some (.superclass c parent)) : s.Holds frame .superclass where
  names x hx _ := by
    cases List.mem_singleton.1 hx
    rw [get?_superclass h]
    rfl
  receiver := nofun
  superclass _ := ⟨c, parent, h⟩
  opened _ hkind := absurd rfl hkind

theorem mono (h : s.Holds frame sc) (hg : s.Grows s') : s'.Holds frame sc where
  names x hx hp := hg.names frame x (h.names x hx hp)
  receiver hk := by
    obtain ⟨o, p, hf⟩ := h.receiver hk
    exact ⟨o, p, hg.sealed frame _ hf (.receiver o p)⟩
  superclass hk := by
    obtain ⟨c, p, hf⟩ := h.superclass hk
    exact ⟨c, p, hg.sealed frame _ hf (.superclass c p)⟩
  opened hr hs := hg.opened frame (h.opened hr hs)

/-- A declared name is there once it has been defined. -/
theorem declare (h : s.Holds frame sc) {name : String} (hname : (s.get? frame name).isSome) :
    s.Holds frame (sc.declare name) where
  names x hx hp := by
    rcases List.mem_cons.1 hx with rfl | hx
    · exact hname
    · by_cases he : x = name
      · rwa [he]
      · refine h.names x hx fun hpx => hp ?_
        rw [Scope.declare, hpx]
        exact if_pos (decide_eq_true he)
  receiver := h.receiver
  superclass := h.superclass
  opened := h.opened

/-- A variable need not be there while its initializer is evaluated. -/
theorem begin (h : s.Holds frame sc) (hsettled : sc.pending = none) (name : String) :
    s.Holds frame (sc.begin name) where
  names x hx hp := by
    have hold : x ∈ sc.names := by
      rcases List.mem_cons.1 hx with rfl | hx
      · by_contra hnew
        refine hp ?_
        unfold Scope.begin
        exact if_neg hnew
      · exact hx
    exact h.names x hold (by rw [hsettled]; nofun)
  receiver := h.receiver
  superclass := h.superclass
  opened := h.opened

end Holds

namespace Fits

variable {s s' : Store Value} {frame : Nat} {Γ : Context}

theorem mono (h : s.Fits frame Γ) (hg : s.Grows s') : s'.Fits frame Γ := by
  induction h with
  | global hopen => exact .global (hg.opened _ hopen)
  | inside hp hsc _ ih => exact .inside (hg.parents _ _ hp) (hsc.mono hg) ih

/-- The frame is one of the store. -/
theorem lt (h : s.Fits frame Γ) : frame < s.frames.size := by
  cases h with
  | global hopen => exact hopen.lt
  | inside hp => exact Grows.lt_of_parent? hp

/-- **A distance in the context leads to a frame that fits what is left of the context.** -/
theorem ancestor? {inner outer : Context} (h : s.Fits frame (inner ++ outer)) :
    ∃ frame', s.ancestor? inner.length frame = some frame' ∧ s.Fits frame' outer := by
  induction inner generalizing frame with
  | nil => exact ⟨frame, rfl, h⟩
  | cons sc inner ih =>
    cases h with
    | inside hp _ h =>
      obtain ⟨frame', ha, hf⟩ := ih h
      refine ⟨frame', ?_, hf⟩
      rw [List.length_cons, Store.ancestor?, hp]
      exact ha

/-- A frame holds what its scope promises. -/
theorem holds {sc : Scope} (h : s.Fits frame (sc :: Γ)) : s.Holds frame sc := by
  cases h with
  | inside _ hsc _ => exact hsc

/-- The innermost scope may promise something else that its frame holds. -/
theorem congr_head {sc sc' : Scope} (h : s.Fits frame (sc :: Γ))
    (hsc : s.Holds frame sc → s.Holds frame sc') : s.Fits frame (sc' :: Γ) := by
  cases h with
  | inside hp hold h => exact .inside hp (hsc hold) h

theorem declare (h : s.Fits frame Γ) {name : String} (hname : (s.get? frame name).isSome) :
    s.Fits frame (Γ.declare name) := by
  cases Γ with
  | nil => exact h
  | cons sc Γ => exact h.congr_head fun hsc => hsc.declare hname

theorem begin (h : s.Fits frame Γ) (hΓ : Γ.Settled) (name : String) :
    s.Fits frame (Γ.begin name) := by
  cases Γ with
  | nil => exact h
  | cons sc Γ => exact h.congr_head fun hsc => hsc.begin (hΓ sc rfl).1 name

/-- A new frame fits the context that has its scope in front. -/
theorem create (h : s.Fits frame Γ) {sc : Scope} {names : Table Value}
    (hsc : (s.create names (some frame)).2.Holds s.frames.size sc) :
    (s.create names (some frame)).2.Fits s.frames.size (sc :: Γ) := by
  refine .inside ?_ hsc (h.mono (.create s names _))
  rw [parent?_create, if_pos rfl]

/-- The frame of a block fits its scope, which is empty at the start. -/
theorem block (h : s.Fits frame Γ) :
    (s.create .empty (some frame)).2.Fits s.frames.size (.block :: Γ) :=
  h.create ⟨nofun, nofun, nofun, fun _ _ =>
    ⟨_, s.getElem?_frames_create_size .empty (some frame), .empty _⟩⟩

/-- A receiver's frame stands in front of the frame that is its parent. -/
theorem receiver {parent : Nat} {o : Object} (hf : s.frames[frame]? = some (.receiver o parent))
    (h : s.Fits parent Γ) : s.Fits frame (.receiver :: Γ) := by
  refine .inside ?_ (.of_receiver hf) h
  rw [parent?, hf]
  rfl

/-- So does the frame of a superclass. -/
theorem superclass {parent : Nat} {c : Class}
    (hf : s.frames[frame]? = some (.superclass c parent)) (h : s.Fits parent Γ) :
    s.Fits frame (.superclass :: Γ) := by
  refine .inside ?_ (.of_superclass hf) h
  rw [parent?, hf]
  rfl

/-- In a nested context, the frame in which code runs is open. -/
theorem opened (h : s.Fits frame Γ) (hΓ : Γ.Proper) : s.OpenAt frame := by
  cases h with
  | global hopen => exact hopen
  | inside _ hsc _ => exact hsc.opened hΓ.plain_head.notReceiver hΓ.plain_head.notSuperclass

end Fits

end Store

end LoxLang
