import LoxLang.Proofs.Store.Addressing

/-!
# Stores that are trees

A store is a tree if its first frame is outermost and every other frame has a parent, which is older
(`Store.IsTree`). It remains one while frames are created inside frames that are there and names are
given values (`Store.Evolves.isTree`), and then no frame gets another parent or loses a name
(`Store.Evolves.kept`). In a tree the chain of each frame descends to the first one, and all walks
from the frame go along it (`Store.IsTree.grounded`). So the walk that looks for a name comes
to an end, also if it does not mind how old the parents are that it goes on to (`Store.Search`).
-/

namespace LoxLang

namespace Store

variable {α : Type}

/-- The first frame is outermost, and every other one has a parent, which is older. -/
structure IsTree (s : Store α) : Prop where
  nonempty : 0 < s.frames.size
  root : s.parent? 0 = none
  older : ∀ e, e ≠ 0 → e < s.frames.size → ∃ p, s.parent? e = some p ∧ p < e

/-- The second store comes from the first one by creating frames inside frames that are there by
then, and by giving names values. -/
inductive Evolves (s : Store α) : Store α → Prop
  | refl : Evolves s s
  | create {s' : Store α} {parent : Nat} (h : Evolves s s') (names : Table α)
      (hparent : parent < s'.frames.size) : Evolves s (s'.create names (some parent)).2
  | define {s' : Store α} (h : Evolves s s') (frame : Nat) (name : String) (value : α) :
      Evolves s (s'.define frame name value)

/-- The second store has all frames of the first one, each inside the same frame and with all the
names that it had. -/
structure Kept (s s' : Store α) : Prop where
  size : s.frames.size ≤ s'.frames.size
  parents : ∀ e, e < s.frames.size → s'.parent? e = s.parent? e
  names : ∀ e name, (s.get? e name).isSome → (s'.get? e name).isSome

/-- The walk that looks for a name from a frame outwards ends, at the first frame that has the name
or, if an outermost frame does not have it, with nothing. -/
inductive Search (s : Store α) (name : String) : Nat → Option Nat → Prop
  | found {e : Nat} : (s.get? e name).isSome → Search s name e (some e)
  | nowhere {e : Nat} : s.get? e name = none → s.parent? e = none → Search s name e none
  | outwards {e p : Nat} {r : Option Nat} : s.get? e name = none → s.parent? e = some p →
      Search s name p r → Search s name e r

/-- The chain of the frame descends to the first frame, and all walks from the frame go along it:
so many steps outwards as one likes, and the search for a name, be it to read the name or to give it
a value. -/
structure Grounded (s : Store α) (e : Nat) (chain : List Nat) : Prop where
  links : s.Chain e chain
  older : chain.Pairwise (· > ·)
  last : chain.getLast? = some 0
  ancestor : ∀ d, s.ancestor? d e = chain[d]?
  search : ∀ name r, s.Search name e r ↔ r = chain.find? fun f => (s.get? f name).isSome
  read : ∀ name, s.read? e name =
    (chain.find? fun f => (s.get? f name).isSome).bind (s.get? · name)
  assign : ∀ name value, s.assign? e name value =
    (chain.find? fun f => (s.get? f name).isSome).map (s.define · name value)

/-! ## Growth -/

namespace Kept

variable {s s' s'' : Store α}

theorem refl (s : Store α) : s.Kept s := ⟨Nat.le_refl _, fun _ _ => rfl, fun _ _ h => h⟩

theorem trans (h : s.Kept s') (h' : s'.Kept s'') : s.Kept s'' where
  size := Nat.le_trans h.size h'.size
  parents e he := (h'.parents e (Nat.lt_of_lt_of_le he h.size)).trans (h.parents e he)
  names e name hname := h'.names e name (h.names e name hname)

theorem create (s : Store α) (names : Table α) (parent : Option Nat) :
    s.Kept (s.create names parent).2 where
  size := by
    rw [size_frames_create]
    exact Nat.le_succ _
  parents e he := by rw [parent?_create, if_neg (Nat.ne_of_lt he)]
  names e name hname := by
    obtain ⟨v, hv⟩ := Option.isSome_iff_exists.1 hname
    obtain ⟨f, hf, -⟩ := Option.bind_eq_some_iff.1 hv
    have he : e < s.frames.size := (Array.getElem?_eq_some_iff.1 hf).1
    rwa [get?_create, if_neg (Nat.ne_of_lt he)]

theorem define (s : Store α) (frame : Nat) (name : String) (value : α) :
    s.Kept (s.define frame name value) where
  size := Nat.le_of_eq (s.size_frames_define frame name value).symm
  parents e _ := s.parent?_define frame e name value
  names e x hx := by
    rw [get?_define]
    split
    · rfl
    · exact hx

end Kept

namespace Evolves

variable {s s' s'' : Store α}

theorem trans (h : s.Evolves s') (h' : s'.Evolves s'') : s.Evolves s'' := by
  induction h' with
  | refl => exact h
  | create _ names hparent ih => exact .create ih names hparent
  | define _ frame name value ih => exact .define ih frame name value

/-- **Frames stay where they are and keep their names.** -/
theorem kept (h : s.Evolves s') : s.Kept s' := by
  induction h with
  | refl => exact .refl s
  | create _ names _ ih => exact ih.trans (.create _ names _)
  | define _ frame name value ih => exact ih.trans (.define _ frame name value)

/-- **A tree remains a tree.** -/
theorem isTree (h : s.Evolves s') (hs : s.IsTree) : s'.IsTree := by
  induction h with
  | refl => exact hs
  | @create s' parent _ names hparent ih =>
    refine ⟨?_, ?_, fun e he hlt => ?_⟩
    · rw [size_frames_create]
      exact Nat.succ_pos _
    · rw [parent?_create, if_neg (Nat.ne_of_lt ih.nonempty), ih.root]
    · rw [size_frames_create] at hlt
      rw [parent?_create]
      split
      · next hlast => exact ⟨parent, rfl, hlast ▸ hparent⟩
      · next hne => exact ih.older e he (Nat.lt_of_le_of_ne (Nat.le_of_lt_succ hlt) hne)
  | define _ frame name value ih =>
    refine ⟨?_, ?_, fun e he hlt => ?_⟩
    · rw [size_frames_define]
      exact ih.nonempty
    · rw [parent?_define, ih.root]
    · rw [parent?_define]
      exact ih.older e he (by rwa [size_frames_define] at hlt)

end Evolves

/-! ## Chains -/

namespace IsTree

variable {s : Store α} {e : Nat}

theorem descends (h : s.IsTree) : s.Descends := by
  intro e p hp
  by_cases hlt : e < s.frames.size
  · by_cases he : e = 0
    · rw [he, h.root] at hp
      cases hp
    · obtain ⟨q, hq, hqe⟩ := h.older e he hlt
      rw [hp] at hq
      cases hq
      exact hqe
  · rw [parent?_of_size_le (Nat.le_of_not_lt hlt)] at hp
    cases hp

/-- The first frame is the only one that is outermost. -/
theorem parent?_eq_none_iff (h : s.IsTree) (he : e < s.frames.size) :
    s.parent? e = none ↔ e = 0 := by
  constructor
  · intro hnone
    by_contra hne
    obtain ⟨p, hp, -⟩ := h.older e hne he
    rw [hnone] at hp
    cases hp
  · rintro rfl
    exact h.root

/-- No frame is inside itself: the walk outwards is well-founded. -/
theorem wellFounded (h : s.IsTree) : WellFounded fun p e => s.parent? e = some p :=
  Subrelation.wf (fun hp => h.descends _ _ hp) Nat.lt_wfRel.wf

end IsTree

namespace Chain

variable {s s' : Store α} {e : Nat} {chain : List Nat}

/-- In a chain every frame is older than those before it. -/
theorem pairwise_gt (hs : s.Descends) (h : s.Chain e chain) :
    chain.Pairwise (· > ·) ∧ ∀ f ∈ chain, f ≤ e := by
  induction h with
  | outermost =>
    exact ⟨List.pairwise_singleton _ _, fun f hf => Nat.le_of_eq (List.mem_singleton.1 hf)⟩
  | @inside e p chain hp _ ih =>
    obtain ⟨hsorted, hle⟩ := ih
    have hlt : ∀ f ∈ chain, f < e := fun f hf => Nat.lt_of_le_of_lt (hle f hf) (hs e p hp)
    refine ⟨List.pairwise_cons.2 ⟨hlt, hsorted⟩, List.forall_mem_cons.2 ⟨Nat.le_refl e, ?_⟩⟩
    exact fun f hf => Nat.le_of_lt (hlt f hf)

/-- In a tree the chain of every frame ends in the first one. -/
theorem getLast?_eq (hs : s.IsTree) (he : e < s.frames.size) (h : s.Chain e chain) :
    chain.getLast? = some 0 := by
  induction h with
  | outermost hnone => rw [(hs.parent?_eq_none_iff he).1 hnone, List.getLast?_singleton]
  | @inside e p chain hp _ ih =>
    have hlast := ih (Nat.lt_trans (hs.descends e p hp) he)
    rw [List.getLast?_cons, hlast, Option.getD_some]

/-- The chain of a frame stays the same. -/
theorem kept (hs : s.IsTree) (hkept : s.Kept s') (he : e < s.frames.size) (h : s.Chain e chain) :
    s'.Chain e chain := by
  induction h with
  | outermost hnone => exact .outermost ((hkept.parents _ he).trans hnone)
  | @inside e p chain hp _ ih =>
    exact .inside ((hkept.parents e he).trans hp) (ih (Nat.lt_trans (hs.descends e p hp) he))

/-- The walk that looks for a name goes along the chain to the first frame that has the name. -/
theorem owner?_eq (hs : s.Descends) (h : s.Chain e chain) (name : String) :
    s.owner? e name = chain.find? fun f => (s.get? f name).isSome := by
  induction h with
  | outermost hnone =>
    rw [owner?_of_outermost hnone, List.find?_singleton]
  | @inside e p chain hp _ ih =>
    rw [Store.owner?_eq hs, hp, Option.bind_some, ih, List.find?_cons]
    cases (s.get? e name).isSome <;> rfl

end Chain

/-! ## Walks -/

/-- **The walk that looks for a name ends**, where `owner?` says. -/
theorem Descends.search {s : Store α} (hs : s.Descends) (e : Nat) (name : String) :
    s.Search name e (s.owner? e name) := by
  refine hs.induction (P := fun e => s.Search name e (s.owner? e name)) (fun e ih => ?_) e
  rw [owner?_eq hs]
  cases hget : s.get? e name with
  | some v => exact .found (Option.isSome_of_eq_some hget)
  | none =>
    cases hp : s.parent? e with
    | none => exact .nowhere hget hp
    | some p => exact .outwards hget hp (ih p hp)

/-- There is but one way in which it can end. -/
theorem Search.unique {s : Store α} {name : String} {e : Nat} {r r' : Option Nat}
    (h : s.Search name e r) (h' : s.Search name e r') : r = r' := by
  induction h with
  | found hsome =>
    cases h' with
    | found => rfl
    | nowhere hget | outwards hget =>
      rw [hget] at hsome
      cases hsome
  | nowhere hget hp =>
    cases h' with
    | found hsome =>
      rw [hget] at hsome
      cases hsome
    | nowhere => rfl
    | outwards _ hp' =>
      rw [hp] at hp'
      cases hp'
  | outwards hget hp _ ih =>
    cases h' with
    | found hsome =>
      rw [hget] at hsome
      cases hsome
    | nowhere _ hp' =>
      rw [hp] at hp'
      cases hp'
    | outwards _ hp' h' =>
      rw [hp] at hp'
      cases hp'
      exact ih h'

/-- **In a tree every frame is grounded** by its chain. -/
theorem IsTree.grounded {s : Store α} (hs : s.IsTree) {e : Nat} (he : e < s.frames.size)
    {chain : List Nat} (hchain : s.Chain e chain) : s.Grounded e chain := by
  have howner := hchain.owner?_eq hs.descends
  refine ⟨hchain, (hchain.pairwise_gt hs.descends).1, hchain.getLast?_eq hs he,
    hchain.ancestor?_eq, fun name r => ?_, fun name => ?_, fun name value => ?_⟩
  · rw [← howner name]
    have hsearch := hs.descends.search e name
    exact ⟨fun h => h.unique hsearch, fun h => h ▸ hsearch⟩
  · rw [read?, howner name]
  · rw [assign?, howner name]

theorem IsTree.exists_grounded {s : Store α} (hs : s.IsTree) {e : Nat} (he : e < s.frames.size) :
    ∃ chain, s.Grounded e chain := by
  obtain ⟨chain, hchain⟩ := hs.descends.exists_chain e
  exact ⟨chain, hs.grounded he hchain⟩

/-- A frame stays grounded by the same chain. -/
theorem Grounded.evolves {s s' : Store α} (hs : s.IsTree) (h : s.Evolves s') {e : Nat}
    (he : e < s.frames.size) {chain : List Nat} (hchain : s.Grounded e chain) :
    s'.Grounded e chain :=
  (h.isTree hs).grounded (Nat.lt_of_lt_of_le he h.kept.size)
    (hchain.links.kept hs h.kept he)

end Store

end LoxLang
