import LoxLang.Proofs.Run.Frames
import Mathlib.Logic.Basic
import Mathlib.Tactic.ByContra

/-!
# Two ways to address a chain of frames

A store is built by operations that name frames it has (`Store.Built`), so the parent of a frame is
older (`Store.Built.descends`) and the frames from a frame on outwards form a finite chain
(`Store.Chain`). The walk out of a frame finds the name in the nearest frame that has it
(`Store.Nearest`), and so it reads and writes what an access at the right distance does. A write is
seen from every frame whose chain comes to the frame written, and from nowhere else. The main
statement is `addressing_agrees`.
-/

namespace LoxLang

namespace Store

variable {α : Type}

/-! ## Stores and how they are built -/

/-- An operation that changes a store. -/
inductive Op (α : Type)
  | create (names : Table α) (parent : Option Nat)
  | define (frame : Nat) (name : String) (value : α)
  | assign (frame : Nat) (name : String) (value : α)
  | writeAt (distance frame : Nat) (name : String) (value : α)

/-- The frame from which an operation sets out; a new outermost frame needs none. -/
def Op.frame? : Op α → Option Nat
  | create _ parent => parent
  | define frame _ _ | assign frame _ _ | writeAt _ frame _ _ => some frame

/-- Whether an operation succeeds, and the store behind it. -/
def Op.run (s : Store α) : Op α → Bool × Store α
  | create names parent => (true, (s.create names parent).2)
  | define frame name value => (true, s.define frame name value)
  | assign frame name value =>
    match s.assign? frame name value with
    | some s' => (true, s')
    | none => (false, s)
  | writeAt distance frame name value =>
    match s.writeAt? distance frame name value with
    | some s' => (true, s')
    | none => (false, s)

/-- A store that comes about by operations, each of which sets out from a frame that is there. -/
inductive Built : Store α → Prop
  | empty : Built .empty
  | step {s : Store α} (h : Built s) (op : Op α) (hop : ∀ f ∈ op.frame?, f < s.frames.size) :
      Built (op.run s).2

/-- Parents are older than their children. -/
def Descends (s : Store α) : Prop := ∀ e p, s.parent? e = some p → p < e

/-- The frames from a frame on outwards. -/
inductive Chain (s : Store α) : Nat → List Nat → Prop
  | outermost {e : Nat} (h : s.parent? e = none) : Chain s e [e]
  | inside {e p : Nat} {chain : List Nat} (h : s.parent? e = some p) (hp : Chain s p chain) :
      Chain s e (e :: chain)

/-- The nearest frame that has a name is `d` steps out from a frame. -/
structure Nearest (s : Store α) (e : Nat) (name : String) (d : Nat) : Prop where
  found : (s.readAt? d e name).isSome
  nearer : ∀ c < d, s.readAt? c e name = none

/-- One store is another in which one name of one frame has been given a value. -/
structure Updates (s s' : Store α) (frame : Nat) (name : String) (value : α) : Prop where
  size : s'.frames.size = s.frames.size
  parents : ∀ i, s'.parent? i = s.parent? i
  values : ∀ i key, s'.get? i key = if i = frame ∧ key = name then some value else s.get? i key

theorem parent?_of_size_le {s : Store α} {e : Nat} (h : s.frames.size ≤ e) :
    s.parent? e = none := by
  rw [parent?, Array.getElem?_eq_none h]
  rfl

theorem Descends.congr {s s' : Store α} (h : s.Descends)
    (hparents : ∀ i, s'.parent? i = s.parent? i) : s'.Descends := by
  intro e p hp
  exact h e p (by rwa [← hparents])

/-- An operation keeps parents older than their children. -/
theorem Descends.run {s : Store α} (h : s.Descends) {op : Op α}
    (hop : ∀ f ∈ op.frame?, f < s.frames.size) : (op.run s).2.Descends := by
  cases op with
  | create names parent =>
    intro e p hp
    show p < e
    rw [Op.run, parent?_create] at hp
    split at hp
    next he =>
      subst he
      exact hop p hp
    · exact h e p hp
  | define frame name value => exact h.congr (s.parent?_define frame · name value)
  | assign frame name value =>
    rw [Op.run, assign?]
    cases s.owner? frame name with
    | none => exact h
    | some f => exact h.congr (s.parent?_define f · name value)
  | writeAt distance frame name value =>
    rw [Op.run, writeAt?]
    cases s.ancestor? distance frame with
    | none => exact h
    | some f => exact h.congr (s.parent?_define f · name value)

theorem Built.descends {s : Store α} (h : s.Built) : s.Descends := by
  induction h with
  | empty => exact fun e p hp => by cases hp
  | step _ op hop ih => exact ih.run hop

/-- What holds of a frame once it holds of its parent holds of every frame. -/
theorem Descends.induction {s : Store α} (h : s.Descends) {P : Nat → Prop}
    (step : ∀ e, (∀ p, s.parent? e = some p → P p) → P e) (e : Nat) : P e := by
  induction e using Nat.strongRecOn with
  | ind e ih => exact step e fun p hp => ih p (h e p hp)

/-! ## Steps outwards -/

theorem readAt?_zero (s : Store α) (e : Nat) (name : String) :
    s.readAt? 0 e name = s.get? e name := rfl

theorem readAt?_succ (s : Store α) (d e : Nat) (name : String) :
    s.readAt? (d + 1) e name = (s.parent? e).bind (s.readAt? d · name) := by
  rw [readAt?, ancestor?]
  cases s.parent? e <;> rfl

/-- Steps outwards add up. -/
theorem ancestor?_add (s : Store α) (a b e : Nat) :
    s.ancestor? (a + b) e = (s.ancestor? a e).bind (s.ancestor? b) := by
  induction a generalizing e with
  | zero => rw [Nat.zero_add, ancestor?, Option.bind_some]
  | succ a ih =>
    rw [Nat.add_right_comm, ancestor?, ancestor?]
    cases s.parent? e with
    | none => rfl
    | some p => exact ih p

/-- Every chain is finite. -/
theorem Descends.exists_chain {s : Store α} (h : s.Descends) (e : Nat) :
    ∃ chain, s.Chain e chain := by
  refine h.induction (P := fun e => ∃ chain, s.Chain e chain) (fun e ih => ?_) e
  cases hp : s.parent? e with
  | none => exact ⟨[e], .outermost hp⟩
  | some p =>
    obtain ⟨chain, hchain⟩ := ih p hp
    exact ⟨e :: chain, .inside hp hchain⟩

/-- The frame a number of steps out is the one of that number in the chain. -/
theorem Chain.ancestor?_eq {s : Store α} {e : Nat} {chain : List Nat} (h : s.Chain e chain)
    (d : Nat) : s.ancestor? d e = chain[d]? := by
  induction h generalizing d with
  | outermost h =>
    cases d with
    | zero => rfl
    | succ d => rw [ancestor?, h, List.getElem?_cons_succ, List.getElem?_nil]
  | inside h _ ih =>
    cases d with
    | zero => rfl
    | succ d => rw [ancestor?, h, List.getElem?_cons_succ, ← ih d]

/-! ## The nearest frame -/

theorem owner?_eq {s : Store α} (h : s.Descends) (e : Nat) (name : String) :
    s.owner? e name =
      if (s.get? e name).isSome then some e else (s.parent? e).bind (s.owner? · name) := by
  rw [owner?, get?, parent?]
  have hparent := h e
  unfold parent? at hparent
  cases hf : s.frames[e]? with
  | none => rfl
  | some f =>
    rw [hf] at hparent
    show (if (f.names.find? name).isSome then some e else _) = _
    cases hp : f.parent with
    | none => simp [hp]
    | some p => simp [hp, hparent p hp]

/-- The walk finds the nearest frame. -/
theorem Nearest.owner?_eq {s : Store α} (h : s.Descends) {e d : Nat} {name : String}
    (hd : s.Nearest e name d) : s.owner? e name = s.ancestor? d e := by
  induction d generalizing e with
  | zero => rw [Store.owner?_eq h, if_pos (by simpa [readAt?_zero] using hd.found), ancestor?]
  | succ d ih =>
    have hnot : s.get? e name = none := hd.nearer 0 (Nat.succ_pos d)
    have hfound := hd.found
    rw [readAt?_succ] at hfound
    rw [Store.owner?_eq h, hnot, ancestor?]
    cases hp : s.parent? e with
    | none =>
      rw [hp] at hfound
      cases hfound
    | some p =>
      rw [hp] at hfound
      refine ih ⟨hfound, fun c hc => ?_⟩
      have hc := hd.nearer (c + 1) (Nat.succ_lt_succ hc)
      rwa [readAt?_succ, hp] at hc

/-- Where some frame out of a frame has a name, one of them is the nearest. -/
theorem exists_nearest {s : Store α} {e d : Nat} {name : String}
    (h : (s.readAt? d e name).isSome) : ∃ c ≤ d, s.Nearest e name c := by
  induction d using Nat.strongRecOn with
  | ind d ih =>
    by_cases hc : ∃ c < d, (s.readAt? c e name).isSome
    · obtain ⟨c, hlt, hc⟩ := hc
      obtain ⟨b, hle, hb⟩ := ih c hlt hc
      exact ⟨b, Nat.le_trans hle (Nat.le_of_lt hlt), hb⟩
    · refine ⟨d, Nat.le_refl d, h, fun c hlt => ?_⟩
      by_contra hne
      exact hc ⟨c, hlt, Option.isSome_iff_ne_none.2 hne⟩

/-- The walk finds nothing where no frame has the name. -/
theorem owner?_eq_none_of {s : Store α} (h : s.Descends) {e : Nat} {name : String}
    (hnone : ∀ d, s.readAt? d e name = none) : s.owner? e name = none := by
  refine h.induction (P := fun e => (∀ d, s.readAt? d e name = none) → s.owner? e name = none)
    (fun e ih hnone => ?_) e hnone
  have hnot : s.get? e name = none := hnone 0
  rw [owner?_eq h, hnot]
  cases hp : s.parent? e with
  | none => rfl
  | some p =>
    refine ih p hp fun d => ?_
    have hd := hnone (d + 1)
    rwa [readAt?_succ, hp] at hd

/-- **Reading by name is reading at the distance of the nearest frame.** -/
theorem Nearest.read?_eq {s : Store α} (h : s.Descends) {e d : Nat} {name : String}
    (hd : s.Nearest e name d) : s.read? e name = s.readAt? d e name := by
  rw [read?, hd.owner?_eq h, readAt?]

/-- **Reading by name fails where no frame of the chain has the name.** -/
theorem read?_eq_none_iff {s : Store α} (h : s.Descends) {e : Nat} {name : String} :
    s.read? e name = none ↔ ∀ d, s.readAt? d e name = none := by
  constructor
  · intro hread d
    by_contra hne
    obtain ⟨c, -, hc⟩ := exists_nearest (Option.isSome_iff_ne_none.2 hne)
    rw [hc.read?_eq h] at hread
    have hfound := hc.found
    rw [hread] at hfound
    cases hfound
  · intro hnone
    rw [read?, owner?_eq_none_of h hnone]
    rfl

/-- A name can be read where the walk finds a frame that has it. -/
theorem isSome_read?_eq {s : Store α} (h : s.Descends) (e : Nat) (name : String) :
    (s.read? e name).isSome = (s.owner? e name).isSome := by
  cases hread : s.read? e name with
  | none =>
    rw [owner?_eq_none_of h ((read?_eq_none_iff h).1 hread)]
    rfl
  | some v =>
    rw [read?] at hread
    cases ho : s.owner? e name with
    | none =>
      rw [ho] at hread
      cases hread
    | some f => rfl

/-- No frame of the chain has a name if no access at a distance finds it. -/
theorem Chain.forall_iff {s : Store α} {e : Nat} {chain : List Nat} (h : s.Chain e chain)
    (name : String) :
    (∀ d, s.readAt? d e name = none) ↔ ∀ f ∈ chain, s.get? f name = none := by
  constructor
  · intro hnone f hf
    obtain ⟨d, hd⟩ := List.getElem?_of_mem hf
    have hread := hnone d
    rwa [readAt?, h.ancestor?_eq, hd] at hread
  · intro hnone d
    rw [readAt?, h.ancestor?_eq]
    cases hd : chain[d]? with
    | none => rfl
    | some f => exact hnone f (List.mem_of_getElem? hd)

/-! ## Writes -/

/-- A definition in a frame that is there gives one name of it a value. -/
theorem updates_define {s : Store α} {frame : Nat} (h : frame < s.frames.size) (name : String)
    (value : α) : s.Updates (s.define frame name value) frame name value where
  size := s.size_frames_define frame name value
  parents i := s.parent?_define frame i name value
  values i key := by
    rw [get?_define]
    refine if_congr ?_ rfl rfl
    exact ⟨fun ⟨hi, hk, _⟩ => ⟨hi.symm, hk.symm⟩, fun ⟨hi, hk⟩ => ⟨hi.symm, hk.symm, h⟩⟩

/-- The frames out of a frame that is there are there. -/
theorem lt_of_ancestor? {s : Store α} (h : s.Descends) {e d f : Nat} (he : e < s.frames.size)
    (hf : s.ancestor? d e = some f) : f < s.frames.size := by
  induction d generalizing e with
  | zero => exact Option.some.inj hf ▸ he
  | succ d ih =>
    rw [ancestor?] at hf
    cases hp : s.parent? e with
    | none =>
      rw [hp] at hf
      cases hf
    | some p =>
      rw [hp] at hf
      exact ih (Nat.lt_trans (h e p hp) he) hf

namespace Updates

variable {s s' : Store α} {frame : Nat} {name : String} {value : α}

theorem ancestor?_eq (h : s.Updates s' frame name value) (d e : Nat) :
    s'.ancestor? d e = s.ancestor? d e :=
  ancestor?_congr h.parents d e

/-- An access at a distance sees the write if it leads to the frame, and nothing else changes. -/
theorem readAt?_eq (h : s.Updates s' frame name value) (d e : Nat) (key : String) :
    s'.readAt? d e key =
      if s.ancestor? d e = some frame ∧ key = name then some value else s.readAt? d e key := by
  rw [readAt?, readAt?, h.ancestor?_eq]
  cases s.ancestor? d e with
  | none => simp
  | some f => simp [h.values]

/-- The walk out of a frame sees the write if it comes to the frame written before any other that
has the name. -/
theorem read?_of_nearer (h : s.Updates s' frame name value) (hs : s.Descends) {d e : Nat}
    (hframe : s.ancestor? d e = some frame) (hnearer : ∀ c < d, s.readAt? c e name = none) :
    s'.read? e name = some value := by
  have hvalue : s'.readAt? d e name = some value := by
    rw [h.readAt?_eq, if_pos ⟨hframe, rfl⟩]
  obtain ⟨c, hle, hc⟩ := exists_nearest (Option.isSome_of_eq_some hvalue)
  rw [hc.read?_eq (hs.congr h.parents)]
  rcases Nat.lt_or_eq_of_le hle with hlt | rfl
  · have hfound := hc.found
    rw [h.readAt?_eq, hnearer c hlt] at hfound ⊢
    split at hfound
    next hwritten => rw [if_pos hwritten]
    · cases hfound
  · exact hvalue

/-- The walk out of a frame does not see the write if it looks for another name, or finds the name
before it comes to the frame written, or never comes there. -/
theorem read?_of_hidden (h : s.Updates s' frame name value) (hs : s.Descends) {e : Nat}
    {key : String} (hhidden : key = name → ∀ d, s.ancestor? d e = some frame →
      ∃ c < d, (s.readAt? c e name).isSome) : s'.read? e key = s.read? e key := by
  -- Up to the nearest frame that has the key, no access at a distance sees the write.
  have hsame : ∀ d, (∀ c < d, s.readAt? c e key = none) →
      s'.readAt? d e key = s.readAt? d e key := by
    intro d hnearer
    rw [h.readAt?_eq, if_neg]
    rintro ⟨hframe, rfl⟩
    obtain ⟨c, hlt, hc⟩ := hhidden rfl d hframe
    rw [hnearer c hlt] at hc
    cases hc
  cases hread : s.read? e key with
  | none =>
    rw [read?_eq_none_iff hs] at hread
    rw [read?_eq_none_iff (hs.congr h.parents)]
    intro d
    rw [hsame d fun c _ => hread c, hread]
  | some v =>
    have hsome : ∃ d, (s.readAt? d e key).isSome := by
      by_contra hnone
      have hnone : s.read? e key = none := (read?_eq_none_iff hs).2 fun d => by
        by_contra hne
        exact hnone ⟨d, Option.isSome_iff_ne_none.2 hne⟩
      cases hread.symm.trans hnone
    obtain ⟨d, hd⟩ := hsome
    obtain ⟨c, -, hc⟩ := exists_nearest hd
    have hc' : s'.Nearest e key c := by
      refine ⟨hsame c hc.nearer ▸ hc.found, fun b hb => ?_⟩
      rw [hsame b fun a ha => hc.nearer a (Nat.lt_trans ha hb), hc.nearer b hb]
    rw [hc'.read?_eq (hs.congr h.parents), hsame c hc.nearer, ← hc.read?_eq hs, hread]

end Updates

/-- **The two ways to address a chain of frames agree.** In a store that comes about by operations,
the frames from a frame on outwards form a chain, in which steps outwards are counted. A name is
read and written in the nearest frame that has it, by an access at the distance of that frame as by
the walk, and the walk fails where no frame of the chain has it. Writing at a distance succeeds
where there is such a frame, whether it has the name or not. Each write gives one name of one frame
a value: this is what accesses see that lead to the frame with that name, and all others see what
they saw before. A write that fails leaves the store as it was. -/
theorem addressing_agrees {s : Store α} (hs : s.Built) {e : Nat} (he : e < s.frames.size) :
    (∃ chain, s.Chain e chain ∧ (∀ d, s.ancestor? d e = chain[d]?) ∧
      ∀ name, s.read? e name = none ↔ ∀ f ∈ chain, s.get? f name = none) ∧
    (∀ a b, s.ancestor? (a + b) e = (s.ancestor? a e).bind (s.ancestor? b)) ∧
    (∀ name d, s.Nearest e name d → s.read? e name = s.readAt? d e name) ∧
    (∀ name value,
      ((Op.assign e name value).run s).1 = (s.read? e name).isSome ∧
      (∀ d, s.Nearest e name d → ∃ f, s.ancestor? d e = some f ∧
        s.Updates ((Op.assign e name value).run s).2 f name value) ∧
      (s.read? e name = none → ((Op.assign e name value).run s).2 = s)) ∧
    (∀ distance name value,
      ((Op.writeAt distance e name value).run s).1 = (s.ancestor? distance e).isSome ∧
      (∀ f, s.ancestor? distance e = some f →
        s.Updates ((Op.writeAt distance e name value).run s).2 f name value) ∧
      (s.ancestor? distance e = none → ((Op.writeAt distance e name value).run s).2 = s)) ∧
    ∀ s' f name value, s.Updates s' f name value →
      (∀ d i key, s'.readAt? d i key =
        if s.ancestor? d i = some f ∧ key = name then some value else s.readAt? d i key) ∧
      (∀ d i, s.ancestor? d i = some f → (∀ c < d, s.readAt? c i name = none) →
        s'.read? i name = some value) ∧
      ∀ i key, (key = name → ∀ d, s.ancestor? d i = some f →
        ∃ c < d, (s.readAt? c i name).isSome) → s'.read? i key = s.read? i key := by
  have h := hs.descends
  refine ⟨?_, fun a b => s.ancestor?_add a b e, fun name d hd => hd.read?_eq h, fun name value => ?_,
    fun distance name value => ?_, fun s' f name value hupdates =>
      ⟨hupdates.readAt?_eq, fun d i => hupdates.read?_of_nearer h,
        fun i key => hupdates.read?_of_hidden h⟩⟩
  · obtain ⟨chain, hchain⟩ := h.exists_chain e
    exact ⟨chain, hchain, hchain.ancestor?_eq,
      fun name => (read?_eq_none_iff h).trans (hchain.forall_iff name)⟩
  · rw [isSome_read?_eq h, Op.run, assign?]
    refine ⟨?_, fun d hd => ?_, fun hread => ?_⟩
    · cases s.owner? e name <;> rfl
    · have hfound := hd.found
      rw [hd.owner?_eq h]
      rw [readAt?] at hfound
      cases hf : s.ancestor? d e with
      | none =>
        rw [hf] at hfound
        cases hfound
      | some f => exact ⟨f, rfl, updates_define (lt_of_ancestor? h he hf) name value⟩
    · rw [owner?_eq_none_of h ((read?_eq_none_iff h).1 hread)]
      rfl
  · rw [Op.run, writeAt?]
    refine ⟨?_, fun f hf => ?_, fun hnone => ?_⟩
    · cases s.ancestor? distance e <;> rfl
    · rw [hf]
      exact updates_define (lt_of_ancestor? h he hf) name value
    · rw [hnone]
      rfl

/-- A name of the outer of two frames is read and assigned from the inner one. -/
theorem inner_assignment_reaches_outer :
    let s : Store Nat := ((Store.empty.create .empty none).2.create .empty (some 0)).2.define 0 "x" 7
    (s.Built ∧ 1 < s.frames.size ∧ s.Nearest 1 "x" 1) ∧ s.read? 1 "x" = some 7 ∧
      ((Op.assign 1 "x" 8).run s).2.readAt? 1 1 "x" = some 8 ∧
      ((Op.assign 1 "x" 8).run s).2.readAt? 0 1 "x" = none := by
  intro s
  have houter : (Store.empty.create (α := Nat) .empty none).2.Built :=
    .step .empty (.create .empty none) (by rintro _ ⟨⟩)
  have hinner := houter.step (.create .empty (some 0)) (by rintro _ ⟨⟩; decide)
  have hbuilt : s.Built := hinner.step (.define 0 "x" 7) (by rintro _ ⟨⟩; decide)
  have hsize : 1 < s.frames.size := by decide
  have hnearest : s.Nearest 1 "x" 1 :=
    ⟨rfl, fun c hc => by rw [Nat.lt_one_iff.1 hc]; rfl⟩
  obtain ⟨-, -, hread, hassign, -, hupdates⟩ := addressing_agrees hbuilt hsize
  obtain ⟨f, hf, hwrite⟩ := (hassign "x" 8).2.1 1 hnearest
  obtain rfl : 0 = f := Option.some.inj hf
  have hreads := (hupdates _ _ _ _ hwrite).1
  refine ⟨⟨hbuilt, hsize, hnearest⟩, (hread "x" 1 hnearest).trans rfl, ?_, ?_⟩
  · exact (hreads 1 1 "x").trans rfl
  · exact (hreads 0 1 "x").trans rfl

end Store

end LoxLang
