import LoxLang.Proofs.Renaming.Rename
import LoxLang.Proofs.Run.Frames
import LoxLang.Proofs.Run.Related
import LoxLang.Proofs.Run.Step

/-!
# Machines that run a renamed tree

The machine that runs a renamed tree has the frames of the machine that runs the tree, with the same
parents and the same names in them, but for the one that is replaced. Whether it is replaced in a
frame is a matter of the scope the frame stands for. A `World` keeps, for each frame, the flags of
that scope and of the scopes around it, so it has to do with the whole chain of the frame
(`Renaming.Machines.flags_ancestor`). Values differ in the code of their routines only
(`Renaming.Values`), and fields, methods and all that is hidden from a program do not differ at all.
-/

namespace LoxLang

/-- The flags of the scopes that frames stand in, by the numbers of the frames. -/
abbrev World := List Flags

namespace Flags

theorem here_drop (δ : Flags) (d : Nat) : here (δ.drop d) = δ.there (some d) := by
  induction d generalizing δ with
  | zero => cases δ <;> rfl
  | succ d ih =>
    cases δ with
    | nil => rfl
    | cons _ δ => exact ih δ

end Flags

namespace Renaming

variable (ρ : Renaming) (g : Nat → Option Nat)

/-- Two routines with the parameters and the body of a text and of the text renamed; `δ` are the
flags of the scopes around the body. -/
structure Text (δ : Flags) (c : Choice) (params : List Token) (body : List (Stmt Nat))
    (r r' : Routine) : Prop where
  params_lack : ∀ p ∈ params, p.lexeme ≠ ρ.new
  body_lacks : Stmt.LacksAll ρ.new body
  params_eq : r.params = params.map Token.lexeme
  params_eq' : r'.params = (params.map (ρ.token (ρ.picks c body))).map Token.lexeme
  body_eq : r.body = Stmt.mapAll g body
  body_eq' : r'.body = Stmt.mapAll g (Stmt.renameAll ρ g (ρ.picks c body :: δ) c body)

/-- Routines that differ in nothing but a renaming. The scopes `inner` are those that a method gets
when it is bound. -/
structure Routines (W : World) (inner : Flags) (r r' : Routine) : Prop where
  name : r'.name = r.name
  frame : r'.frame = r.frame
  isInit : r'.isInit = r.isInit
  code : ∃ δ c params body, W[r.frame]? = some δ ∧ ρ.Text g (inner ++ δ) c params body r r'

/-- Classes with renamed methods. -/
abbrev Classes (W : World) : Class → Class → Prop := Class.Related (ρ.Routines g W [false])

/-- Values with renamed routines. -/
abbrev Values (W : World) : Value → Value → Prop :=
  Value.Related (ρ.Routines g W []) (ρ.Routines g W [false])

/-- Things to call with renamed routines. -/
abbrev Callees (W : World) : Callee → Callee → Prop :=
  Callee.Related (ρ.Routines g W []) (ρ.Routines g W [false])

variable {ρ : Renaming} {g : Nat → Option Nat} {W W' : World} {inner : Flags}

theorem Routines.sees {r r' : Routine} (h : ρ.Routines g W inner r r') : r.Sees r' := by
  obtain ⟨δ, c, params, body, -, ht⟩ := h.code
  refine ⟨h.name, ?_⟩
  rw [ht.params_eq, ht.params_eq', List.length_map, List.length_map, List.length_map]

/-! ## More frames -/

theorem Routines.mono {r r' : Routine} (h : ρ.Routines g W inner r r') (hW : W <+: W') :
    ρ.Routines g W' inner r r' := by
  obtain ⟨δ, c, params, body, hδ, ht⟩ := h.code
  exact { h with code := ⟨δ, c, params, body, getElem?_of_extends hW hδ, ht⟩ }

theorem Classes.mono {c c' : Class} (h : ρ.Classes g W c c') (hW : W <+: W') :
    ρ.Classes g W' c c' :=
  Class.Related.mono h fun _ _ hr => hr.mono hW

theorem Values.mono {v v' : Value} (h : ρ.Values g W v v') (hW : W <+: W') : ρ.Values g W' v v' :=
  Value.Related.mono h (fun _ _ hr => hr.mono hW) fun _ _ hr => hr.mono hW

theorem Callees.mono {f f' : Callee} (h : ρ.Callees g W f f') (hW : W <+: W') :
    ρ.Callees g W' f f' :=
  Callee.Related.mono h (fun _ _ hr => hr.mono hW) fun _ _ hr => hr.mono hW

theorem Values.text {v v' : Value} (h : ρ.Values g W v v') : v'.text = v.text :=
  Value.Related.text h fun _ _ hr => hr.sees

theorem Callees.arity {f f' : Callee} (h : ρ.Callees g W f f') : f'.arity = f.arity :=
  Callee.Related.arity h (fun _ _ hr => hr.sees) fun _ _ hr => hr.sees

/-! ## Machines -/

/-- A machine that runs a tree and one that runs the renamed tree; the current frame stands in
scopes with the flags `δ`. -/
structure Machines (ρ : Renaming) (g : Nat → Option Nat) (W : World) (δ : Flags) (m m' : Machine) :
    Prop where
  size : m.store.frames.size = W.length
  size' : m'.store.frames.size = W.length
  parents : ∀ i, m'.store.parent? i = m.store.parent? i
  outermost : ∀ i, W[i]? = some [] → m.store.parent? i = none
  inside : ∀ i picked δ, W[i]? = some (picked :: δ) →
    ∃ p, m.store.parent? i = some p ∧ W[p]? = some δ
  globals : W[Machine.globalFrame]? = some []
  cells : ∀ i δ, W[i]? = some δ → ∀ name ≠ ρ.new, Option.Rel (ρ.Values g W)
    (m.store.get? i name) (m'.store.get? i (ρ.name δ.here name))
  objects : ∀ a : Nat, Option.Rel (Table.Rel (ρ.Values g W)) m.objects[a]? m'.objects[a]?
  frame : m'.frame = m.frame
  here : W[m.frame]? = some δ
  identities : m'.identities = m.identities
  depth : m'.depth = m.depth
  printed : m'.printed = m.printed
  room : m'.room = m.room
  clock : m'.clock = m.clock
  ticks : m'.ticks = m.ticks

namespace Machines

variable {ρ : Renaming} {g : Nat → Option Nat} {W : World} {δ : Flags} {m m' : Machine}

/-- The chain of a frame goes out through the scopes that the frame stands in. -/
theorem flags_ancestor (h : ρ.Machines g W δ m m') {d i j : Nat} {Δ : Flags}
    (hi : W[i]? = some Δ) (hj : m.store.ancestor? d i = some j) : W[j]? = some (Δ.drop d) := by
  induction d generalizing i Δ with
  | zero => cases hj; exact hi
  | succ d ih =>
    rw [Store.ancestor?] at hj
    cases Δ with
    | nil => rw [h.outermost i hi] at hj; cases hj
    | cons picked Δ =>
      obtain ⟨p, hp, hW⟩ := h.inside i picked Δ hi
      rw [hp] at hj
      exact ih hW hj

theorem ancestor?_eq (h : ρ.Machines g W δ m m') (d i : Nat) :
    m'.store.ancestor? d i = m.store.ancestor? d i :=
  Store.ancestor?_congr h.parents d i

/-- The frame at a distance has a name under the name it has in the scope at that distance. -/
theorem readAt? (h : ρ.Machines g W δ m m') {name : String} (hname : name ≠ ρ.new) (d : Nat) :
    Option.Rel (ρ.Values g W) (m.store.readAt? d m.frame name)
      (m'.store.readAt? d m'.frame (ρ.name (δ.there (some d)) name)) := by
  rw [Store.readAt?, Store.readAt?, h.frame, h.ancestor?_eq]
  cases hj : m.store.ancestor? d m.frame with
  | none => exact .none
  | some j =>
    have hcell := h.cells j _ (h.flags_ancestor h.here hj) name hname
    rw [Flags.here_drop] at hcell
    exact hcell

theorem global? (h : ρ.Machines g W δ m m') {name : String} (hname : name ≠ ρ.new) :
    Option.Rel (ρ.Values g W) (m.store.get? Machine.globalFrame name)
      (m'.store.get? Machine.globalFrame name) :=
  h.cells _ _ h.globals name hname

theorem parent?_global (h : ρ.Machines g W δ m m') :
    m.store.parent? Machine.globalFrame = none ∧ m'.store.parent? Machine.globalFrame = none :=
  ⟨h.outermost _ h.globals, (h.parents _).trans (h.outermost _ h.globals)⟩

/-- A site and the renamed site read related values. -/
theorem value? (h : ρ.Machines g W δ m m') {s : Site Nat} (hs : s.name.lexeme ≠ ρ.new) :
    Option.Rel (ρ.Values g W) (m.value? (s.map g)) (m'.value? ((ρ.site g δ s).map g)) := by
  unfold Machine.value? Site.map site token
  dsimp only
  cases g s.mark with
  | none =>
    dsimp only
    rw [Store.read?_of_outermost h.parent?_global.1, Store.read?_of_outermost h.parent?_global.2]
    exact h.global? hs
  | some d => exact h.readAt? hs d

/-- An assignment at a site and one at the renamed site give a name of one frame a value, in whose
scope the name is replaced if it is at the site. -/
theorem target? (h : ρ.Machines g W δ m m') {s : Site Nat} (hs : s.name.lexeme ≠ ρ.new) :
    m'.target? ((ρ.site g δ s).map g) = m.target? (s.map g) ∧
      ∀ i ∈ m.target? (s.map g), ∃ Δ, W[i]? = some Δ ∧ Δ.here = δ.there (g s.mark) := by
  unfold Machine.target? Site.map site token
  dsimp only
  cases g s.mark with
  | none =>
    have hcell := h.global? hs
    dsimp only
    rw [Store.owner?_of_outermost h.parent?_global.1, Store.owner?_of_outermost h.parent?_global.2]
    change (if (m'.store.get? Machine.globalFrame s.name.lexeme).isSome then _ else _) = _ ∧ _
    generalize m.store.get? Machine.globalFrame s.name.lexeme = v at hcell ⊢
    generalize m'.store.get? Machine.globalFrame s.name.lexeme = v' at hcell ⊢
    cases hcell with
    | none => exact ⟨rfl, fun i hi => nomatch hi⟩
    | some _ => exact ⟨rfl, fun i hi => ⟨[], by cases hi; exact h.globals, rfl⟩⟩
  | some d =>
    dsimp only
    rw [h.frame, h.ancestor?_eq]
    exact ⟨rfl, fun i hi => ⟨_, h.flags_ancestor h.here hi, Flags.here_drop δ d⟩⟩

/-! ## Steps -/

/-- Giving a name related values in one frame. -/
theorem put (h : ρ.Machines g W δ m m') {i : Nat} {Δ : Flags} (hi : W[i]? = some Δ) {name : String}
    (hname : name ≠ ρ.new) {v v' : Value} (hv : ρ.Values g W v v') :
    ρ.Machines g W δ (m.put i name v) (m'.put i (ρ.name Δ.here name) v') := by
  refine { h with
    size := (Store.size_frames_define ..).trans h.size
    size' := (Store.size_frames_define ..).trans h.size'
    parents := fun j => ?_
    outermost := fun j hj => ?_
    inside := fun j picked Δ' hj => ?_
    cells := fun j Δ' hj key hkey => ?_ }
  · simp only [Machine.put, Store.parent?_define, h.parents]
  · simp only [Machine.put, Store.parent?_define, h.outermost j hj]
  · simp only [Machine.put, Store.parent?_define]
    exact h.inside j picked Δ' hj
  · have hc := h.cells j Δ' hj key hkey
    rw [Machine.put, Machine.put, Store.get?_define, Store.get?_define, h.size, h.size']
    by_cases hij : i = j
    · subst hij
      cases Option.some.inj (hi.symm.trans hj)
      rw [if_congr (and_congr_right' (and_congr_left' (name_inj hname hkey))) rfl rfl]
      split
      · exact .some hv
      · exact hc
    · rw [if_neg fun hc => hij hc.1, if_neg fun hc => hij hc.1]
      exact hc

/-- One more frame inside a frame. -/
theorem grow (h : ρ.Machines g W δ m m') {parent : Nat} {Δ : Flags} (hp : W[parent]? = some Δ)
    {picked : Bool} {names names' : Table Value}
    (ht : ρ.Tables picked (ρ.Values g W) names names') :
    ρ.Machines g (W ++ [picked :: Δ]) δ (m.grow names parent) (m'.grow names' parent) := by
  have hW : W <+: W ++ [picked :: Δ] := List.prefix_append _ _
  have hmono : ∀ v v' : Value, ρ.Values g W v v' → ρ.Values g (W ++ [picked :: Δ]) v v' :=
    fun _ _ hv => Values.mono hv hW
  have hsize : (W ++ [picked :: Δ]).length = W.length + 1 := by
    rw [List.length_append, List.length_singleton]
  have hsplit : ∀ {j : Nat} {Δ' : Flags}, (W ++ [picked :: Δ])[j]? = some Δ' →
      (j ≠ W.length ∧ W[j]? = some Δ') ∨ (j = W.length ∧ Δ' = picked :: Δ) := by
    intro j Δ' hj
    by_cases hlast : j = W.length
    · rw [hlast, List.getElem?_concat_length] at hj
      exact .inr ⟨hlast, (Option.some.inj hj).symm⟩
    · have hlt := (List.getElem?_eq_some_iff.1 hj).1
      rw [hsize] at hlt
      rw [List.getElem?_append_left (by omega)] at hj
      exact .inl ⟨hlast, hj⟩
  refine { h with
    size := ?_
    size' := ?_
    parents := fun j => ?_
    outermost := fun j hj => ?_
    inside := fun j picked' Δ' hj => ?_
    globals := getElem?_of_extends hW h.globals
    cells := fun j Δ' hj key hkey => ?_
    objects := fun a => (h.objects a).mono fun _ _ ht => ht.mono hmono
    here := getElem?_of_extends hW h.here }
  · rw [Machine.grow, Store.size_frames_create, h.size, hsize]
  · rw [Machine.grow, Store.size_frames_create, h.size', hsize]
  · rw [Machine.grow, Machine.grow, Store.parent?_create, Store.parent?_create, h.size, h.size',
      h.parents]
  · obtain ⟨hne, hj⟩ | ⟨-, hΔ⟩ := hsplit hj
    · rw [Machine.grow, Store.parent?_create, h.size, if_neg hne, h.outermost j hj]
    · cases hΔ
  · rw [Machine.grow, Store.parent?_create, h.size]
    obtain ⟨hne, hj⟩ | ⟨heq, hΔ⟩ := hsplit hj
    · rw [if_neg hne]
      obtain ⟨p, hparent, hWp⟩ := h.inside j picked' Δ' hj
      exact ⟨p, hparent, getElem?_of_extends hW hWp⟩
    · cases hΔ
      rw [if_pos heq]
      exact ⟨parent, rfl, getElem?_of_extends hW hp⟩
  · rw [Machine.grow, Machine.grow, Store.get?_create, Store.get?_create, h.size, h.size']
    obtain ⟨hne, hj⟩ | ⟨heq, rfl⟩ := hsplit hj
    · rw [if_neg hne, if_neg hne]
      exact (h.cells j Δ' hj key hkey).mono hmono
    · rw [if_pos heq, if_pos heq]
      exact (ht key hkey).mono hmono

/-- The frame that is created stands in the scopes of its parent and in one of its own. -/
theorem flags_nextFrame (h : ρ.Machines g W δ m m') (Δ : Flags) :
    m'.nextFrame = m.nextFrame ∧ (W ++ [Δ])[m.nextFrame]? = some Δ := by
  unfold Machine.nextFrame
  rw [h.size, h.size']
  exact ⟨rfl, List.getElem?_concat_length⟩

/-- Printing. -/
theorem write (h : ρ.Machines g W δ m m') (bytes : ByteArray) :
    ρ.Machines g W δ (m.write bytes) (m'.write bytes) := by
  have hroom := h.room
  unfold Machine.write
  rw [hroom]
  cases m.room with
  | none => exact { h with printed := congrArg (· ++ bytes) h.printed, room := rfl }
  | some r => exact { h with printed := congrArg (· ++ bytes.extract 0 r) h.printed, room := rfl }

/-- A new object. -/
theorem newObject (h : ρ.Machines g W δ m m') :
    ρ.Machines g W δ { m with objects := m.objects.push .empty }
      { m' with objects := m'.objects.push .empty } :=
  { h with objects := rel_push h.objects .empty }

/-- Giving a field related values. -/
theorem setField (h : ρ.Machines g W δ m m') (address : Nat) (name : String) {v v' : Value}
    (hv : ρ.Values g W v v') :
    ρ.Machines g W δ { m with objects := m.objects.modify address (·.insert name v) }
      { m' with objects := m'.objects.modify address (·.insert name v') } :=
  { h with objects := rel_modify h.objects address fun _ _ ht => ht.insert name hv }

/-- A field has related values. -/
theorem field? (h : ρ.Machines g W δ m m') (address : Nat) (name : String) :
    Option.Rel (ρ.Values g W) (m.objects[address]?.bind (·.find? name))
      (m'.objects[address]?.bind (·.find? name)) :=
  Table.Rel.bind_find? (h.objects address) name

/-- The two machines at the start. -/
theorem start (ρ : Renaming) (g : Nat → Option Nat) (clock : Nat → Float) (room : Option Nat) :
    ρ.Machines g [[]] [] (.start clock room) (.start clock room) := by
  refine ⟨rfl, rfl, fun _ => rfl, fun i hi => ?_, fun i picked δ hi => ?_, rfl,
    fun i δ hi name hname => ?_, fun a => .none, rfl, rfl, rfl, rfl, rfl, rfl, rfl, rfl⟩
  · obtain rfl : i = 0 := Nat.lt_one_iff.1 (List.getElem?_eq_some_iff.1 hi).1
    rfl
  · obtain rfl : i = 0 := Nat.lt_one_iff.1 (List.getElem?_eq_some_iff.1 hi).1
    cases hi
  · obtain rfl : i = 0 := Nat.lt_one_iff.1 (List.getElem?_eq_some_iff.1 hi).1
    cases hi
    exact Table.Rel.single "clock" .clock name

end Machines

end Renaming

end LoxLang
