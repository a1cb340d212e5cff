import LoxLang.Proofs.Loops.Gaps
import LoxLang.Proofs.Run.Frames
import LoxLang.Proofs.Run.Related
import LoxLang.Proofs.Run.Step

/-!
# Machines with and without frames for empty scopes

A scope that is left out has a frame in one machine and none in the other. `Places` tell where the
frames of the first machine are found in the second one, each with the gaps among the scopes that it
stands in: the frame of a scope that stays has a frame of its own there, with the same names, while
a frame for a scope that is left out is found where its parent is. A walk along a chain comes to the
same frame in both, over the distance that the gaps leave (`Gaps.Machines.ancestor?`), so a site and
the site bound in the scopes that stay come to the same (`Gaps.Machines.value?`, `.target?`). Code
may be run in both if it stands in an accepted line (`Node.Accepted`).
-/

namespace LoxLang

/-- The node stands in this context in an accepted line. -/
def Node.Accepted (Γ : Context) (node : Node (Option Nat)) : Prop :=
  ∃ line : Line (Option Nat), line.Accepted ∧ line.Within Γ node

namespace Node.Accepted

variable {Γ Γ' : Context} {node node' : Node (Option Nat)}

theorem child (h : Accepted Γ node) (hc : (Γ', node') ∈ node.children Γ) : Accepted Γ' node' := by
  obtain ⟨line, hline, hw⟩ := h
  exact ⟨line, hline, hw.child hc⟩

theorem resolved (h : Accepted Γ node) : Everywhere Resolved Γ node := by
  obtain ⟨line, hline, hw⟩ := h
  exact hline.resolved.within hw

theorem proper (h : Accepted Γ node) : Γ.Proper := by
  obtain ⟨line, hline, hw⟩ := h
  exact hw.proper hline

theorem spelled (h : Accepted Γ node) : node.Spelled := by
  obtain ⟨line, hline, hw⟩ := h
  exact hw.spelled hline

end Node.Accepted

/-! ## Frames of a machine -/

theorem Store.owner?_global (s : Store Value) (name : String) :
    s.owner? Machine.globalFrame name =
      if (s.get? Machine.globalFrame name).isSome then some Machine.globalFrame else none :=
  s.owner?_zero name

namespace Machine

variable (m : Machine) (names : Table Value) (parent j : Nat)

theorem size_grow : (m.grow names parent).store.frames.size = m.store.frames.size + 1 :=
  Store.size_frames_create ..

theorem parent?_grow : (m.grow names parent).store.parent? j =
    if j = m.nextFrame then some parent else m.store.parent? j :=
  Store.parent?_create ..

theorem get?_grow (x : String) : (m.grow names parent).store.get? j x =
    if j = m.nextFrame then names.find? x else m.store.get? j x :=
  Store.get?_create ..

end Machine

/-! ## Places -/

/-- Where a frame is found in the machine without frames for the gaps. -/
structure Place where
  frame : Nat
  gaps : Gaps

/-- The places of the frames that are known. -/
abbrev Places := Nat → Option Place

namespace Places

variable {W W' W'' : Places} {i j : Nat} {p q : Place}

/-- More frames are known, and those that were are found where they were. -/
def Extends (W W' : Places) : Prop := ∀ i p, W i = some p → W' i = some p

/-- One more frame. -/
def add (W : Places) (i : Nat) (p : Place) : Places := fun j => if j = i then some p else W j

theorem Extends.refl (W : Places) : W.Extends W := fun _ _ h => h

theorem Extends.trans (h : W.Extends W') (h' : W'.Extends W'') : W.Extends W'' :=
  fun i p hi => h' i p (h i p hi)

theorem add_self (W : Places) (i : Nat) (p : Place) : W.add i p i = some p := if_pos rfl

theorem extends_add (h : W i = none) (p : Place) : W.Extends (W.add i p) := by
  intro j q hj
  have hne : j ≠ i := fun he => by
    rw [he, h] at hj
    cases hj
  exact (if_neg hne).trans hj

theorem of_add (h : W.add i p j = some q) : (j = i ∧ q = p) ∨ (j ≠ i ∧ W j = some q) := by
  by_cases hj : j = i
  · exact .inl ⟨hj, Option.some.inj (h.symm.trans (if_pos hj))⟩
  · exact .inr ⟨hj, (if_neg hj).symm.trans h⟩

end Places

namespace Gaps

/-! ## Values -/

/-- Routines with one text, whose code is bound in the scopes that stay. The scopes `inner` are
those that a method gets when it is bound; an initializer is bound in a frame for its receiver. -/
structure Routines (W : Places) (inner : Context) (r r' : Routine) : Prop where
  name : r'.name = r.name
  params : r'.params = r.params
  isInit : r'.isInit = r.isInit
  code : ∃ Γ kind params δ, W r.frame = some ⟨r'.frame, δ⟩ ∧ δ.In Γ ∧
    (inner = [] → r.isInit = true → δ.here = false) ∧
    Node.Accepted (.ofParams kind params :: (inner ++ Γ)) (.stmts r.body) ∧
    r'.body = Stmt.bindAllIn (params.map Token.lexeme :: (inner.names ++ δ.thin Γ.names))
      (Stmt.bareAll r.body)

/-- Classes whose methods are bound in the scopes that stay. -/
abbrev Classes (W : Places) : Class → Class → Prop := Class.Related (Routines W [.receiver])

/-- Values whose code is bound in the scopes that stay. -/
abbrev Values (W : Places) : Value → Value → Prop :=
  Value.Related (Routines W []) (Routines W [.receiver])

/-- Things to call whose code is bound in the scopes that stay. -/
abbrev Callees (W : Places) : Callee → Callee → Prop :=
  Callee.Related (Routines W []) (Routines W [.receiver])

variable {W W' : Places} {inner : Context}

theorem Routines.sees {r r' : Routine} (h : Routines W inner r r') : r.Sees r' :=
  ⟨h.name, congrArg List.length h.params⟩

theorem Routines.mono {r r' : Routine} (h : Routines W inner r r') (hW : W.Extends W') :
    Routines W' inner r r' := by
  obtain ⟨Γ, kind, params, δ, hδ, hrest⟩ := h.code
  exact { h with code := ⟨Γ, kind, params, δ, hW _ _ hδ, hrest⟩ }

theorem Classes.mono {c c' : Class} (h : Classes W c c') (hW : W.Extends W') : Classes W' c c' :=
  Class.Related.mono h fun _ _ hr => hr.mono hW

theorem Values.mono {v v' : Value} (h : Values W v v') (hW : W.Extends W') : Values W' v v' :=
  Value.Related.mono h (fun _ _ hr => hr.mono hW) fun _ _ hr => hr.mono hW

theorem Callees.mono {f f' : Callee} (h : Callees W f f') (hW : W.Extends W') : Callees W' f f' :=
  Callee.Related.mono h (fun _ _ hr => hr.mono hW) fun _ _ hr => hr.mono hW

theorem Values.text {v v' : Value} (h : Values W v v') : v'.text = v.text :=
  Value.Related.text h fun _ _ hr => hr.sees

theorem Callees.arity {f f' : Callee} (h : Callees W f f') : f'.arity = f.arity :=
  Callee.Related.arity h (fun _ _ hr => hr.sees) fun _ _ hr => hr.sees

/-! ## Machines -/

/-- A machine with frames for the scopes that are left out, in frame `i`, and one without such
frames, in the place `p` of that frame. -/
structure Machines (W : Places) (i : Nat) (p : Place) (m m' : Machine) : Prop where
  known : ∀ j q, W j = some q → j < m.store.frames.size ∧ q.frame < m'.store.frames.size
  gap : ∀ j j' δ, W j = some ⟨j', true :: δ⟩ →
    ∃ k, m.store.parent? j = some k ∧ W k = some ⟨j', δ⟩
  parents : ∀ j q, W j = some q → q.gaps.here = false →
    Option.Rel (fun k k' => W k = some ⟨k', q.gaps.tail⟩) (m.store.parent? j)
      (m'.store.parent? q.frame)
  cells : ∀ j q, W j = some q → q.gaps.here = false → ∀ name,
    Option.Rel (Values W) (m.store.get? j name) (m'.store.get? q.frame name)
  distinct : ∀ j k q r, W j = some q → W k = some r → q.gaps.here = false →
    r.gaps.here = false → q.frame = r.frame → j = k
  globals : W Machine.globalFrame = some ⟨Machine.globalFrame, []⟩
  objects : ∀ a : Nat, Option.Rel (Table.Rel (Values W)) m.objects[a]? m'.objects[a]?
  frame : m.frame = i
  frame' : m'.frame = p.frame
  here : W i = some p
  identities : m'.identities = m.identities
  depth : m'.depth = m.depth
  printed : m'.printed = m.printed
  room : m'.room = m.room
  clock : m'.clock = m.clock
  ticks : m'.ticks = m.ticks

namespace Machines

variable {W : Places} {i : Nat} {p : Place} {m m' : Machine}

/-- The walk over a distance comes to frames in one place. -/
theorem ancestor? (h : Machines W i p m m') {d j : Nat} {q : Place} (hj : W j = some q)
    (hd : q.gaps.Keeps d) :
    Option.Rel (fun k k' => W k = some ⟨k', q.gaps.drop d⟩) (m.store.ancestor? d j)
      (m'.store.ancestor? (q.gaps.close d) q.frame) := by
  induction d generalizing j q with
  | zero =>
    obtain ⟨j', δ⟩ := q
    cases δ <;> exact .some hj
  | succ d ih =>
    have hstep : q.gaps.here = false → Keeps q.gaps.tail d → Option.Rel
        (fun k k' => W k = some ⟨k', q.gaps.tail.drop d⟩) (m.store.ancestor? (d + 1) j)
        (m'.store.ancestor? (Gaps.close q.gaps.tail d + 1) q.frame) := by
      intro hhere hd
      have hp := h.parents j q hj hhere
      rw [Store.ancestor?, Store.ancestor?]
      generalize m.store.parent? j = o at hp ⊢
      generalize m'.store.parent? q.frame = o' at hp ⊢
      cases hp with
      | none => exact .none
      | some hk => exact ih hk hd
    obtain ⟨j', δ⟩ := q
    cases δ with
    | nil =>
      have hnil := hstep rfl (by rw [List.tail_nil, Keeps, List.drop_nil]; rfl)
      rw [List.tail_nil, List.drop_nil] at hnil
      exact hnil
    | cons gap δ =>
      cases gap with
      | false => exact hstep rfl hd
      | true =>
        obtain ⟨k, hp, hk⟩ := h.gap j j' δ hj
        rw [Store.ancestor?, hp]
        exact ih hk hd

/-- The frame at a distance has related values under each name. -/
theorem readAt? (h : Machines W i p m m') {d : Nat} (hd : p.gaps.Keeps d) (name : String) :
    Option.Rel (Values W) (m.store.readAt? d m.frame name)
      (m'.store.readAt? (p.gaps.close d) m'.frame name) := by
  have ha := h.ancestor? h.here hd
  rw [Store.readAt?, Store.readAt?, h.frame, h.frame']
  generalize m.store.ancestor? d i = o at ha ⊢
  generalize m'.store.ancestor? (p.gaps.close d) p.frame = o' at ha ⊢
  cases ha with
  | none => exact .none
  | some hk => exact h.cells _ _ hk hd name

theorem global? (h : Machines W i p m m') (name : String) :
    Option.Rel (Values W) (m.store.get? Machine.globalFrame name)
      (m'.store.get? Machine.globalFrame name) :=
  h.cells _ _ h.globals rfl name

/-- A site reads a value that is related to the one that it reads when it is bound in the scopes
that stay. -/
theorem value? (h : Machines W i p m m') {Γ : Context} (hΓ : p.gaps.In Γ)
    {s : Site (Option Nat)} (hs : s.mark = Γ.distance? s.name.lexeme) :
    Option.Rel (Values W) (m.value? s)
      (m'.value? ((s.map fun _ => ()).bindIn (p.gaps.thin Γ.names))) := by
  unfold Machine.value? Site.bindIn Site.map
  dsimp only
  rw [hs]
  obtain ⟨hd, ht⟩ | ⟨d, hd, hkeeps, ht⟩ := hΓ.distance? s.name.lexeme
  · rw [hd, ht]
    have hcell := h.global? s.name.lexeme
    dsimp only
    rw [Store.read?, Store.read?, Store.owner?_global, Store.owner?_global]
    generalize hv : m.store.get? Machine.globalFrame s.name.lexeme = v at hcell ⊢
    generalize hv' : m'.store.get? Machine.globalFrame s.name.lexeme = v' at hcell ⊢
    cases hcell with
    | none => exact .none
    | some hvalue =>
      change Option.Rel _ (m.store.get? Machine.globalFrame _) (m'.store.get? _ _)
      rw [hv, hv']
      exact .some hvalue
  · rw [hd, ht]
    exact h.readAt? hkeeps _

/-- An assignment at a site finds a frame for a scope that stays, and finds its place when the site
is bound in the scopes that do. -/
theorem target? (h : Machines W i p m m') {Γ : Context} (hΓ : p.gaps.In Γ)
    {s : Site (Option Nat)} (hs : s.mark = Γ.distance? s.name.lexeme) :
    Option.Rel (fun j j' => ∃ δ, W j = some ⟨j', δ⟩ ∧ δ.here = false) (m.target? s)
      (m'.target? ((s.map fun _ => ()).bindIn (p.gaps.thin Γ.names))) := by
  unfold Machine.target? Site.bindIn Site.map
  dsimp only
  rw [hs]
  obtain ⟨hd, ht⟩ | ⟨d, hd, hkeeps, ht⟩ := hΓ.distance? s.name.lexeme
  · rw [hd, ht]
    have hcell := h.global? s.name.lexeme
    dsimp only
    rw [Store.owner?_global, Store.owner?_global]
    generalize m.store.get? Machine.globalFrame s.name.lexeme = v at hcell ⊢
    generalize m'.store.get? Machine.globalFrame s.name.lexeme = v' at hcell ⊢
    cases hcell with
    | none => exact .none
    | some _ => exact .some ⟨[], h.globals, rfl⟩
  · rw [hd, ht]
    dsimp only
    rw [h.frame, h.frame']
    exact (h.ancestor? h.here hkeeps).mono fun _ _ hk => ⟨_, hk, hkeeps⟩

/-! ## Steps -/

/-- Giving a name related values in a frame for a scope that stays. -/
theorem put (h : Machines W i p m m') {j : Nat} {q : Place} (hj : W j = some q)
    (hq : q.gaps.here = false) (name : String) {v v' : Value} (hv : Values W v v') :
    Machines W i p (m.put j name v) (m'.put q.frame name v') := by
  refine { h with
    known := fun k r hk => ?_
    gap := fun k k' δ hk => ?_
    parents := fun k r hk hr => ?_
    cells := fun k r hk hr key => ?_ }
  · simp only [Machine.put, Store.size_frames_define]
    exact h.known k r hk
  · simp only [Machine.put, Store.parent?_define]
    exact h.gap k k' δ hk
  · simp only [Machine.put, Store.parent?_define]
    exact h.parents k r hk hr
  · have hcell := h.cells k r hk hr key
    obtain ⟨hlt, hlt'⟩ := h.known j q hj
    have hsame : q.frame = r.frame ↔ j = k := by
      refine ⟨h.distinct j k q r hj hk hq hr, fun he => ?_⟩
      cases he
      exact congrArg Place.frame (Option.some.inj (hj.symm.trans hk))
    rw [Machine.put, Machine.put, Store.get?_define, Store.get?_define]
    simp only [hsame, hlt, hlt', and_true]
    split
    · exact .some hv
    · exact hcell

/-- A new frame of the first machine is not known yet. -/
theorem nextFrame_unknown (h : Machines W i p m m') : W m.nextFrame = none := by
  cases hp : W m.nextFrame with
  | none => rfl
  | some q => exact absurd (h.known _ q hp).1 (Nat.lt_irrefl _)

/-- No frame has its place in a new frame of the second machine. -/
theorem ne_nextFrame (h : Machines W i p m m') {j : Nat} {q : Place} (hj : W j = some q) :
    q.frame ≠ m'.nextFrame :=
  Nat.ne_of_lt (h.known j q hj).2

/-- One more frame in both machines. -/
theorem grow (h : Machines W i p m m') {parent : Nat} {q : Place} (hparent : W parent = some q)
    {names names' : Table Value} (ht : names.Rel (Values W) names') :
    Machines (W.add m.nextFrame ⟨m'.nextFrame, false :: q.gaps⟩) i p (m.grow names parent)
      (m'.grow names' q.frame) := by
  have hW := Places.extends_add h.nextFrame_unknown ⟨m'.nextFrame, false :: q.gaps⟩
  have hmono : ∀ v v' : Value, Values W v v' → Values _ v v' := fun _ _ hv => Values.mono hv hW
  refine { h with
    known := fun j r hj => ?_
    gap := fun j j' δ hj => ?_
    parents := fun j r hj hr => ?_
    cells := fun j r hj hr key => ?_
    distinct := fun j k r t hj hk hr ht he => ?_
    globals := hW _ _ h.globals
    objects := fun a => (h.objects a).mono fun _ _ ht => ht.mono hmono
    here := hW _ _ h.here }
  · rw [Machine.size_grow, Machine.size_grow]
    obtain ⟨rfl, rfl⟩ | ⟨-, hj⟩ := Places.of_add hj
    · exact ⟨Nat.lt_succ_self _, Nat.lt_succ_self _⟩
    · exact (h.known j r hj).imp Nat.lt_succ_of_lt Nat.lt_succ_of_lt
  · obtain ⟨-, hr⟩ | ⟨hne, hj⟩ := Places.of_add hj
    · cases hr
    · obtain ⟨k, hp, hk⟩ := h.gap j j' δ hj
      refine ⟨k, ?_, hW _ _ hk⟩
      rw [Machine.parent?_grow, if_neg hne, hp]
  · rw [Machine.parent?_grow, Machine.parent?_grow]
    obtain ⟨rfl, rfl⟩ | ⟨hne, hj⟩ := Places.of_add hj
    · rw [if_pos rfl, if_pos rfl]
      exact .some (hW _ _ hparent)
    · rw [if_neg hne, if_neg (h.ne_nextFrame hj)]
      exact (h.parents j r hj hr).mono fun k k' hk => hW _ _ hk
  · rw [Machine.get?_grow, Machine.get?_grow]
    obtain ⟨rfl, rfl⟩ | ⟨hne, hj⟩ := Places.of_add hj
    · rw [if_pos rfl, if_pos rfl]
      exact ht.mono hmono key
    · rw [if_neg hne, if_neg (h.ne_nextFrame hj)]
      exact (h.cells j r hj hr key).mono hmono
  · obtain ⟨rfl, rfl⟩ | ⟨hj', hj⟩ := Places.of_add hj <;>
      obtain ⟨rfl, rfl⟩ | ⟨hk', hk⟩ := Places.of_add hk
    · rfl
    · exact absurd he.symm (h.ne_nextFrame hk)
    · exact absurd he (h.ne_nextFrame hj)
    · exact h.distinct j k r t hj hk hr ht he

/-- One more frame in the first machine, for a scope that is left out. -/
theorem widen (h : Machines W i p m m') :
    Machines (W.add m.nextFrame ⟨p.frame, true :: p.gaps⟩) m.nextFrame ⟨p.frame, true :: p.gaps⟩
      { m.grow .empty i with frame := m.nextFrame } m' := by
  have hW := Places.extends_add h.nextFrame_unknown ⟨p.frame, true :: p.gaps⟩
  have hmono : ∀ v v' : Value, Values W v v' → Values _ v v' := fun _ _ hv => Values.mono hv hW
  refine { h with
    known := fun j r hj => ?_
    gap := fun j j' δ hj => ?_
    parents := fun j r hj hr => ?_
    cells := fun j r hj hr key => ?_
    distinct := fun j k r t hj hk hr ht he => ?_
    globals := hW _ _ h.globals
    objects := fun a => (h.objects a).mono fun _ _ ht => ht.mono hmono
    frame := rfl
    here := Places.add_self .. }
  · rw [Machine.size_grow]
    obtain ⟨rfl, rfl⟩ | ⟨-, hj⟩ := Places.of_add hj
    · exact ⟨Nat.lt_succ_self _, (h.known i p h.here).2⟩
    · exact (h.known j r hj).imp_left Nat.lt_succ_of_lt
  · rw [Machine.parent?_grow]
    obtain ⟨rfl, hr⟩ | ⟨hne, hj⟩ := Places.of_add hj
    · cases hr
      exact ⟨i, if_pos rfl, hW _ _ h.here⟩
    · obtain ⟨k, hp, hk⟩ := h.gap j j' δ hj
      exact ⟨k, (if_neg hne).trans hp, hW _ _ hk⟩
  · obtain ⟨-, rfl⟩ | ⟨hne, hj⟩ := Places.of_add hj
    · cases hr
    · rw [Machine.parent?_grow, if_neg hne]
      exact (h.parents j r hj hr).mono fun k k' hk => hW _ _ hk
  · obtain ⟨-, rfl⟩ | ⟨hne, hj⟩ := Places.of_add hj
    · cases hr
    · rw [Machine.get?_grow, if_neg hne]
      exact (h.cells j r hj hr key).mono hmono
  · obtain ⟨-, rfl⟩ | ⟨-, hj⟩ := Places.of_add hj
    · cases hr
    · obtain ⟨-, rfl⟩ | ⟨-, hk⟩ := Places.of_add hk
      · cases ht
      · exact h.distinct j k r t hj hk hr ht he

/-- Printing. -/
theorem write (h : Machines W i p m m') (bytes : ByteArray) :
    Machines W i p (m.write bytes) (m'.write bytes) := by
  have hroom := h.room
  unfold Machine.write
  rw [hroom]
  cases m.room with
  | none => exact { h with printed := congrArg (· ++ bytes) h.printed, room := rfl }
  | some r => exact { h with printed := congrArg (· ++ bytes.extract 0 r) h.printed, room := rfl }

/-- A new object. -/
theorem newObject (h : Machines W i p m m') :
    Machines W i p { m with objects := m.objects.push .empty }
      { m' with objects := m'.objects.push .empty } :=
  { h with objects := rel_push h.objects .empty }

/-- Giving a field related values. -/
theorem setField (h : Machines W i p m m') (address : Nat) (name : String) {v v' : Value}
    (hv : Values W v v') :
    Machines W i p { m with objects := m.objects.modify address (·.insert name v) }
      { m' with objects := m'.objects.modify address (·.insert name v') } :=
  { h with objects := rel_modify h.objects address fun _ _ ht => ht.insert name hv }

/-- A field has related values. -/
theorem field? (h : Machines W i p m m') (address : Nat) (name : String) :
    Option.Rel (Values W) (m.objects[address]?.bind (·.find? name))
      (m'.objects[address]?.bind (·.find? name)) :=
  Table.Rel.bind_find? (h.objects address) name

end Machines

end Gaps

end LoxLang
