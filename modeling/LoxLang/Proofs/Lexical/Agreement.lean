import LoxLang.Proofs.Lexical.Reference
import LoxLang.Proofs.Run.Frames
import LoxLang.Proofs.Run.Related
import LoxLang.Proofs.Run.Step
import LoxLang.Proofs.Scope.Resolution

/-!
# Values and states that agree

A value of the machine agrees with one of the reference interpreter if they differ only in the code
of their functions: the machine's bears the distances of its sites, the reference's is linked by the
text, and both stand in one context, which is as deep as the frame of the function
(`Routine.Agrees`). Frames and activations are created in step, so the two states number them alike;
`Depths` tells how many scopes each of them stands in. The display of an activation then lists the
frames of a chain (`Agrees.ancestor?_eq`), and a name is found in the same place from either end.
-/

namespace LoxLang

/-- How many scopes the frames stand in, by their numbers. -/
abbrev Depths := List Nat

/-- The names of a context. -/
def Context.names (Γ : Context) : Scopes := Γ.map Scope.names

namespace Context

@[simp] theorem names_cons (sc : Scope) (Γ : Context) : names (sc :: Γ) = sc.names :: Γ.names := rfl

@[simp] theorem names_append (Γ Δ : Context) : names (Γ ++ Δ) = Γ.names ++ Δ.names :=
  List.map_append

@[simp] theorem names_declare (Γ : Context) (name : String) :
    (Γ.declare name).names = Γ.names.declare name := by
  cases Γ <;> rfl

@[simp] theorem names_begin (Γ : Context) (name : String) :
    (Γ.begin name).names = Γ.names.declare name := by
  cases Γ <;> rfl

theorem names_after {σ : Type} (Γ : Context) (s : Stmt σ) :
    (Γ.after s).names = Γ.names.after s := by
  unfold after Scopes.after
  generalize s.declared = names
  induction names generalizing Γ with
  | nil => rfl
  | cons name names ih => rw [List.foldl_cons, List.foldl_cons, ih, names_declare]

@[simp] theorem names_inClass (Γ : Context) (name : String) (derived : Bool) :
    (Γ.inClass name derived).names = Γ.names.inClass name derived := by
  unfold inClass Scopes.inClass
  rw [names_cons, names_append, names_declare]
  cases derived <;> rfl

/-- A distance counts from the inside what the level counts from the outside. -/
theorem level?_names (Γ : Context) (name : String) :
    (Γ.distance? name = none ∧ Γ.names.level? name = none) ∨
      ∃ d, Γ.distance? name = some d ∧ d < Γ.length ∧
        Γ.names.level? name = some (Γ.length - 1 - d) := by
  induction Γ with
  | nil => exact .inl ⟨rfl, rfl⟩
  | cons sc Γ ih =>
    unfold distance? at ih ⊢
    rw [List.findIdx?_cons, names_cons, Scopes.level?]
    by_cases h : name ∈ sc.names
    · refine .inr ⟨0, ?_, Nat.succ_pos _, ?_⟩
      · rw [if_pos (by simpa using h)]
      · rw [if_pos h, names, List.length_map, List.length_cons, Nat.add_sub_cancel, Nat.sub_zero]
    · rw [if_neg (by simpa using h), if_neg h]
      obtain ⟨hd, hl⟩ | ⟨d, hd, hlt, hl⟩ := ih
      · exact .inl ⟨by rw [hd]; rfl, hl⟩
      · refine .inr ⟨d + 1, by rw [hd]; rfl, Nat.succ_lt_succ hlt, ?_⟩
        rw [hl, List.length_cons]
        congr 1
        omega

end Context

/-- A routine of the machine and one of the reference interpreter that differ only in how their code
is linked. The scopes `inner` are those which a method gets when it is bound. -/
structure Routine.Agrees (w : Depths) (inner : Context) (r r' : Routine) : Prop where
  name : r'.name = r.name
  params : r'.params = r.params
  frame : r'.frame = r.frame
  isInit : r'.isInit = r.isInit
  code : ∃ (Γ : Context) (kind : BodyKind), w[r.frame]? = some Γ.length ∧
    Node.Everywhere Node.Resolved (.body kind r.params :: (inner ++ Γ)) (.stmts r.body) ∧
    r'.body = Stmt.linkAllIn (Context.names (.body kind r.params :: (inner ++ Γ))) r.body

/-- Classes with methods that agree. -/
inductive Class.Agrees (w : Depths) : Class → Class → Prop
  | base {identity : Nat} {name : String} {methods methods' : Table Routine} :
      methods.Rel (Routine.Agrees w [.receiver]) methods' →
      Agrees w ⟨identity, name, none, methods⟩ ⟨identity, name, none, methods'⟩
  | derived {identity : Nat} {name : String} {c c' : Class} {methods methods' : Table Routine} :
      Agrees w c c' → methods.Rel (Routine.Agrees w [.receiver]) methods' →
      Agrees w ⟨identity, name, some c, methods⟩ ⟨identity, name, some c', methods'⟩

/-- Values that agree. -/
inductive Value.Agrees (w : Depths) : Value → Value → Prop
  | nil : Agrees w .nil .nil
  | bool (b : Bool) : Agrees w (.bool b) (.bool b)
  | number (n : Float) : Agrees w (.number n) (.number n)
  | string (s : String) : Agrees w (.string s) (.string s)
  | clock : Agrees w .clock .clock
  | function (identity : Nat) {r r' : Routine} : r.Agrees w [] r' →
      Agrees w (.function identity r) (.function identity r')
  | cls {c c' : Class} : c.Agrees w c' → Agrees w (.cls c) (.cls c')
  | object (address : Nat) {c c' : Class} : c.Agrees w c' →
      Agrees w (.object ⟨address, c⟩) (.object ⟨address, c'⟩)

/-! ## More frames -/

theorem Depths.getElem?_mono {w w' : Depths} (h : w <+: w') {i k : Nat} (hi : w[i]? = some k) :
    w'[i]? = some k :=
  getElem?_of_extends h hi

theorem Routine.Agrees.mono {w w' : Depths} {inner : Context} {r r' : Routine}
    (h : r.Agrees w inner r') (hw : w <+: w') : r.Agrees w' inner r' := by
  obtain ⟨Γ, kind, hΓ, hcode⟩ := h.code
  exact { h with code := ⟨Γ, kind, Depths.getElem?_mono hw hΓ, hcode⟩ }

theorem Routine.Agrees.sees {w : Depths} {inner : Context} {r r' : Routine}
    (h : r.Agrees w inner r') : r.Sees r' :=
  ⟨h.name, congrArg List.length h.params⟩

/-- Classes agree if they are related by the agreement of their methods. -/
theorem Class.agrees_iff {w : Depths} {c c' : Class} :
    c.Agrees w c' ↔ c.Related (Routine.Agrees w [.receiver]) c' := by
  constructor
  · intro h
    induction h with
    | base hm => exact .base hm
    | derived _ hm ih => exact .derived ih hm
  · intro h
    induction h with
    | base hm => exact .base hm
    | derived _ hm ih => exact .derived ih hm

/-- Values agree if they are related by the agreement of their routines. -/
theorem Value.agrees_iff {w : Depths} {v v' : Value} :
    v.Agrees w v' ↔ v.Related (Routine.Agrees w []) (Routine.Agrees w [.receiver]) v' := by
  constructor
  · intro h
    cases h with
    | nil => exact .nil
    | bool b => exact .bool b
    | number n => exact .number n
    | string s => exact .string s
    | clock => exact .clock
    | function identity hr => exact .function identity hr
    | cls hc => exact .cls (Class.agrees_iff.1 hc)
    | object address hc => exact .object address (Class.agrees_iff.1 hc)
  · intro h
    cases h with
    | nil => exact .nil
    | bool b => exact .bool b
    | number n => exact .number n
    | string s => exact .string s
    | clock => exact .clock
    | function identity hr => exact .function identity hr
    | cls hc => exact .cls (Class.agrees_iff.2 hc)
    | object address hc => exact .object address (Class.agrees_iff.2 hc)

theorem Class.Agrees.mono {w w' : Depths} {c c' : Class} (h : c.Agrees w c') (hw : w <+: w') :
    c.Agrees w' c' :=
  Class.agrees_iff.2 ((Class.agrees_iff.1 h).mono fun _ _ hr => hr.mono hw)

/-- Values that agree still do when there are more frames. -/
theorem Value.Agrees.mono {w w' : Depths} {v v' : Value} (h : v.Agrees w v') (hw : w <+: w') :
    v.Agrees w' v' :=
  Value.agrees_iff.2 ((Value.agrees_iff.1 h).mono (fun _ _ hr => hr.mono hw)
    fun _ _ hr => hr.mono hw)

/-! ## Operations on values -/

/-- Results of operations that agree: two values that do, or one failure. -/
inductive Value.ResultsAgree (w : Depths) :
    Except RuntimeCause Value → Except RuntimeCause Value → Prop
  | ok {v v' : Value} : v.Agrees w v' → ResultsAgree w (.ok v) (.ok v')
  | error (cause : RuntimeCause) : ResultsAgree w (.error cause) (.error cause)

theorem Value.ResultsAgree.of_sameResult {w : Depths} {x x' : Except RuntimeCause Value}
    (h : SameResult (Related (Routine.Agrees w []) (Routine.Agrees w [.receiver])) x x') :
    ResultsAgree w x x' := by
  cases h with
  | ok hv => exact .ok (Value.agrees_iff.2 hv)
  | error cause => exact .error cause

namespace Value.Agrees

variable {w : Depths} {a a' b b' v v' : Value}

theorem isTruthy (h : v.Agrees w v') : v'.isTruthy = v.isTruthy :=
  (Value.agrees_iff.1 h).isTruthy

theorem text (h : v.Agrees w v') : v'.text = v.text :=
  (Value.agrees_iff.1 h).text fun _ _ hr => hr.sees

theorem ofLiteral (l : Literal) : (Value.ofLiteral l).Agrees w (.ofLiteral l) :=
  Value.agrees_iff.2 (.ofLiteral l)

theorem unary (op : Kind) (h : v.Agrees w v') : ResultsAgree w (v.unary op) (v'.unary op) :=
  .of_sameResult ((Value.agrees_iff.1 h).unary op)

theorem binary (op : Kind) (ha : a.Agrees w a') (hb : b.Agrees w b') :
    ResultsAgree w (Value.binary op a b) (Value.binary op a' b') :=
  .of_sameResult ((Value.agrees_iff.1 ha).binary op (Value.agrees_iff.1 hb))

end Value.Agrees

/-- Things to call that agree. -/
inductive Callee.Agrees (w : Depths) : Callee → Callee → Prop
  | clock : Agrees w .clock .clock
  | routine {r r' : Routine} : r.Agrees w [] r' → Agrees w (.routine r) (.routine r')
  | construct {c c' : Class} : c.Agrees w c' → Agrees w (.construct c) (.construct c')

theorem Callee.agrees_iff {w : Depths} {f f' : Callee} :
    f.Agrees w f' ↔ f.Related (Routine.Agrees w []) (Routine.Agrees w [.receiver]) f' := by
  constructor
  · intro h
    cases h with
    | clock => exact .clock
    | routine hr => exact .routine hr
    | construct hc => exact .construct (Class.agrees_iff.1 hc)
  · intro h
    cases h with
    | clock => exact .clock
    | routine hr => exact .routine hr
    | construct hc => exact .construct (Class.agrees_iff.2 hc)

theorem Callee.Agrees.mono {w w' : Depths} {f f' : Callee} (h : f.Agrees w f') (hw : w <+: w') :
    f.Agrees w' f' :=
  Callee.agrees_iff.2 ((Callee.agrees_iff.1 h).mono (fun _ _ hr => hr.mono hw)
    fun _ _ hr => hr.mono hw)

theorem Value.Agrees.callee? {w : Depths} {v v' : Value} (h : v.Agrees w v') :
    Option.Rel (Callee.Agrees w) v.callee? v'.callee? :=
  (Value.agrees_iff.1 h).callee?.mono fun _ _ hf => Callee.agrees_iff.2 hf

/-- Classes that agree have the same methods. -/
theorem Class.Agrees.method? {w : Depths} {c c' : Class} (h : c.Agrees w c') (name : String) :
    Option.Rel (Routine.Agrees w [.receiver]) (c.method? name) (c'.method? name) :=
  (Class.agrees_iff.1 h).method? name

theorem Callee.Agrees.arity {w : Depths} {f f' : Callee} (h : f.Agrees w f') :
    f'.arity = f.arity :=
  (Callee.agrees_iff.1 h).arity (fun _ _ hr => hr.sees) fun _ _ hr => hr.sees

/-! ## Activations -/

namespace Lexical.State

theorem getElem?_activations_setCell (s : State) (a i : Nat) (name : String) (value : Value) :
    (s.setCell a name value).activations[i]? =
      if a = i then
        s.activations[i]?.map fun b => { b with cells := b.cells.insert name value }
      else s.activations[i]? :=
  Array.getElem?_modify

@[simp] theorem display_setCell (s : State) (a i : Nat) (name : String) (value : Value) :
    (s.setCell a name value).display i = s.display i := by
  rw [display, display, getElem?_activations_setCell]
  by_cases h : a = i
  · rw [if_pos h]
    cases s.activations[i]? <;> rfl
  · rw [if_neg h]

/-- A cell that is set is the only one that changes. -/
theorem cell?_setCell (s : State) (a i : Nat) (name key : String) (value : Value) :
    (s.setCell a name value).cell? i key =
      if a = i ∧ name = key ∧ a < s.activations.size then some value else s.cell? i key := by
  rw [cell?, cell?, getElem?_activations_setCell]
  by_cases h : a = i
  · subst h
    cases hf : s.activations[a]? with
    | none =>
      have : ¬ a < s.activations.size := fun hlt => by
        rw [Array.getElem?_eq_getElem hlt] at hf
        cases hf
      simp [this]
    | some b =>
      have hlt : a < s.activations.size := (Array.getElem?_eq_some_iff.1 hf).1
      simp [hlt, Table.find?_insert]
  · simp [h]

theorem getElem?_activations_activate (s : State) (cells : Table Value) (around i : Nat) :
    (s.activate cells around).activations[i]? =
      if i = s.activations.size then some ⟨s.display around ++ [s.activations.size], cells⟩
      else s.activations[i]? :=
  Array.getElem?_push

theorem display_activate (s : State) (cells : Table Value) (around i : Nat) :
    (s.activate cells around).display i =
      if i = s.activations.size then s.display around ++ [s.activations.size]
      else s.display i := by
  rw [display, getElem?_activations_activate]
  by_cases h : i = s.activations.size
  · rw [if_pos h, if_pos h]
  · rw [if_neg h, if_neg h]
    rfl

theorem cell?_activate (s : State) (cells : Table Value) (around i : Nat) (name : String) :
    (s.activate cells around).cell? i name =
      if i = s.activations.size then cells.find? name else s.cell? i name := by
  rw [cell?, cell?, getElem?_activations_activate]
  split <;> rfl

end Lexical.State

/-! ## States -/

/-- The chain of a frame and the display of its activation. -/
structure Mirrors (w : Depths) (store : Store Value) (display : Nat → List Nat) (i : Nat) :
    Prop where
  length : w[i]? = some (display i).length
  frame : (i = 0 ∧ store.parent? i = none ∧ display i = []) ∨
    ∃ p < i, store.parent? i = some p ∧ display i = display p ++ [i]

/-- A state of the machine and one of the reference interpreter that agree; the current frame stands
in `k` scopes. -/
structure Agree (w : Depths) (k : Nat) (m : Machine) (s : Lexical.State) : Prop where
  frames : m.store.frames.size = w.length
  activations : s.activations.size = w.length
  mirrors : ∀ i < w.length, Mirrors w m.store s.display i
  cells : ∀ i name, Option.Rel (Value.Agrees w) (m.store.get? i name) (s.cell? i name)
  objects : ∀ a : Nat, Option.Rel (Table.Rel (Value.Agrees w)) m.objects[a]? s.objects[a]?
  current : s.current = m.frame
  here : w[m.frame]? = some k
  identities : s.identities = m.identities
  depth : s.depth = m.depth
  printed : s.printed = m.printed
  room : s.room = m.room
  clock : s.clock = m.clock
  ticks : s.ticks = m.ticks

namespace Agree

variable {w : Depths} {k : Nat} {m : Machine} {s : Lexical.State}

/-- A display lists the chain of a frame from the outermost scope in; the global frame stands in
front of it. -/
theorem ancestor?_eq (h : Agree w k m s) {d i : Nat} (hi : i < w.length)
    (hd : d < (s.display i).length) :
    m.store.ancestor? d i = (s.display i)[(s.display i).length - 1 - d]? := by
  induction d generalizing i with
  | zero =>
    obtain ⟨-, ⟨rfl, hp, hs⟩ | ⟨p, hpi, hp, hs⟩⟩ := h.mirrors i hi
    · rw [hs] at hd
      cases hd
    · rw [hs]
      simp [Store.ancestor?]
  | succ d ih =>
    obtain ⟨-, ⟨rfl, hp, hs⟩ | ⟨p, hpi, hp, hs⟩⟩ := h.mirrors i hi
    · rw [hs] at hd
      cases hd
    · have hlen : (s.display i).length = (s.display p).length + 1 := by
        rw [hs, List.length_append, List.length_singleton]
      rw [Store.ancestor?, hp]
      refine (ih (Nat.lt_trans hpi hi) (by omega)).trans ?_
      rw [hs, List.getElem?_append_left (by simp; omega), List.length_append]
      congr 1
      simp
      omega

/-- The frame at the distance of a name is the activation at its level. -/
theorem ancestor?_eq_scopeAt? (h : Agree w k m s) {d : Nat} (hd : d < k) :
    m.store.ancestor? d m.frame = s.scopeAt? (k - 1 - d) := by
  have hlt : m.frame < w.length := (List.getElem?_eq_some_iff.1 h.here).1
  have hlen : (s.display m.frame).length = k :=
    Option.some.inj ((h.mirrors m.frame hlt).length.symm.trans h.here)
  rw [Lexical.State.scopeAt?, h.current, h.ancestor?_eq hlt (hlen ▸ hd), hlen]

/-- There is no scope at the level of the current depth. -/
theorem scopeAt?_eq_none (h : Agree w k m s) : s.scopeAt? k = none := by
  have hlt : m.frame < w.length := (List.getElem?_eq_some_iff.1 h.here).1
  have hlen : (s.display m.frame).length = k :=
    Option.some.inj ((h.mirrors m.frame hlt).length.symm.trans h.here)
  rw [Lexical.State.scopeAt?, h.current]
  exact List.getElem?_eq_none (Nat.le_of_eq hlen)

/-- A name has values that agree in the frame at a distance and in the activation at its level. -/
theorem readAt? (h : Agree w k m s) {d : Nat} (hd : d < k) (name : String) :
    Option.Rel (Value.Agrees w) (m.store.readAt? d m.frame name)
      ((s.scopeAt? (k - 1 - d)).bind (s.cell? · name)) := by
  rw [Store.readAt?, h.ancestor?_eq_scopeAt? hd]
  cases s.scopeAt? (k - 1 - d) with
  | none => exact .none
  | some i => exact h.cells i name

/-- The global frame has no other around it. -/
theorem owner?_global (h : Agree w k m s) (name : String) :
    m.store.owner? Machine.globalFrame name =
      if (m.store.get? Machine.globalFrame name).isSome then some Machine.globalFrame
      else none := by
  have hlt : m.frame < w.length := (List.getElem?_eq_some_iff.1 h.here).1
  have hp : m.store.parent? Machine.globalFrame = none := by
    obtain ⟨-, ⟨-, hp, -⟩ | ⟨p, hp, -⟩⟩ := h.mirrors Machine.globalFrame (Nat.zero_lt_of_lt hlt)
    · exact hp
    · cases hp
  exact Store.owner?_of_outermost hp name

/-- A site reads values that agree. -/
theorem value? (h : Agree w k m s) {Γ : Context} (hk : Γ.length = k) {site : Site (Option Nat)}
    (hs : site.mark = Γ.distance? site.name.lexeme) :
    Option.Rel (Value.Agrees w) (m.value? site) (s.value? (site.linkIn Γ.names)) := by
  unfold Machine.value? Lexical.State.value? Site.linkIn
  rw [hs]
  obtain ⟨hd, hl⟩ | ⟨d, hd, hlt, hl⟩ := Γ.level?_names site.name.lexeme
  · rw [hd, hl]
    dsimp only
    have hcell := h.cells Machine.globalFrame site.name.lexeme
    rw [Store.read?, h.owner?_global]
    change Option.Rel _ _ (s.cell? Machine.globalFrame site.name.lexeme)
    generalize hv : m.store.get? Machine.globalFrame site.name.lexeme = v at hcell
    cases v with
    | none => exact hcell
    | some v =>
      change Option.Rel _ (m.store.get? Machine.globalFrame site.name.lexeme) _
      rw [hv]
      exact hcell
  · rw [hd, hl]
    dsimp only
    rw [hk]
    exact h.readAt? (hk ▸ hlt) _

/-- An assignment finds its frame where the reference interpreter finds the activation. -/
theorem target? (h : Agree w k m s) {Γ : Context} (hk : Γ.length = k) {site : Site (Option Nat)}
    (hs : site.mark = Γ.distance? site.name.lexeme) :
    s.target? (site.linkIn Γ.names) = m.target? site := by
  unfold Machine.target? Lexical.State.target? Site.linkIn
  rw [hs]
  obtain ⟨hd, hl⟩ | ⟨d, hd, hlt, hl⟩ := Γ.level?_names site.name.lexeme
  · rw [hd, hl]
    dsimp only
    have hcell := h.cells Machine.globalFrame site.name.lexeme
    rw [h.owner?_global]
    change (if (s.cell? Machine.globalFrame _).isSome then some Machine.globalFrame else none) = _
    generalize m.store.get? Machine.globalFrame site.name.lexeme = v at hcell ⊢
    generalize s.cell? Machine.globalFrame site.name.lexeme = v' at hcell ⊢
    cases hcell <;> rfl
  · rw [hd, hl]
    dsimp only
    rw [h.ancestor?_eq_scopeAt? (hk ▸ hlt), hk]

/-! ## Steps -/

/-- Giving a name values that agree. -/
theorem put (h : Agree w k m s) (i : Nat) (name : String) {v v' : Value} (hv : v.Agrees w v') :
    Agree w k (m.put i name v) (s.setCell i name v') := by
  refine { h with
    frames := (Store.size_frames_define ..).trans h.frames
    activations := Array.size_modify.trans h.activations
    mirrors := fun j hj => ?_
    cells := fun j key => ?_ }
  · obtain ⟨hlen, hframe⟩ := h.mirrors j hj
    refine ⟨by rw [Lexical.State.display_setCell]; exact hlen, ?_⟩
    simp only [Lexical.State.display_setCell, Machine.put, Store.parent?_define]
    exact hframe
  · have hc := h.cells j key
    rw [Machine.put, Store.get?_define, Lexical.State.cell?_setCell, h.frames, h.activations]
    split
    · exact .some hv
    · exact hc

/-- A new frame mirrors a new activation, and all others mirror what they did. -/
theorem mirrors_grow (h : Agree w k m s) (names names' : Table Value) {parent depth : Nat}
    (hp : w[parent]? = some depth) {j : Nat} (hj : j < w.length + 1) :
    Mirrors (w ++ [depth + 1]) (m.grow names parent).store
      (s.activate names' parent).display j := by
  have hplt : parent < w.length := (List.getElem?_eq_some_iff.1 hp).1
  have hold : ∀ i < w.length, (s.activate names' parent).display i = s.display i := by
    intro i hi
    rw [Lexical.State.display_activate, h.activations, if_neg (Nat.ne_of_lt hi)]
  by_cases hlast : j = w.length
  · have hdepth := (h.mirrors parent hplt).length.symm.trans hp
    have hnew : (s.activate names' parent).display j = s.display parent ++ [j] := by
      rw [Lexical.State.display_activate, h.activations, if_pos hlast, hlast]
    refine ⟨?_, .inr ⟨parent, hlast ▸ hplt, ?_, ?_⟩⟩
    · rw [hnew, hlast, List.getElem?_concat_length, List.length_append, Option.some.inj hdepth]
      rfl
    · rw [Machine.grow, Store.parent?_create, h.frames, if_pos hlast]
    · rw [hnew, hold parent hplt]
  · have hjlt : j < w.length := by omega
    obtain ⟨hlen, hframe⟩ := h.mirrors j hjlt
    refine ⟨?_, ?_⟩
    · rw [List.getElem?_append_left hjlt, hlen, hold j hjlt]
    · rw [Machine.grow, Store.parent?_create, h.frames, if_neg hlast, hold j hjlt]
      refine hframe.imp id fun ⟨p, hpj, hparent, hdisplay⟩ => ⟨p, hpj, hparent, ?_⟩
      rw [hold p (Nat.lt_trans hpj hjlt), hdisplay]

/-- A new frame and a new activation. -/
theorem grow (h : Agree w k m s) {names names' : Table Value}
    (ht : names.Rel (Value.Agrees w) names') {parent depth : Nat} (hp : w[parent]? = some depth) :
    Agree (w ++ [depth + 1]) k (m.grow names parent) (s.activate names' parent) := by
  have hw : w <+: w ++ [depth + 1] := List.prefix_append _ _
  have hmono : ∀ v v' : Value, v.Agrees w v' → v.Agrees (w ++ [depth + 1]) v' :=
    fun _ _ hv => hv.mono hw
  have hlen : (w ++ [depth + 1]).length = w.length + 1 := by
    rw [List.length_append, List.length_singleton]
  refine { h with
    frames := ?_
    activations := ?_
    mirrors := fun j hj => h.mirrors_grow names names' hp (hlen ▸ hj)
    cells := fun j key => ?_
    objects := fun a => (h.objects a).mono fun _ _ ht => ht.mono hmono
    here := Depths.getElem?_mono hw h.here }
  · rw [Machine.grow, Store.size_frames_create, h.frames, hlen]
  · rw [hlen, ← h.activations]
    exact Array.size_push _
  · rw [Machine.grow, Store.get?_create, Lexical.State.cell?_activate, h.frames, h.activations]
    split
    · exact ht.mono hmono key
    · exact (h.cells j key).mono hmono

/-- Printing. -/
theorem write (h : Agree w k m s) (bytes : ByteArray) :
    Agree w k (m.write bytes) (s.write bytes) := by
  have hroom := h.room
  unfold Machine.write Lexical.State.write
  cases hm : m.room with
  | none =>
    rw [hm] at hroom
    simp only [hroom]
    exact { h with printed := congrArg (· ++ bytes) h.printed, room := rfl }
  | some r =>
    rw [hm] at hroom
    simp only [hroom]
    exact { h with printed := congrArg (· ++ bytes.extract 0 r) h.printed, room := rfl }

theorem size_objects (h : Agree w k m s) : s.objects.size = m.objects.size :=
  size_eq_of_rel h.objects

/-- A new object. -/
theorem newObject (h : Agree w k m s) :
    Agree w k { m with objects := m.objects.push .empty }
      { s with objects := s.objects.push .empty } :=
  { h with objects := rel_push h.objects .empty }

/-- Giving a field values that agree. -/
theorem setField (h : Agree w k m s) (address : Nat) (name : String) {v v' : Value}
    (hv : v.Agrees w v') :
    Agree w k { m with objects := m.objects.modify address (·.insert name v) }
      { s with objects := s.objects.modify address (·.insert name v') } :=
  { h with objects := rel_modify h.objects address fun _ _ ht => ht.insert name hv }

/-- A field has values that agree. -/
theorem field? (h : Agree w k m s) (address : Nat) (name : String) :
    Option.Rel (Value.Agrees w) (m.objects[address]?.bind (·.find? name))
      (s.objects[address]?.bind (·.find? name)) :=
  Table.Rel.bind_find? (h.objects address) name

end Agree

end LoxLang
