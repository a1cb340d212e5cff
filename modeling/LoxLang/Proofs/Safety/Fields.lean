import LoxLang.Proofs.Safety.History

/-!
# Fields

A field of an instance holds what it was last given, and an instance has no fields that it was not
given (`Session.History.field?_eq`). The values that fields are given are the events of the history
here, and the only tasks that add to them are assignments to fields.
-/

namespace LoxLang

/-- A value that a field of an instance is given. -/
structure FieldWrite where
  address : Nat
  name : String
  value : Value

/-- What the writes have last given to a field. -/
def FieldWrite.last? (ws : List FieldWrite) (address : Nat) (name : String) : Option Value :=
  (ws.reverse.find? fun w => w.address = address ∧ w.name = name).map FieldWrite.value

/-- The value of a field. -/
def Machine.field? (m : Machine) (address : Nat) (name : String) : Option Value :=
  m.objects[address]?.bind (·.find? name)

/-- The write that a task makes after its parts: that of an assignment to a field. -/
def Task.sets (n : Nat) (m : Machine) : Task → List FieldWrite
  | .run (.expr (.set e name e')) =>
    match Run.evaluate n e m with
    | .ok (.object o) m' =>
      match Run.evaluate n e' m' with
      | .ok v _ => [⟨o.address, name.lexeme, v⟩]
      | .error _ _ => []
    | _ => []
  | _ => []

/-- The writes that a task makes. -/
abbrev Task.writes (n : Nat) (m : Machine) (t : Task) : List FieldWrite :=
  t.events Task.sets n m

namespace FieldWrite

@[simp] theorem last?_nil (a : Nat) (x : String) : last? [] a x = none := rfl

theorem last?_append (ws ws' : List FieldWrite) (a : Nat) (x : String) :
    last? (ws ++ ws') a x = (last? ws' a x).or (last? ws a x) := by
  unfold last?
  rw [List.reverse_append, List.find?_append, Option.map_or]

theorem last?_singleton (w : FieldWrite) (a : Nat) (x : String) :
    last? [w] a x = if w.address = a ∧ w.name = x then some w.value else none := by
  unfold last?
  rw [List.reverse_singleton, List.find?_singleton]
  by_cases h : w.address = a ∧ w.name = x
  · rw [if_pos (decide_eq_true h), if_pos h]
    rfl
  · rw [if_neg (by simpa using h), if_neg h]
    rfl

/-- A field that some write gives a value has been given one. -/
theorem exists_last? {ws : List FieldWrite} {a : Nat} {x : String}
    (h : ∃ w ∈ ws, w.address = a ∧ w.name = x) : ∃ v, last? ws a x = some v := by
  obtain ⟨w, hw, hfield⟩ := h
  have hsome : (ws.reverse.find? fun w => w.address = a ∧ w.name = x).isSome :=
    List.find?_isSome.2 ⟨w, List.mem_reverse.2 hw, decide_eq_true hfield⟩
  obtain ⟨found, hfound⟩ := Option.isSome_iff_exists.1 hsome
  exact ⟨found.value, by rw [last?, hfound, Option.map_some]⟩

theorem last?_eq_none {ws : List FieldWrite} {a : Nat} {x : String}
    (h : ∀ w ∈ ws, w.address = a → w.name ≠ x) : last? ws a x = none := by
  rw [last?, Option.map_eq_none_iff, List.find?_eq_none]
  intro w hw hfield
  obtain ⟨ha, hx⟩ := of_decide_eq_true hfield
  exact h w (List.mem_reverse.1 hw) ha hx

end FieldWrite

namespace Machine

/-- Setting a field of an instance changes this field only. -/
theorem field?_set {m : Machine} {a : Nat} (ha : a < m.objects.size) (x : String) (v : Value)
    (b : Nat) (y : String) :
    ({ m with objects := m.objects.modify a (·.insert x v) } : Machine).field? b y =
      if a = b ∧ x = y then some v else m.field? b y := by
  unfold field?
  dsimp only
  rw [Array.getElem?_modify]
  by_cases hb : a = b
  · subst hb
    rw [if_pos rfl, Array.getElem?_eq_getElem ha]
    simp [Table.find?_insert]
  · rw [if_neg hb, if_neg fun h => hb h.1]

/-- The fields of two machines are the same. -/
def SameFields (m m' : Machine) : Prop := ∀ a x, m'.field? a x = m.field? a x

/-- Fields change only when they are set: a new instance has none. -/
theorem SameFields.timely : Timely SameFields where
  same h a x := by rw [field?, field?, h.objects]
  trans h h' a x := (h' a x).trans (h a x)
  create _ _ _ _ _ := rfl
  define _ _ _ _ _ _ := rfl
  newIdentity _ _ _ := rfl
  newObject m a x := by
    unfold field?
    dsimp only
    rw [Array.getElem?_push]
    split
    · next ha => rw [ha, Array.getElem?_size]; rfl
    · rfl

end Machine

namespace Task

variable {n : Nat} {t : Task} {m m' : Machine}

/-- Along a chain of tasks between which no field changes, a field holds what one of them has last
given to it, or else what it held before. -/
theorem Linked.field? {ps : List (Task × Machine)} (h : Linked Machine.SameFields n m ps m')
    (hps : ∀ p ∈ ps, ∀ a x, (p.1.after n p.2).field? a x =
      (FieldWrite.last? (p.1.writes n p.2) a x).or (p.2.field? a x)) (a : Nat) (x : String) :
    m'.field? a x = (FieldWrite.last? (eventsOf sets n ps) a x).or (m.field? a x) := by
  induction ps generalizing m with
  | nil => exact h a x
  | cons p ps ih =>
    obtain ⟨hp, hps⟩ := List.forall_mem_cons.1 hps
    rw [ih h.2 hps, hp, h.1, eventsOf_cons, FieldWrite.last?_append, Option.or_assoc]

/-- Only assignments to fields make writes. -/
theorem sets_eq_nil (ht : ∀ e name e', t ≠ .run (.expr (.set e name e'))) : t.sets n m = [] := by
  unfold sets
  split
  · exact absurd rfl (ht _ _ _)
  · rfl

/-- No field changes between the parts of a task, and after them fields change by the write of the
task alone. -/
theorem Placed.linked_fields (ht : t.Placed m) :
    ∃ m', Linked Machine.SameFields n m (t.parts n m) m' ∧ ∀ a x,
      (t.after (n + 1) m).field? a x =
        (FieldWrite.last? (t.sets n m) a x).or (m'.field? a x) := by
  have hR := Machine.SameFields.timely
  by_cases hset : ∃ e name e', t = .run (.expr (.set e name e'))
  · obtain ⟨e, name, e', rfl⟩ := hset
    have hn := Run.placesOn n
    change ∃ m', Linked _ n m (_ :: (Run.evaluate n e).onResult m _) m' ∧ ∀ a x,
      ((Run.evaluate n e >>= _ : Run Value).after m).field? a x = _
    dsimp only [sets]
    cases hr : Run.evaluate n e m with
    | error fault m₁ =>
      refine ⟨m₁, ?_, fun a x => ?_⟩
      · rw [Run.onResult, hr]
        exact ⟨hR.refl m, by rw [Task.after, Run.after_error hr]; exact hR.refl m₁⟩
      · rw [Run.after_error (Run.bind_error hr)]
        rfl
    | ok v m₁ =>
      obtain ⟨hle, hm₁, hv⟩ := (hn.evaluate e m).of_ok ht.machine hr
      have hfirst : (Task.run (.expr e)).after n m = m₁ := Run.after_ok hr
      cases v with
      | object o =>
        dsimp only
        cases hr' : Run.evaluate n e' m₁ with
        | error fault m₂ =>
          refine ⟨m₂, ?_, fun a x => ?_⟩
          · rw [Run.onResult_ok hr]
            refine ⟨hR.refl m, hfirst ▸ hR.refl m₁, ?_⟩
            rw [Task.after, Run.after_error hr']
            exact hR.refl m₂
          · rw [Run.after_bind_ok hr, Run.after_error (Run.bind_error hr')]
            rfl
        | ok w m₂ =>
          obtain ⟨hle', -, -⟩ := (hn.evaluate e' m₁).of_ok hm₁ hr'
          refine ⟨m₂, ?_, fun a x => ?_⟩
          · rw [Run.onResult_ok hr]
            refine ⟨hR.refl m, hfirst ▸ hR.refl m₁, ?_⟩
            rw [Task.after, Run.after_ok hr']
            exact hR.refl m₂
          · rw [Run.after_bind_ok hr, Run.after_bind_ok hr', FieldWrite.last?_singleton]
            refine (Machine.field?_set (Nat.lt_of_lt_of_le hv hle') name.lexeme w a x).trans ?_
            split <;> rfl
      | _ =>
        refine ⟨m₁, ?_, fun a x => ?_⟩
        · rw [Run.onResult_ok hr]
          exact ⟨hR.refl m, hfirst ▸ hR.refl m₁⟩
        · rw [Run.after_bind_ok hr]
          rfl
  · have hne : ∀ e name e', t ≠ .run (.expr (.set e name e')) :=
      fun e name e' h => hset ⟨e, name, e', h⟩
    refine ⟨_, linked hR fun e name e' h => absurd h (hne e name e'), fun a x => ?_⟩
    rw [sets_eq_nil hne]
    rfl

/-- **What a task does to fields.** A field holds what the task has last given to it, or else what
it held before. -/
theorem Placed.field?_after (ht : t.Placed m) (a : Nat) (x : String) :
    (t.after n m).field? a x = (FieldWrite.last? (t.writes n m) a x).or (m.field? a x) := by
  induction n generalizing t m a x with
  | zero =>
    rw [after_zero]
    rfl
  | succ n ih =>
    obtain ⟨m', hlinked, hafter⟩ := ht.linked_fields
    have hparts := hlinked.field? (fun p hp a x => ih ((mem_parts_iff.1 hp).placed ht) a x) a x
    rw [hafter, hparts, writes, events_succ, FieldWrite.last?_append, Option.or_assoc]

end Task

/-! ## Sessions -/

/-- Where a task of a line begins, all instances have their places. -/
theorem Line.placed_of_mem_parts {fuel : Nat} {code : Line (Option Nat)} {m : Machine}
    (hm : m.Placed) {p : Task × Machine} (hp : p ∈ code.parts fuel m) : p.1.Placed p.2 := by
  rcases List.mem_cons.1 hp with rfl | hp
  · exact ⟨hm, nofun⟩
  · obtain ⟨flow, m₁, hr, hp⟩ := Run.mem_onResult.1 hp
    obtain ⟨e, -, rfl⟩ := List.mem_map.1 hp
    exact ⟨(((Run.placesOn fuel).executeAll _ m).of_ok hm hr).2.1, nofun⟩

/-- The fields of a line that is run hold what the line has last given to them. -/
theorem Line.field?_after {fuel : Nat} {code : Line (Option Nat)} {m : Machine} (hm : m.Placed)
    (a : Nat) (x : String) :
    ((Run.line fuel code).after m).field? a x =
      (FieldWrite.last? (Task.eventsOf Task.sets fuel (code.parts fuel m)) a x).or
        (m.field? a x) :=
  (code.linked Machine.SameFields.timely.refl fuel m).field?
    (fun _ hp => (Line.placed_of_mem_parts hm hp).field?_after) a x

section

variable {clock : Nat → Float} {room : Option Nat} {fuel : Nat} {sources : List (Style × String)}
  {n : Nat} {t : Task} {m : Machine} {ws : List FieldWrite}

/-- A session that has run its sources has made the writes of its lines. -/
theorem Session.field?_steps {s : Session} (hs : s.machine.Placed) (fuel : Nat)
    (sources : List (Style × String)) (a : Nat) (x : String) :
    (s.steps fuel sources).2.machine.field? a x =
      (FieldWrite.last? (s.events Task.sets fuel sources) a x).or (s.machine.field? a x) := by
  induction sources generalizing s with
  | nil => rfl
  | cons source rest ih =>
    obtain ⟨style, source⟩ := source
    have hunprinted : s.machine.unprinted.Placed := hs.congr rfl rfl
    rw [Session.steps_cons, Session.events, FieldWrite.last?_append]
    cases hcode : style.code? s.nextSite source with
    | none =>
      have hmachine := (Session.step_of_code?_eq_none fuel hcode).2
      rw [ih (hmachine ▸ hs), hmachine]
      simp
    | some code =>
      obtain ⟨next, hstep⟩ := Session.step_of_code?_eq_some fuel hcode
      have hmachine : (s.step fuel style source).2.machine =
          (Run.line fuel code).after s.machine.unprinted := by
        rw [hstep, Session.machine_perform]
      have hplaced := ((Run.Places.line fuel code _).after hunprinted).2
      rw [ih (hmachine ▸ hplaced), hmachine, Line.field?_after hunprinted, Option.or_assoc]
      simp
      rfl

/-- **A field holds what it was last given.** Where a session reaches a task, a field of an instance
holds what the session has last given to it; it holds nothing if it was never given anything. -/
theorem Session.History.field?_eq (h : Session.History Task.sets clock room fuel sources n t m ws)
    (a : Nat) (x : String) : m.field? a x = FieldWrite.last? ws a x := by
  induction h generalizing a x with
  | @line before after style source code earlier later t m hsources hcode hparts =>
    have hruns : Session.Runs clock room fuel sources code _ :=
      ⟨before, style, source, after, hsources, hcode, rfl⟩
    have hlinked := code.linked Machine.SameFields.timely.refl fuel
      ((Session.start clock room).steps fuel before).2.machine.unprinted
    rw [hparts] at hlinked
    have hbefore := Session.field?_steps (s := Session.start clock room)
      (Machine.Placed.start clock room) fuel before a x
    have hstart : (Session.start clock room).machine.field? a x = none := rfl
    rw [hstart, Option.or_none] at hbefore
    have hline := hlinked.before.field? (fun p hp a x => (Line.placed_of_mem_parts hruns.placed
      (hparts ▸ List.mem_append_left _ hp)).field?_after a x) a x
    rw [hline, FieldWrite.last?_append, ← hbefore]
    rfl
  | @part n t t' m m' ws earlier later hhistory hparts ih =>
    have ht := hhistory.reached.placed
    obtain ⟨m₁, hlinked, -⟩ := ht.linked_fields (n := n)
    rw [hparts] at hlinked
    have hearlier := hlinked.before.field? (fun p hp a x => ((Task.mem_parts_iff.1
      (hparts ▸ List.mem_append_left _ hp)).placed ht).field?_after a x) a x
    rw [hearlier, ih, FieldWrite.last?_append]

/-- Where a property of an instance is read, its fields hold what the session has last given to
them. -/
theorem Session.History.field?_get {e : Expr (Option Nat)} {name : Token} {v : Value}
    {m₁ : Machine}
    (h : Session.History Task.sets clock room fuel sources (n + 1) (.run (.expr (.get e name))) m
      ws)
    (hv : Run.evaluate n e m = .ok v m₁) (a : Nat) (x : String) :
    m₁.field? a x = FieldWrite.last? (ws ++ (Task.run (.expr e)).writes n m) a x := by
  have hafter := (h.reached.begins .get).placed.field?_after (n := n) a x
  have hm₁ : (Task.run (.expr e)).after n m = m₁ := Run.after_ok hv
  rw [hm₁, h.field?_eq] at hafter
  rw [hafter, FieldWrite.last?_append]

end

/-- A property of an instance is a field, or else a method of its class that is bound to it. -/
theorem Run.getProperty_object (o : Object) (name : Token) (m : Machine) :
    getProperty (.object o) name m =
      match m.field? o.address name.lexeme with
      | some v => .ok v m
      | none =>
        match o.cls.method? name.lexeme with
        | some r => methodValue r o m
        | none => .error (.runtime name.line (.undefinedProperty name.lexeme)) m := by
  refine (bind_ok (r := get) (m := m) rfl).trans ?_
  unfold Machine.field?
  cases m.objects[o.address]?.bind (·.find? name.lexeme) with
  | some v => rfl
  | none => cases o.cls.method? name.lexeme <;> rfl

end LoxLang
