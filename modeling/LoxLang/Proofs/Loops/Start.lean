import LoxLang.Proofs.Loops.Runs
import LoxLang.Proofs.Safety.Parts
import LoxLang.Proofs.Safety.Reached

/-!
# A machine is in step with itself

In a session the global frame stays outermost (`Session.Reached.rooted`), and the values of a good
machine are related to themselves when no scope is left out. So a machine that a session reaches is
related to itself by the places that leave every frame where it is (`Machine.Good.machines`), and it
can be run with the scopes of blocks left out from there on.
-/

namespace LoxLang

/-! ## The global frame -/

/-- The global frame is there and is the outermost. -/
structure Machine.Rooted (m : Machine) : Prop where
  size : 0 < m.store.frames.size
  parent? : m.store.parent? Machine.globalFrame = none

/-- No step of a run puts a frame around the global one. -/
theorem Machine.timely_rooted : Machine.Timely fun m m' => m.Rooted → m'.Rooted where
  same h hm := ⟨h.store ▸ hm.size, h.store ▸ hm.parent?⟩
  trans h h' hm := h' (h hm)
  create m names parent hm := by
    have hlt : Machine.globalFrame < m.nextFrame := hm.size
    refine ⟨?_, ?_⟩
    · rw [Machine.size_grow]
      exact Nat.succ_pos _
    · rw [Machine.parent?_grow, if_neg (Nat.ne_of_lt hlt)]
      exact hm.parent?
  define m frame name value hm := by
    refine ⟨?_, ?_⟩
    · rw [Machine.put, Store.size_frames_define]
      exact hm.size
    · rw [Machine.put, Store.parent?_define]
      exact hm.parent?
  newIdentity _ hm := ⟨hm.size, hm.parent?⟩
  newObject _ hm := ⟨hm.size, hm.parent?⟩

theorem Machine.closed_rooted : Machine.Closed fun m m' => m.Rooted → m'.Rooted :=
  Machine.timely_rooted.closed fun _ _ _ hm => ⟨hm.size, hm.parent?⟩

section Session

variable {clock : Nat → Float} {room : Option Nat} {fuel : Nat} {sources : List (Style × String)}

theorem Session.Runs.rooted {code : Line (Option Nat)} {m : Machine}
    (h : Session.Runs clock room fuel sources code m) : m.Rooted := by
  obtain ⟨before, -, -, -, -, -, rfl⟩ := h
  have hsteps : ((Session.start clock room).steps fuel before).2.machine.Rooted :=
    Session.machine_steps (P := Machine.Rooted)
      (fun m code hm => Run.Respects.line Machine.closed_rooted fuel code m.unprinted
        ⟨hm.size, hm.parent?⟩) before ⟨Nat.one_pos, rfl⟩
  exact ⟨hsteps.size, hsteps.parent?⟩

/-- All along a session the global frame is the outermost. -/
theorem Session.Reached.rooted {n : Nat} {t : Task} {m : Machine}
    (h : Session.Reached clock room fuel sources n t m) : m.Rooted := by
  induction h with
  | statements hruns => exact hruns.rooted
  | @trailing code _ _ _ _ hruns hr _ =>
    have hafter := (Run.respectsOn Machine.closed_rooted fuel).executeAll code.statements _
      hruns.rooted
    rwa [Run.after_ok hr] at hafter
  | begins _ hbegins ih =>
    exact (hbegins.within Machine.timely_rooted fun _ _ _ hm => ⟨hm.size, hm.parent?⟩).1 ih

end Session

/-! ## Values -/

/-- The places that leave the frames of every context where they are. -/
noncomputable def Store.places (s : Store Value) : Places := by
  classical exact fun i => if ∃ Γ, s.Fits i Γ then some ⟨i, []⟩ else none

section

variable {L : Log} {s : Store Value}

theorem Store.Fits.places {i : Nat} {Γ : Context} (h : s.Fits i Γ) : s.places i = some ⟨i, []⟩ :=
  if_pos ⟨Γ, h⟩

theorem Store.of_places {i : Nat} {q : Place} (h : s.places i = some q) :
    q = ⟨i, []⟩ ∧ ∃ Γ, s.Fits i Γ := by
  unfold Store.places at h
  split at h
  · next hΓ => exact ⟨(Option.some.inj h).symm, hΓ⟩
  · cases h

variable (hL : L.Lawful)
include hL

theorem Routine.Good.routines {r : Routine} (h : r.Good L s) : Gaps.Routines s.places [] r r := by
  obtain ⟨line, Γ, kind, params, hline, hbody, -, hfits, -⟩ := h
  have haccepted : Node.Accepted _ _ := ⟨line, hL.accepted line hline, hbody⟩
  refine ⟨rfl, rfl, rfl, Γ, kind, params, [], hfits.places, .whole Γ, fun _ _ => rfl, haccepted, ?_⟩
  exact (Stmt.bindAllIn_bare r.body haccepted.resolved).symm

theorem Routine.Unbound.routines {r : Routine} (h : r.Unbound L s) :
    Gaps.Routines s.places [.receiver] r r := by
  obtain ⟨line, Γ, kind, params, hline, hbody, -, hfits⟩ := h
  have haccepted : Node.Accepted _ _ := ⟨line, hL.accepted line hline, hbody⟩
  refine ⟨rfl, rfl, rfl, Γ, kind, params, [], hfits.places, .whole Γ, nofun, haccepted, ?_⟩
  exact (Stmt.bindAllIn_bare r.body haccepted.resolved).symm

theorem Class.Good.classes {c : Class} (h : c.Good L s) : Gaps.Classes s.places c c := by
  induction h with
  | @intro c _ _ hmethods ih =>
    obtain ⟨identity, name, superclass, methods⟩ := c
    have htable : methods.Rel (Gaps.Routines s.places [.receiver]) methods := by
      intro x
      cases hr : methods.find? x with
      | none => exact .none
      | some r => exact .some ((hmethods x r hr).1.routines hL)
    cases superclass with
    | none => exact .base htable
    | some above => exact .derived (ih above rfl) htable

theorem Value.Good.values {v : Value} (h : v.Good L s) : Gaps.Values s.places v v := by
  cases v with
  | nil => exact .nil
  | bool b => exact .bool b
  | number x => exact .number x
  | string x => exact .string x
  | clock => exact .clock
  | function identity r => exact .function identity (Routine.Good.routines hL h.1)
  | cls c => exact .cls (Class.Good.classes hL h)
  | object o => exact .object o.address (Class.Good.classes hL h)

/-! ## Machines -/

/-- **A good machine is related to itself** when no scope is left out. -/
theorem Machine.Good.machines {m : Machine} {Γ : Context} (h : m.Good L) (hat : m.At Γ)
    (hroot : m.store.parent? Machine.globalFrame = none) :
    Gaps.Machines m.store.places m.frame ⟨m.frame, []⟩ m m where
  known j q hj := by
    obtain ⟨rfl, Γ, hf⟩ := Store.of_places hj
    exact ⟨hf.lt, hf.lt⟩
  gap j j' δ hj := by cases (Store.of_places hj).1
  parents j q hj _ := by
    obtain ⟨rfl, Γ, hf⟩ := Store.of_places hj
    cases hf with
    | global =>
      rw [hroot]
      exact .none
    | inside hp _ hf =>
      rw [hp]
      exact .some hf.places
  cells j q hj _ name := by
    obtain ⟨rfl, -⟩ := Store.of_places hj
    cases hv : m.store.get? j name with
    | none => exact .none
    | some v => exact .some ((h.frames j name v hv).values hL)
  distinct j k q r hj hk _ _ he := by
    obtain ⟨rfl, -⟩ := Store.of_places hj
    obtain ⟨rfl, -⟩ := Store.of_places hk
    exact he
  globals := (Store.Fits.global hat.openAt_global).places
  objects a := by
    cases ht : m.objects[a]? with
    | none => exact .none
    | some t =>
      refine .some fun x => ?_
      cases hv : t.find? x with
      | none => exact .none
      | some v => exact .some ((h.fields a t x v ht hv).values hL)
  frame := rfl
  frame' := rfl
  here := hat.places
  identities := rfl
  depth := rfl
  printed := rfl
  room := rfl
  clock := rfl
  ticks := rfl

end

end LoxLang
