import LoxLang.Proofs.Safety.Parts

/-!
# What a session has done so far

A task does what its parts do, one after the other, and then what it does itself. So the events of
some kind that happen in a task are those of its parts, in order, and its own (`Task.events`), and
those of a session are the events of its lines (`Session.events`). The history of what a session
reaches lists the events that have happened by then (`Session.History`).
-/

namespace LoxLang

variable {ε : Type}

/-- The events of a task, in order, where `own` tells which ones a task adds to those of its
parts. -/
def Task.events (own : Nat → Machine → Task → List ε) : Nat → Machine → Task → List ε
  | 0, _, _ => []
  | n + 1, m, t => (t.parts n m).flatMap (fun p => Task.events own n p.2 p.1) ++ own n m t

/-- The events of tasks, each of which is run from its machine. -/
def Task.eventsOf (own : Nat → Machine → Task → List ε) (n : Nat) (ps : List (Task × Machine)) :
    List ε :=
  ps.flatMap fun p => Task.events own n p.2 p.1

/-- The tasks of a line: its statements and, once they have ended, the expression at its end. -/
def Line.parts (fuel : Nat) (m : Machine) (code : Line (Option Nat)) : List (Task × Machine) :=
  (.run (.stmts code.statements), m) ::
    (Run.executeAll fuel code.statements).onResult m fun _ m' =>
      code.trailing.toList.map fun e => (.run (.expr e), m')

/-- The events of a session that goes on with the sources. -/
def Session.events (own : Nat → Machine → Task → List ε) (s : Session) (fuel : Nat) :
    List (Style × String) → List ε
  | [] => []
  | (style, source) :: rest =>
    ((style.code? s.nextSite source).toList.flatMap fun code =>
        Task.eventsOf own fuel (code.parts fuel s.machine.unprinted)) ++
      Session.events own (s.step fuel style source).2 fuel rest

/-- The session comes to run the task on some fuel from the machine, and these are the events that
have happened by then. -/
inductive Session.History (own : Nat → Machine → Task → List ε) (clock : Nat → Float)
    (room : Option Nat) (fuel : Nat) (sources : List (Style × String)) :
    Nat → Task → Machine → List ε → Prop
  | line {before after : List (Style × String)} {style : Style} {source : String}
      {code : Line (Option Nat)} {earlier later : List (Task × Machine)} {t : Task} {m : Machine} :
      sources = before ++ (style, source) :: after →
      style.code? ((Session.start clock room).steps fuel before).2.nextSite source = some code →
      code.parts fuel ((Session.start clock room).steps fuel before).2.machine.unprinted =
        earlier ++ (t, m) :: later →
      History own clock room fuel sources fuel t m
        ((Session.start clock room).events own fuel before ++ Task.eventsOf own fuel earlier)
  | part {n : Nat} {t t' : Task} {m m' : Machine} {h : List ε}
      {earlier later : List (Task × Machine)} :
      History own clock room fuel sources (n + 1) t m h →
      t.parts n m = earlier ++ (t', m') :: later →
      History own clock room fuel sources n t' m' (h ++ Task.eventsOf own n earlier)

variable {own : Nat → Machine → Task → List ε}

theorem Task.events_succ (n : Nat) (m : Machine) (t : Task) :
    t.events own (n + 1) m = Task.eventsOf own n (t.parts n m) ++ own n m t :=
  rfl

theorem Task.eventsOf_cons (n : Nat) (p : Task × Machine) (ps : List (Task × Machine)) :
    Task.eventsOf own n (p :: ps) = p.1.events own n p.2 ++ Task.eventsOf own n ps :=
  rfl

/-- The events of a part are events of the task. -/
theorem Task.Begins.events_subset {n : Nat} {t t' : Task} {m m' : Machine}
    (h : Begins n t m t' m') : t'.events own n m' ⊆ t.events own (n + 1) m :=
  fun _ he => List.mem_append_left _ (List.mem_flatMap.2 ⟨_, h.mem_parts, he⟩)

/-- The parts of a line run one after the other. -/
theorem Line.linked {R : Machine → Machine → Prop} (hR : ∀ m, R m m) (fuel : Nat)
    (m : Machine) (code : Line (Option Nat)) :
    Task.Linked R fuel m (code.parts fuel m) ((Run.line fuel code).after m) := by
  refine .first hR rfl fun flow m₁ _ => ?_
  cases code.trailing with
  | none => exact hR m₁
  | some e => exact .last hR rfl fun v m₂ _ => hR m₂

section

variable {clock : Nat → Float} {room : Option Nat} {fuel : Nat} {sources : List (Style × String)}
  {n : Nat} {t : Task} {m : Machine}

namespace Session

/-- A session that goes on adds its events to those before. -/
theorem events_append (s : Session) (fuel : Nat) (before after : List (Style × String)) :
    s.events own fuel (before ++ after) =
      s.events own fuel before ++ (s.steps fuel before).2.events own fuel after := by
  induction before generalizing s with
  | nil => rfl
  | cons source before ih =>
    obtain ⟨style, source⟩ := source
    rw [List.cons_append, events, ih, events, List.append_assoc]
    rfl

/-- A task of a line that the session runs has a history. -/
theorem Runs.history (own : Nat → Machine → Task → List ε) {code : Line (Option Nat)}
    {m' : Machine} (h : Runs clock room fuel sources code m) (ht : (t, m') ∈ code.parts fuel m) :
    ∃ events, History own clock room fuel sources fuel t m' events := by
  obtain ⟨before, style, source, after, hsources, hcode, rfl⟩ := h
  obtain ⟨earlier, later, hparts⟩ := List.append_of_mem ht
  exact ⟨_, .line hsources hcode hparts⟩

/-- What a session reaches has a history. -/
theorem Reached.history (own : Nat → Machine → Task → List ε)
    (h : Reached clock room fuel sources n t m) :
    ∃ events, History own clock room fuel sources n t m events := by
  induction h with
  | statements hruns => exact hruns.history own List.mem_cons_self
  | trailing hruns hr he =>
    refine hruns.history own (List.mem_cons_of_mem _ (Run.mem_onResult.2 ⟨_, _, hr, ?_⟩))
    rw [he]
    exact List.mem_singleton.2 rfl
  | begins _ hbegins ih =>
    obtain ⟨events, h⟩ := ih
    obtain ⟨earlier, later, hparts⟩ := List.append_of_mem hbegins.mem_parts
    exact ⟨_, h.part hparts⟩

/-- The tasks of a line that the session runs are reached. -/
theorem Runs.reached {code : Line (Option Nat)} (h : Runs clock room fuel sources code m)
    {p : Task × Machine} (hp : p ∈ code.parts fuel m) :
    Reached clock room fuel sources fuel p.1 p.2 := by
  rcases List.mem_cons.1 hp with rfl | hp
  · exact .statements h
  · obtain ⟨flow, m₁, hr, hp⟩ := Run.mem_onResult.1 hp
    obtain ⟨e, he, rfl⟩ := List.mem_map.1 hp
    exact .trailing h hr (Option.mem_toList.1 he)

/-- What has a history is reached. -/
theorem History.reached {events : List ε}
    (h : History own clock room fuel sources n t m events) :
    Reached clock room fuel sources n t m := by
  induction h with
  | line hsources hcode hparts =>
    exact Runs.reached ⟨_, _, _, _, hsources, hcode, rfl⟩
      (hparts ▸ List.mem_append_right _ List.mem_cons_self)
  | part _ hparts ih =>
    exact ih.begins (Task.mem_parts_iff.1 (hparts ▸ List.mem_append_right _ List.mem_cons_self))

/-- The events of a line that the session runs are events of the session. -/
theorem Runs.events_subset {code : Line (Option Nat)} (h : Runs clock room fuel sources code m) :
    Task.eventsOf own fuel (code.parts fuel m) ⊆
      (Session.start clock room).events own fuel sources := by
  obtain ⟨before, style, source, after, rfl, hcode, rfl⟩ := h
  rw [events_append, events, hcode]
  exact fun _ he => List.mem_append_right _ (List.mem_append_left _ (List.mem_append_left _ he))

/-- The events of what a session reaches are events of the session. -/
theorem Reached.events_subset (h : Reached clock room fuel sources n t m) :
    t.events own n m ⊆ (Session.start clock room).events own fuel sources := by
  induction h with
  | statements hruns =>
    exact fun _ he => hruns.events_subset (List.mem_append_left _ he)
  | @trailing code m m' flow e hruns hr he =>
    refine fun x hx => hruns.events_subset (List.mem_append_right _ ?_)
    rw [Run.onResult_ok hr, he]
    exact List.mem_append_left _ hx
  | begins _ hbegins ih => exact fun _ he => ih (hbegins.events_subset he)

end Session

end

end LoxLang
