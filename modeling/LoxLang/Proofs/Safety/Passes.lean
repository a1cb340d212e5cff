import LoxLang.Proofs.Safety.History
import LoxLang.Proofs.Safety.Resumption
import Mathlib.Data.List.Chain

/-!
# The machines of a session, in order

A task passes the machine in which it begins, those that its parts pass, one part after the other,
and the machine in which it ends (`Task.passes`). A session passes what the tasks of its lines pass,
and the machines between its sources (`Session.passes`): these are the machines that it visits, in
the order in which it comes to them (`Session.mem_passes_iff`). A relation that the steps between
the parts of each task respect holds between each machine that a session passes and the next one
(`Session.isChain_passes`).
-/

namespace LoxLang

/-- The machines that a task passes, in order. -/
def Task.passes : Nat → Machine → Task → List Machine
  | 0, m, t => [m, t.after 0 m]
  | n + 1, m, t =>
    m :: ((t.parts n m).flatMap (fun p => Task.passes n p.2 p.1) ++ [t.after (n + 1) m])

/-- The machines that a session passes which goes on with the sources, in order. -/
def Session.passes (s : Session) (fuel : Nat) : List (Style × String) → List Machine
  | [] => [s.machine]
  | (style, source) :: rest =>
    s.machine :: (((style.code? s.nextSite source).toList.flatMap fun code =>
      (code.parts fuel s.machine.unprinted).flatMap fun p => p.1.passes fuel p.2) ++
        Session.passes (s.step fuel style source).2 fuel rest)

namespace Task

variable {R : Machine → Machine → Prop} {n : Nat} {t t' : Task} {m m' : Machine}

/-- A task passes first the machine in which it begins and last the one in which it ends. -/
theorem exists_passes_eq (n : Nat) (m : Machine) (t : Task) :
    ∃ inner, t.passes n m = m :: (inner ++ [t.after n m]) := by
  cases n with
  | zero => exact ⟨[], rfl⟩
  | succ n => exact ⟨_, rfl⟩

theorem begin_mem_passes (n : Nat) (m : Machine) (t : Task) : m ∈ t.passes n m := by
  obtain ⟨inner, hpasses⟩ := exists_passes_eq n m t
  rw [hpasses]
  exact List.mem_cons_self

theorem after_mem_passes (n : Nat) (m : Machine) (t : Task) : t.after n m ∈ t.passes n m := by
  obtain ⟨inner, hpasses⟩ := exists_passes_eq n m t
  rw [hpasses]
  exact List.mem_cons_of_mem _ (List.mem_append_right _ List.mem_cons_self)

/-- What a part passes is passed by the task. -/
theorem Begins.passes_subset (h : Begins n t m t' m') : t'.passes n m' ⊆ t.passes (n + 1) m :=
  fun _ hx => List.mem_cons_of_mem _
    (List.mem_append_left _ (List.mem_flatMap.2 ⟨_, h.mem_parts, hx⟩))

/-- If the relation holds along what each task of a chain passes, then it holds along the chain. -/
theorem Linked.isChain_passes {ps : List (Task × Machine)} (h : Linked R n m ps m')
    (hps : ∀ p ∈ ps, (p.1.passes n p.2).IsChain R) :
    (m :: (ps.flatMap (fun p => p.1.passes n p.2) ++ [m'])).IsChain R := by
  induction ps generalizing m with
  | nil => exact List.isChain_pair.2 h
  | cons p ps ih =>
    obtain ⟨hp, hps⟩ := List.forall_mem_cons.1 hps
    obtain ⟨inner, hpasses⟩ := exists_passes_eq n p.2 p.1
    have hrest := ih h.2 hps
    rw [hpasses] at hp
    have hfirst : ((m :: p.2 :: inner) ++ [p.1.after n p.2]).IsChain R :=
      List.isChain_cons_cons.2 ⟨h.1, hp⟩
    have hall := List.isChain_split.2 ⟨hfirst, hrest⟩
    rw [List.flatMap_cons, hpasses]
    simpa only [List.cons_append, List.append_assoc, List.nil_append] using hall

end Task

/-! ## Sessions -/

section

variable {clock : Nat → Float} {room : Option Nat} {fuel : Nat} {sources : List (Style × String)}
  {n : Nat} {t : Task} {m x : Machine}

namespace Session

/-- A session passes first the machine in which it is. -/
theorem exists_passes_eq (s : Session) (fuel : Nat) (sources : List (Style × String)) :
    ∃ rest, s.passes fuel sources = s.machine :: rest := by
  cases sources with
  | nil => exact ⟨[], rfl⟩
  | cons source sources => exact ⟨_, rfl⟩

/-- A session that goes on behind its first sources passes what it passes from there. -/
theorem passes_subset (s : Session) (fuel : Nat) (before after : List (Style × String)) :
    (s.steps fuel before).2.passes fuel after ⊆ s.passes fuel (before ++ after) := by
  induction before generalizing s with
  | nil => exact fun _ hx => hx
  | cons source before ih =>
    obtain ⟨style, source⟩ := source
    exact fun _ hx => List.mem_cons_of_mem _ (List.mem_append_right _ (ih _ hx))

/-- A session passes the machine that its first sources have left. -/
theorem between_mem_passes {before after : List (Style × String)} (s : Session) (fuel : Nat) :
    (s.steps fuel before).2.machine ∈ s.passes fuel (before ++ after) := by
  refine s.passes_subset fuel before after ?_
  obtain ⟨rest, hpasses⟩ := exists_passes_eq (s.steps fuel before).2 fuel after
  rw [hpasses]
  exact List.mem_cons_self

/-- A session passes what the tasks of its lines pass. -/
theorem Runs.passes_subset {code : Line (Option Nat)} (h : Runs clock room fuel sources code m)
    {p : Task × Machine} (hp : p ∈ code.parts fuel m) :
    p.1.passes fuel p.2 ⊆ (Session.start clock room).passes fuel sources := by
  obtain ⟨before, style, source, after, rfl, hcode, rfl⟩ := h
  intro x hx
  refine Session.passes_subset _ fuel before _ ?_
  refine List.mem_cons_of_mem _ (List.mem_append_left _ (List.mem_flatMap.2 ⟨code, ?_, ?_⟩))
  · exact Option.mem_toList.2 hcode
  · exact List.mem_flatMap.2 ⟨p, hp, hx⟩

/-- A session passes what the tasks that it reaches pass. -/
theorem Reached.passes_subset (h : Reached clock room fuel sources n t m) :
    t.passes n m ⊆ (Session.start clock room).passes fuel sources := by
  induction h with
  | statements hruns => exact hruns.passes_subset List.mem_cons_self
  | @trailing code m m' flow e hruns hr he =>
    refine hruns.passes_subset (p := (.run (.expr e), m')) (List.mem_cons_of_mem _ ?_)
    rw [Run.onResult_ok hr, he]
    exact List.mem_cons_self
  | begins _ hbegins ih => exact fun _ hx => ih (hbegins.passes_subset hx)

/-- The machines that a task passes which the session reaches are visited. -/
theorem Reached.visits (h : Reached clock room fuel sources n t m) (hx : x ∈ t.passes n m) :
    Visits clock room fuel sources x := by
  induction n generalizing t m with
  | zero =>
    rcases List.mem_cons.1 hx with rfl | hx
    · exact .begins h
    · exact List.mem_singleton.1 hx ▸ .ends h
  | succ n ih =>
    rcases List.mem_cons.1 hx with rfl | hx
    · exact .begins h
    · rcases List.mem_append.1 hx with hx | hx
      · obtain ⟨p, hp, hx⟩ := List.mem_flatMap.1 hx
        exact ih (h.begins (Task.mem_parts_iff.1 hp)) hx
      · exact List.mem_singleton.1 hx ▸ .ends h

/-- Behind its first sources, a session passes machines that it visits and those between sources. -/
theorem visits_of_mem_passes {before after : List (Style × String)} (h : sources = before ++ after)
    (hx : x ∈ ((Session.start clock room).steps fuel before).2.passes fuel after) :
    Visits clock room fuel sources x ∨ ∃ before after, sources = before ++ after ∧
      x = ((Session.start clock room).steps fuel before).2.machine := by
  induction after generalizing before with
  | nil => exact .inr ⟨before, [], h, List.mem_singleton.1 hx⟩
  | cons source after ih =>
    obtain ⟨style, source⟩ := source
    rcases List.mem_cons.1 hx with rfl | hx
    · exact .inr ⟨before, _, h, rfl⟩
    · rcases List.mem_append.1 hx with hx | hx
      · obtain ⟨code, hcode, hx⟩ := List.mem_flatMap.1 hx
        obtain ⟨p, hp, hx⟩ := List.mem_flatMap.1 hx
        have hruns : Runs clock room fuel sources code _ :=
          ⟨before, style, source, after, h, Option.mem_toList.1 hcode, rfl⟩
        exact .inl ((hruns.reached hp).visits hx)
      · refine ih (h.trans (List.append_cons ..)) ?_
        rwa [steps_concat]

/-- **A session passes the machines that it visits** and those between its sources. -/
theorem mem_passes_iff :
    x ∈ (Session.start clock room).passes fuel sources ↔
      Visits clock room fuel sources x ∨ ∃ before after, sources = before ++ after ∧
        x = ((Session.start clock room).steps fuel before).2.machine := by
  constructor
  · exact visits_of_mem_passes (List.nil_append sources).symm
  · rintro (h | ⟨before, after, rfl, rfl⟩)
    · cases h with
      | begins h => exact h.passes_subset (Task.begin_mem_passes ..)
      | ends h => exact h.passes_subset (Task.after_mem_passes ..)
    · exact between_mem_passes _ fuel

variable {R : Machine → Machine → Prop} (hrefl : ∀ m, R m m)
  (hlinked : ∀ {n t m}, Reached clock room fuel sources (n + 1) t m →
    Task.Linked R n m (t.parts n m) (t.after (n + 1) m))
include hrefl hlinked

/-- What holds between the parts of every task that is reached holds along what each passes. -/
theorem Reached.isChain_passes (h : Reached clock room fuel sources n t m) :
    (t.passes n m).IsChain R := by
  induction n generalizing t m with
  | zero =>
    refine List.isChain_pair.2 ?_
    rw [Task.after_zero]
    exact hrefl m
  | succ n ih =>
    exact (hlinked h).isChain_passes fun p hp => ih (h.begins (Task.mem_parts_iff.1 hp))

/-- **What holds between the parts of every task holds between each machine that the session passes
and the next one**, if it does not matter what has been printed. -/
theorem isChain_passes (hprinted : ∀ {m m'}, R m.unprinted m' → R m m')
    {before after : List (Style × String)} (h : sources = before ++ after) :
    (((Session.start clock room).steps fuel before).2.passes fuel after).IsChain R := by
  induction after generalizing before with
  | nil => exact List.isChain_singleton _
  | cons source after ih =>
    obtain ⟨style, source⟩ := source
    have hrest := ih (h.trans (List.append_cons ..))
    rw [steps_concat] at hrest
    obtain ⟨rest, hpasses⟩ := exists_passes_eq
      (((Session.start clock room).steps fuel before).2.step fuel style source).2 fuel after
    rw [passes, hpasses]
    rw [hpasses] at hrest
    cases hcode : style.code? ((Session.start clock room).steps fuel before).2.nextSite source with
    | none =>
      rw [(step_of_code?_eq_none fuel hcode).2] at hrest ⊢
      exact List.isChain_cons_cons.2 ⟨hrefl _, hrest⟩
    | some code =>
      obtain ⟨next, hstep⟩ := step_of_code?_eq_some fuel hcode
      rw [hstep, machine_perform] at hrest ⊢
      have hruns : Runs clock room fuel sources code _ :=
        ⟨before, style, source, after, h, hcode, rfl⟩
      have hline := (code.linked hrefl fuel _).isChain_passes
        fun p hp => (hruns.reached hp).isChain_passes hrefl hlinked
      rw [Option.toList_some, List.flatMap_singleton, ← List.cons_append]
      refine List.isChain_split.2 ⟨?_, hrest⟩
      -- the line begins in the machine with nothing printed
      obtain ⟨hfirst, htail⟩ := List.isChain_cons.1 hline
      exact List.isChain_cons.2 ⟨fun m' hm' => hprinted (hfirst m' hm'), htail⟩

end Session

end

end LoxLang
