import LoxLang.Proofs.Safety.Activations
import LoxLang.Proofs.Safety.Instances
import LoxLang.Proofs.Safety.Passes
import LoxLang.Proofs.Store.Tree

/-!
# The frames of a session

A session begins with the global frame alone. Blocks, calls, methods that are bound and classes that
derive from others create frames, and each of them is created inside a frame that is there: the
current one, or one that a function or a method closes over (`Session.Reached.createsIn`). So
between any two machines that a session passes, the store has evolved, and it is a tree in all of
them (`Session.pairwise_evolves`, `Session.isTree_of_mem_passes`). The frames that values close over
are among its frames (`Value.Good.closesOver_lt`), and so are those that a task in progress comes
back to (`Session.Holds.lt`). Values may well refer to each other in circles; frames never do
(`frames_well_founded`).
-/

namespace LoxLang

/-- The value closes over the frame: it is a function of that frame, or a class or an instance with
such a method, its own or one that it derives from another class. -/
inductive Value.ClosesOver : Value → Nat → Prop
  | function {identity : Nat} {r : Routine} : ClosesOver (.function identity r) r.frame
  | cls {c owner : Class} {name : String} {r : Routine} : c.Descends owner →
      owner.methods.find? name = some r → ClosesOver (.cls c) r.frame
  | object {o : Object} {r : Routine} : o.Knows r → ClosesOver (.object o) r.frame

/-- A class closes over the frames of the methods that are found in it. -/
theorem Class.closesOver_of_method? {c : Class} {name : String} {r : Routine}
    (h : c.method? name = some r) : (Value.cls c).ClosesOver r.frame := by
  obtain ⟨owner, hdescends, hfound⟩ := Class.descends_of_method? h
  exact .cls hdescends hfound

/-- What a good value closes over is there. -/
theorem Value.Good.closesOver_lt {L : Log} {s : Store Value} {v : Value} {f : Nat}
    (h : v.Good L s) (hf : v.ClosesOver f) : f < s.frames.size := by
  cases hf with
  | function => exact Routine.Good.frame_lt h.1
  | @cls c owner name r hdescends hfound =>
    exact (Class.Good.unbound (o := ⟨0, c⟩) h ⟨owner, name, hdescends, hfound⟩).frame_lt
  | object hknows => exact (Class.Good.unbound h hknows).frame_lt

/-- All values in frames and in fields close over frames that are there. -/
structure Machine.Anchored (m : Machine) : Prop where
  frames : ∀ i x v, m.store.get? i x = some v → ∀ f, v.ClosesOver f → f < m.store.frames.size
  fields : ∀ (i : Nat) (t : Table Value) x v, m.objects[i]? = some t → t.find? x = some v →
    ∀ f, v.ClosesOver f → f < m.store.frames.size

theorem Machine.Good.anchored {L : Log} {m : Machine} (h : m.Good L) : m.Anchored where
  frames i x v hv _ hf := (h.frames i x v hv).closesOver_lt hf
  fields i t x v ht hv _ hf := (h.fields i t x v ht hv).closesOver_lt hf

/-- The steps of a run make the store evolve, if they create frames inside frames that are there. -/
theorem Machine.timelyIn_evolves :
    Machine.TimelyIn (fun m parent => parent < m.store.frames.size)
      fun m m' => m.store.Evolves m'.store where
  same h := h.store ▸ .refl
  trans := Store.Evolves.trans
  create _ names _ hparent := .create .refl names hparent
  define _ frame name value := .define .refl frame name value
  newIdentity _ := .refl
  newObject _ := .refl

/-- The current frame of a task that is begun is that of the task around, or it is new. -/
theorem Task.Begins.frame_lt {n : Nat} {t t' : Task} {m m' : Machine} (h : Begins n t m t' m')
    (hm : m.frame < m.store.frames.size) : m'.frame < m'.store.frames.size := by
  have hsize := (h.within Machine.timely_frames fun _ _ _ => Nat.le_refl _).1
  have hn := Run.respectsOn Machine.SameControl.closed n
  have hevaluate : ∀ {e : Expr (Option Nat)} {v : Value} {m m' : Machine},
      Run.evaluate n e m = .ok v m' → m'.frame = m.frame := fun hr =>
    ((hn.evaluate _).of_ok hr).frame
  have hstays : m'.frame = m.frame → m'.frame < m'.store.frames.size :=
    fun hframe => hframe ▸ Nat.lt_of_lt_of_le hm hsize
  cases h with
  | group | unary | binaryLeft | logicalLeft | assign | callee | get | setObject | argument
  | routine | apply | statement | expression | print | var | condTest | loopTest | ret => exact hm
  | binaryRight hr | logicalRight hr | arguments hr | setValue hr | moreArguments hr
  | condYes hr | condNo hr | loopBody hr => exact hstays (hevaluate hr)
  | call hr hrs => exact hstays (((hn.evaluateAll _).of_ok hrs).frame.trans (hevaluate hr))
  | initializer hnew _ hbound =>
    cases hnew
    cases hbound
    exact hstays rfl
  | body hframe | block hframe =>
    cases hframe
    exact Nat.lt_of_lt_of_eq (Nat.lt_succ_self _) (Store.size_frames_create ..).symm
  | moreStatements hr => exact hstays ((hn.execute _).of_ok hr).frame
  | loopAgain hr _ hbody => exact hstays (((hn.execute _).of_ok hbody).frame.trans (hevaluate hr))

section

variable {clock : Nat → Float} {room : Option Nat} {fuel : Nat} {sources : List (Style × String)}
  {n : Nat} {t : Task} {m : Machine} {v : Value} {f : Nat}

/-- While the session runs the task from the machine, the frame is held: a task in progress has
begun in it, so that the machine will come back to it, or a value closes over it which was at hand
when a task in progress began. -/
inductive Session.Holds (clock : Nat → Float) (room : Option Nat) (fuel : Nat)
    (sources : List (Style × String)) : Nat → Task → Machine → Nat → Prop
  | current {n : Nat} {t : Task} {m : Machine} : Session.Reached clock room fuel sources n t m →
      Holds clock room fuel sources n t m m.frame
  | value {n : Nat} {t : Task} {m : Machine} {v : Value} {f : Nat} :
      Session.Reached clock room fuel sources n t m → Session.AtHand clock room fuel sources m v →
      v.ClosesOver f → Holds clock room fuel sources n t m f
  | around {n : Nat} {t t' : Task} {m m' : Machine} {f : Nat} :
      Holds clock room fuel sources (n + 1) t m f → Task.Begins n t m t' m' →
      Holds clock room fuel sources n t' m' f

namespace Session

/-! ## Where frames are created -/

/-- **Frames are created inside frames that are there.** -/
theorem Reached.createsIn (h : Reached clock room fuel sources (n + 1) t m) :
    t.CreatesIn (fun m parent => parent < m.store.frames.size) n m := by
  obtain ⟨hm, ht⟩ := h.situated
  unfold Task.CreatesIn
  split
  -- a method is bound that has been found in an instance or in a superclass
  · next e name =>
    intro o m₁ r hv hr
    have hget := h.begins .get
    have hgood := (Task.Yields.expr hv).good log_lawful hget hget.situated.1 hget.situated.2
    have hafter : (Task.run (.expr e)).after n m = m₁ := Run.after_ok hv
    rw [hafter] at hgood
    exact hgood.closesOver_lt (.object (Object.knows_of_method? (.refl _) hr))
  · next site method =>
    intro d c r _ hc hr
    obtain ⟨i, -, hi⟩ := Option.bind_eq_some_iff.1 hc
    exact (hm.frames i _ _ hi).closesOver_lt (Class.closesOver_of_method? hr)
  -- a block and a class declaration stand in the current frame
  · obtain ⟨Γ, hs⟩ := ht
    exact Store.Fits.lt hs.fits
  · obtain ⟨Γ, hs⟩ := ht
    exact Store.Fits.lt hs.fits
  -- an initializer is bound to a new instance, and a function is run
  · next c args =>
    intro r hr
    have hgood : (Value.cls c).Good (log clock room fuel sources) m.store := ht.1
    exact hgood.closesOver_lt (Class.closesOver_of_method? hr)
  · exact Routine.Good.frame_lt ht.1.1
  · trivial

/-- Between the parts of a task the store evolves. -/
theorem Reached.linked (h : Reached clock room fuel sources (n + 1) t m) :
    Task.Linked (fun m m' => m.store.Evolves m'.store) n m (t.parts n m) (t.after (n + 1) m) :=
  Task.linkedIn Machine.timelyIn_evolves h.createsIn fun _ _ _ _ _ _ _ => .refl

/-- **Between any two machines that a session passes the store has evolved.** -/
theorem pairwise_evolves (clock : Nat → Float) (room : Option Nat) (fuel : Nat)
    (sources : List (Style × String)) :
    ((Session.start clock room).passes fuel sources).Pairwise
      fun m m' => m.store.Evolves m'.store := by
  let R : Machine → Machine → Prop := fun m m' => m.store.Evolves m'.store
  have : Trans R R R := ⟨Store.Evolves.trans⟩
  have hchain : ((Session.start clock room).passes fuel sources).IsChain R :=
    isChain_passes (fun _ => .refl) (fun h => h.linked) (fun h => h) (List.nil_append sources).symm
  exact hchain.pairwise

/-- A session passes only machines whose store has evolved from that of the first one. -/
theorem evolves_of_mem_passes (h : m ∈ (Session.start clock room).passes fuel sources) :
    (Machine.start clock room).store.Evolves m.store := by
  have hpairwise := pairwise_evolves clock room fuel sources
  obtain ⟨rest, hpasses⟩ := exists_passes_eq (Session.start clock room) fuel sources
  rw [hpasses] at h hpairwise
  rcases List.mem_cons.1 h with rfl | h
  · exact .refl
  · exact (List.pairwise_cons.1 hpairwise).1 m h

/-- The store at the start has the global frame alone. -/
theorem isTree_start (clock : Nat → Float) (room : Option Nat) :
    (Machine.start clock room).store.IsTree where
  nonempty := Nat.one_pos
  root := rfl
  older _ he hlt := absurd (Nat.lt_one_iff.1 hlt) he

/-- **The frames of every machine that a session passes are a tree.** -/
theorem isTree_of_mem_passes (h : m ∈ (Session.start clock room).passes fuel sources) :
    m.store.IsTree :=
  (evolves_of_mem_passes h).isTree (isTree_start clock room)

/-! ## Frames at hand -/

/-- Wherever a session begins a task, the current frame is there. -/
theorem Reached.frame_lt (h : Reached clock room fuel sources n t m) :
    m.frame < m.store.frames.size := by
  induction h with
  | statements hruns => exact Store.Fits.lt hruns.situated.2
  | trailing hruns hr he =>
    obtain ⟨-, Γ, hs⟩ := (Reached.trailing hruns hr he).situated
    exact Store.Fits.lt hs.fits
  | begins _ hbegins ih => exact hbegins.frame_lt ih

/-- The current frame of a machine that a session passes is there. -/
theorem frame_lt_of_mem_passes (h : m ∈ (Session.start clock room).passes fuel sources) :
    m.frame < m.store.frames.size := by
  rcases mem_passes_iff.1 h with hvisits | ⟨before, after, hsources, rfl⟩
  · cases hvisits with
    | begins hreach => exact hreach.frame_lt
    | @ends n t m hreach =>
      rw [(Task.respects Machine.SameControl.closed n m t).frame]
      exact Nat.lt_of_lt_of_le hreach.frame_lt hreach.after.1.size
  · exact Store.Fits.lt (good_steps hsources).2

/-- A session passes only good machines. -/
theorem good_of_mem_passes (h : m ∈ (Session.start clock room).passes fuel sources) :
    m.Good (log clock room fuel sources) := by
  rcases mem_passes_iff.1 h with hvisits | ⟨before, after, hsources, rfl⟩
  · exact hvisits.good
  · exact (good_steps hsources).1.congr rfl rfl

/-- What a session has at hand is good. -/
theorem AtHand.good (h : AtHand clock room fuel sources m v) :
    v.Good (log clock room fuel sources) m.store := by
  cases h with
  | entry hm hv => exact hm.good.frames _ _ _ hv
  | field hm ht hv => exact hm.good.fields _ _ _ _ ht hv
  | argument hreach hv => exact hreach.situated.2.given _ hv
  | result hreach hv => exact hv.good log_lawful hreach hreach.situated.1 hreach.situated.2

/-- **A frame that is held is there.** -/
theorem Holds.lt (h : Holds clock room fuel sources n t m f) : f < m.store.frames.size := by
  induction h with
  | current hreach => exact hreach.frame_lt
  | value _ hv hf => exact hv.good.closesOver_lt hf
  | around _ hbegins ih =>
    have hsize := (hbegins.within Machine.timely_frames fun _ _ _ => Nat.le_refl _).1
    exact Nat.lt_of_lt_of_le ih hsize

end Session

end

/-- **The frames of a session are well-founded.** Take any session, and the machines that it passes
in order: those that it visits and those between its sources. In each of them no frame is inside
itself, however far out: the walk outwards is well-founded. The global frame is the only outermost
one, and every frame has a finite chain of older and older frames that ends in the global one;
frames are numbered in the order of their creation. All walks go along this chain: as many steps
outwards as one likes, and the search for a name, which ends at the first frame that has it or, past
the last one, with nothing. The current frame is among the frames of the machine, and so is every
one that a function, a class or an instance closes over which stands in a frame or a field or is
otherwise at hand, and every one that a block or a call in progress comes back to.

From each machine to all later ones, the store evolves by nothing but the creation of frames inside
others and names that are given values. So no frame is lost, none gets another parent, none loses a
name, and the chain of each remains what it is. -/
theorem frames_well_founded (clock : Nat → Float) (room : Option Nat) (fuel : Nat)
    (sources : List (Style × String)) :
    (∀ m, m ∈ (Session.start clock room).passes fuel sources ↔
      Session.Visits clock room fuel sources m ∨ ∃ before after, sources = before ++ after ∧
        m = ((Session.start clock room).steps fuel before).2.machine) ∧
    (∀ m ∈ (Session.start clock room).passes fuel sources,
      WellFounded (fun p e => m.store.parent? e = some p) ∧
      m.frame < m.store.frames.size ∧ m.Anchored ∧
      ∀ e < m.store.frames.size,
        (m.store.parent? e = none ↔ e = Machine.globalFrame) ∧
        ∃ chain, m.store.Grounded e chain ∧ chain.getLast? = some Machine.globalFrame) ∧
    (∀ n t m f, Session.Holds clock room fuel sources n t m f → f < m.store.frames.size) ∧
    (∀ m v f, Session.AtHand clock room fuel sources m v → v.ClosesOver f →
      f < m.store.frames.size) ∧
    ((Session.start clock room).passes fuel sources).Pairwise fun m m' =>
      m.store.Evolves m'.store ∧ m.store.Kept m'.store ∧ ∀ e < m.store.frames.size,
        ∀ chain, m.store.Grounded e chain → m'.store.Grounded e chain := by
  refine ⟨fun m => Session.mem_passes_iff, fun m hm => ?_, fun _ _ _ _ h => h.lt,
    fun _ _ _ h hf => h.good.closesOver_lt hf, ?_⟩
  · have htree := Session.isTree_of_mem_passes hm
    refine ⟨htree.wellFounded, Session.frame_lt_of_mem_passes hm,
      (Session.good_of_mem_passes hm).anchored, fun e he => ?_⟩
    obtain ⟨chain, hchain⟩ := htree.exists_grounded he
    exact ⟨htree.parent?_eq_none_iff he, chain, hchain, hchain.last⟩
  · refine (Session.pairwise_evolves clock room fuel sources).imp_of_mem fun hm _ h => ?_
    exact ⟨h, h.kept, fun e he _ hchain => hchain.evolves (Session.isTree_of_mem_passes hm) h he⟩

end LoxLang
