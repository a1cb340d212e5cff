import LoxLang.Proofs.Safety.Evaluation
import Mathlib.Data.List.Induction

/-!
# What a session reaches

What a session reaches is what begins with the lines of its sources (`Session.Reached`). All of it
stands where it should: the machine is good, and its frame fits the context of the node that is run
(`Session.Reached.situated`). When a task has ended, the one that began it goes on from there
(`Task.Begins.resumes`), so the store that a task leaves is found again, grown, wherever the session
ends.
-/

namespace LoxLang

/-- A task stands where it should: a node in a frame that fits its context, a call with good values
and the right number of them. -/
def Task.Situated (L : Log) (m : Machine) : Task → Prop
  | .run node => ∃ Γ, m.Stands L Γ node
  | .arguments es => ∃ Γ, ∀ e ∈ es, m.Stands L Γ (.expr e)
  | .call f _ args => f.Good L m.store ∧ ∀ v ∈ args, v.Good L m.store
  | .apply callee args => callee.Good L m.store ∧ (∀ v ∈ args, v.Good L m.store) ∧
      args.length = callee.arity
  | .invoke r args => (Callee.routine r).Good L m.store ∧ (∀ v ∈ args, v.Good L m.store) ∧
      args.length = r.params.length

/-- The machine in which a task ends, with a result or a fault. -/
def Task.after (n : Nat) (m : Machine) : Task → Machine
  | .run (.expr e) => (Run.evaluate n e).after m
  | .run (.stmt s) => (Run.execute n s).after m
  | .run (.stmts ss) => (Run.executeAll n ss).after m
  | .arguments es => (Run.evaluateAll n es).after m
  | .call f paren args => (Run.call n f paren args).after m
  | .apply callee args => (Run.apply n callee args).after m
  | .invoke r args => (Run.invoke n r args).after m

variable {L : Log}

/-- A run that returns a result has led to it. -/
theorem Run.Leads.of_ok {α : Type} {r : Run α} {m m' : Machine} {a : α}
    {Q : α → Machine → Prop} (h : Leads L m r Q) (hm : m.Good L) (hr : r m = .ok a m') :
    m.Grows m' ∧ m'.Good L ∧ Q a m' := by
  have hends := h hm
  rw [hr] at hends
  cases hends with
  | ok hg hm' hQ => exact ⟨hg, hm', hQ⟩

/-- However a run ends, it leaves a good machine. -/
theorem Run.Leads.after {α : Type} {r : Run α} {m : Machine} {Q : α → Machine → Prop}
    (h : Leads L m r Q) (hm : m.Good L) : m.Grows (r.after m) ∧ (r.after m).Good L := by
  have hends := h hm
  unfold Run.after
  generalize r m = x at hends
  cases hends with
  | ok hg hm' | error hg hm' => exact ⟨hg, hm'⟩

/-- However a task ends, it leaves a good machine. -/
theorem Task.Situated.after (hL : L.Lawful) {n : Nat} {t : Task} {m : Machine}
    (ht : t.Situated L m) (hr : L.reaches n t m) (hm : m.Good L) :
    m.Grows (t.after n m) ∧ (t.after n m).Good L := by
  have hn := Run.leadsOn hL n
  cases t with
  | run node =>
    obtain ⟨Γ, hs⟩ := ht
    cases node with
    | expr e => exact (hn.evaluate hs hr).after hm
    | stmt s => exact (hn.execute hs hr).after hm
    | stmts ss => exact (hn.executeAll hs hr).after hm
  | arguments es =>
    obtain ⟨Γ, hs⟩ := ht
    exact (hn.evaluateAll hs hr).after hm
  | call f paren args => exact (hn.call ht.1 ht.2 hr).after hm
  | apply callee args => exact (hn.apply ht.1 ht.2.1 ht.2.2 hr).after hm
  | invoke r args => exact (hn.invoke ht.1.1 ht.2.1 ht.2.2 hr).after hm

namespace Task.Situated

variable {m m' : Machine} {n : Nat} {node node' : Node (Option Nat)}

/-- A part that stands in the context of the node. -/
theorem child (h : (Task.run node).Situated L m) (hc : ∀ Γ, (Γ, node') ∈ node.children Γ) :
    (Task.run node').Situated L m := by
  obtain ⟨Γ, hs⟩ := h
  exact ⟨Γ, hs.child (hc Γ)⟩

theorem mono (h : (Task.run node).Situated L m) (hg : m.Grows m') :
    (Task.run node).Situated L m' := by
  obtain ⟨Γ, hs⟩ := h
  exact ⟨Γ, hs.mono hg⟩

/-- What an expression leaves where it stands. -/
theorem evaluate (hL : L.Lawful) {e : Expr (Option Nat)} {v : Value}
    (h : (Task.run (.expr e)).Situated L m) (hm : m.Good L)
    (hreach : L.reaches n (.run (.expr e)) m) (hr : Run.evaluate n e m = .ok v m') :
    m.Grows m' ∧ m'.Good L ∧ v.Good L m'.store := by
  obtain ⟨Γ, hs⟩ := h
  exact ((Run.leadsOn hL n).evaluate hs hreach).of_ok hm hr

/-- The part behind an expression, in the same context, stands where the expression has left the
machine. -/
theorem second (hL : L.Lawful) {e : Expr (Option Nat)} {v : Value}
    (h : (Task.run node).Situated L m) (hm : m.Good L) (hreach : L.reaches n (.run (.expr e)) m)
    (hr : Run.evaluate n e m = .ok v m')
    (hc : ∀ Γ, ∃ rest, node.children Γ = (Γ, .expr e) :: (Γ, node') :: rest) :
    m'.Good L ∧ (Task.run node').Situated L m' := by
  have hfirst : (Task.run (.expr e)).Situated L m := h.child fun Γ => by
    obtain ⟨rest, hrest⟩ := hc Γ
    exact hrest ▸ List.mem_cons_self
  have hsecond : (Task.run node').Situated L m := h.child fun Γ => by
    obtain ⟨rest, hrest⟩ := hc Γ
    exact hrest ▸ List.mem_cons_of_mem _ List.mem_cons_self
  obtain ⟨hg, hm', -⟩ := hfirst.evaluate hL hm hreach hr
  exact ⟨hm', hsecond.mono hg⟩

end Task.Situated

/-- **A run begins where it should.** What a task that stands where it should begins to run stands
where it should, too. -/
theorem Task.Begins.situated (hL : L.Lawful) {n : Nat} {t t' : Task} {m m' : Machine}
    (h : Begins n t m t' m') (hreach : L.reaches (n + 1) t m) (hm : m.Good L)
    (ht : t.Situated L m) : m'.Good L ∧ t'.Situated L m' := by
  have hnext : ∀ {t₁ : Task} {m₁ : Machine}, Begins n t m t₁ m₁ → L.reaches n t₁ m₁ :=
    hL.begins hreach
  cases h with
  | group | unary | binaryLeft | logicalLeft | assign | callee | get | setObject | statement
  | expression | print | loopTest | ret =>
    exact ⟨hm, ht.child fun _ => List.mem_cons_self⟩
  | @condTest test yes no =>
    refine ⟨hm, ht.child fun _ => ?_⟩
    cases no <;> exact List.mem_cons_self
  | binaryRight hr => exact ht.second hL hm (hnext .binaryLeft) hr fun _ => ⟨[], rfl⟩
  | logicalRight hr _ => exact ht.second hL hm (hnext .logicalLeft) hr fun _ => ⟨[], rfl⟩
  | setValue hr => exact ht.second hL hm (hnext .setObject) hr fun _ => ⟨[], rfl⟩
  | loopBody hr _ => exact ht.second hL hm (hnext .loopTest) hr fun _ => ⟨[], rfl⟩
  | arguments hr =>
    obtain ⟨hg, hm', -⟩ := Situated.evaluate hL (ht.child fun _ => List.mem_cons_self) hm
      (hnext .callee) hr
    obtain ⟨Γ, hs⟩ := ht
    exact ⟨hm', Γ, fun e he => (hs.child
      (List.mem_cons_of_mem _ (List.mem_map_of_mem he))).mono hg⟩
  | call hr hrs =>
    obtain ⟨hg, hm', hf⟩ := Situated.evaluate hL (ht.child fun _ => List.mem_cons_self) hm
      (hnext .callee) hr
    obtain ⟨Γ, hs⟩ := ht
    obtain ⟨hg', hm'', hargs⟩ := ((Run.leadsOn hL n).evaluateAll (fun e he => (hs.child
      (List.mem_cons_of_mem _ (List.mem_map_of_mem he))).mono hg)
      (hnext (.arguments hr))).of_ok hm' hrs
    exact ⟨hm'', hf.mono hg'.store, hargs⟩
  | argument =>
    obtain ⟨Γ, hs⟩ := ht
    exact ⟨hm, Γ, hs _ List.mem_cons_self⟩
  | moreArguments hr =>
    obtain ⟨Γ, hs⟩ := ht
    obtain ⟨hg, hm', -⟩ := ((Run.leadsOn hL n).evaluate (hs _ List.mem_cons_self)
      (hnext .argument)).of_ok hm hr
    exact ⟨hm', Γ, fun e he => (hs e (List.mem_cons_of_mem _ he)).mono hg⟩
  | apply hf hlen _ => exact ⟨hm.congr rfl rfl, ht.1.callee? hf, ht.2, hlen⟩
  | routine => exact ⟨hm, ht⟩
  | @initializer c _ _ m₁ _ o method bound hnew hmethod hbound =>
    obtain ⟨hc, hargs, hlen⟩ := ht
    have hc : c.Good L m.store := hc
    obtain ⟨hg, hm', hcls⟩ := (Run.Leads.newObject c).of_ok hm hnew
    have hdescends : o.cls.Descends c := by
      rw [hcls]
      exact .refl c
    have hknows := Object.knows_of_method? hdescends hmethod
    obtain ⟨hg', hm'', rfl, hgood⟩ := (Run.Leads.bindMethod (hcls ▸ hc.mono hg.store)
      hknows).of_ok hm' hbound
    refine ⟨hm'', ⟨hgood, 0, .bound (.initializer hreach hnew hmethod)⟩,
      fun v hv => (hargs v hv).mono (hg.trans hg').store, ?_⟩
    rw [hlen, Callee.arity, hmethod]
  | @body r args _ _ _ hframe =>
    cases hframe
    obtain ⟨⟨hgood, -⟩, hargs, hlen⟩ := ht
    obtain ⟨hgrow, Γ, hbody⟩ := hgood.enters hL hargs hlen rfl
    exact ⟨(hgrow hm).congr rfl rfl, Γ, hbody⟩
  | moreStatements hr =>
    obtain ⟨Γ, hs⟩ := ht
    obtain ⟨hg, hm', hat'⟩ := ((Run.leadsOn hL n).execute (hs.child List.mem_cons_self)
      (hnext .statement)).of_ok hm hr
    exact ⟨hm', _, hs.rest hL hg hat'⟩
  | var =>
    obtain ⟨Γ, hs⟩ := ht
    exact ⟨hm, _, hs.initializer hL⟩
  | block hframe =>
    cases hframe
    obtain ⟨Γ, hs⟩ := ht
    exact ⟨(hm.grow_empty m.frame).congr rfl rfl, _, hs.block⟩
  | @condYes test yes no _ _ _ hr _ =>
    refine ht.second hL hm (hnext .condTest) hr fun _ => ?_
    cases no <;> exact ⟨_, rfl⟩
  | @condNo test yes no _ _ _ hr _ =>
    obtain ⟨hg, hm', -⟩ := Situated.evaluate hL (ht.child fun _ => List.mem_cons_self) hm
      (hnext .condTest) hr
    obtain ⟨Γ, hs⟩ := ht
    have hyes : Γ.after yes = Γ := Context.after_of_declared (hs.spelled hL).1 Γ
    have hno : m.Stands L Γ (.stmt no) := hs.child <| by
      rw [Node.children, hyes]
      exact List.mem_cons_of_mem _ (List.mem_cons_of_mem _ List.mem_cons_self)
    exact ⟨hm', Γ, hno.mono hg⟩
  | @loopAgain test body _ _ _ _ hr hv hbody =>
    obtain ⟨hg, hm', -⟩ := Situated.evaluate hL (ht.child fun _ => List.mem_cons_self) hm
      (hnext .loopTest) hr
    obtain ⟨Γ, hs⟩ := ht
    obtain ⟨hg', hm'', -⟩ := ((Run.leadsOn hL n).execute
      ((hs.child (List.mem_cons_of_mem _ List.mem_cons_self)).mono hg)
      (hnext (.loopBody hr hv))).of_ok hm' hbody
    exact ⟨hm'', Γ, hs.mono (hg.trans hg')⟩

/-! ## Sessions -/

/-- The session runs this code, which is that of one of its sources, on the machine that the sources
before have left. -/
def Session.Runs (clock : Nat → Float) (room : Option Nat) (fuel : Nat)
    (sources : List (Style × String)) (code : Line (Option Nat)) (m : Machine) : Prop :=
  ∃ before style source after, sources = before ++ (style, source) :: after ∧
    style.code? ((Session.start clock room).steps fuel before).2.nextSite source = some code ∧
    m = ((Session.start clock room).steps fuel before).2.machine.unprinted

/-- The session runs the task on some fuel from the machine. -/
inductive Session.Reached (clock : Nat → Float) (room : Option Nat) (fuel : Nat)
    (sources : List (Style × String)) : Nat → Task → Machine → Prop
  | statements {code : Line (Option Nat)} {m : Machine} :
      Session.Runs clock room fuel sources code m →
      Reached clock room fuel sources fuel (.run (.stmts code.statements)) m
  | trailing {code : Line (Option Nat)} {m m' : Machine} {flow : Flow} {e : Expr (Option Nat)} :
      Session.Runs clock room fuel sources code m →
      Run.executeAll fuel code.statements m = .ok flow m' → code.trailing = some e →
      Reached clock room fuel sources fuel (.run (.expr e)) m'
  | begins {n : Nat} {t t' : Task} {m m' : Machine} :
      Reached clock room fuel sources (n + 1) t m → Task.Begins n t m t' m' →
      Reached clock room fuel sources n t' m'

/-- The lines of the session and the tasks it reaches. -/
def Session.log (clock : Nat → Float) (room : Option Nat) (fuel : Nat)
    (sources : List (Style × String)) : Log where
  runs code := ∃ m, Session.Runs clock room fuel sources code m
  reaches := Session.Reached clock room fuel sources

theorem Machine.Good.start (clock : Nat → Float) (room : Option Nat) :
    (Machine.start clock room).Good L := by
  constructor
  · intro i x v hv
    change (Store.empty.create (.single "clock" .clock) none).2.get? i x = some v at hv
    rw [Store.get?_create] at hv
    split at hv
    · obtain rfl := Table.find?_single hv
      trivial
    · cases hv
  · intro i t x v ht
    cases ht
  · intro i f hf
    change (Store.empty.create (.single "clock" .clock) none).2.frames[i]? = some f at hf
    rw [Store.getElem?_frames_create] at hf
    split at hf
    · cases hf
      exact .inl ⟨rfl, rfl⟩
    · cases hf

section Session

variable {clock : Nat → Float} {room : Option Nat} {fuel : Nat} {sources : List (Style × String)}

/-- A session of one source runs its code from the start. -/
theorem Session.Runs.single (clock : Nat → Float) (room : Option Nat) (fuel : Nat) (style : Style)
    (source : String) {code : Line (Option Nat)} (h : style.code? 0 source = some code) :
    Session.Runs clock room fuel [(style, source)] code
      (Session.start clock room).machine.unprinted :=
  ⟨[], style, source, [], rfl, h, rfl⟩

/-- The code of a session is accepted. -/
theorem Session.Runs.accepted {code : Line (Option Nat)}
    (h : ∃ m, Session.Runs clock room fuel sources code m) : code.Accepted := by
  obtain ⟨_, _, style, source, _, -, hcode, -⟩ := h
  exact Style.accepted_of_code? hcode

theorem Session.log_lawful : (Session.log clock room fuel sources).Lawful where
  accepted _ := Session.Runs.accepted
  begins := .begins

/-- The code of a source leads from the global frame of a good machine to a good machine. -/
theorem Session.Runs.leads {code : Line (Option Nat)} {m : Machine}
    (h : Session.Runs clock room fuel sources code m) (hat : m.At []) :
    Run.Leads (Session.log clock room fuel sources) m (Run.line fuel code) fun _ _ => True :=
  .line Session.log_lawful ⟨m, h⟩ hat (.statements h) fun _ _ _ hr he => .trailing h hr he

/-- A source leads from a good machine to a good machine. -/
theorem Session.leads_source {before after : List (Style × String)} {style : Style}
    {source : String} (h : sources = before ++ (style, source) :: after)
    (hgood : ((Session.start clock room).steps fuel before).2.machine.unprinted.Good
      (Session.log clock room fuel sources))
    (hat : ((Session.start clock room).steps fuel before).2.machine.unprinted.At []) :
    ((Session.start clock room).steps fuel before).2.machine.unprinted.Grows
        ((Session.start clock room).steps fuel (before ++ [(style, source)])).2.machine.unprinted ∧
      ((Session.start clock room).steps fuel (before ++ [(style, source)])).2.machine.unprinted.Good
        (Session.log clock room fuel sources) := by
  rw [Session.steps_concat]
  rcases Session.machine_step ((Session.start clock room).steps fuel before).2 fuel style source
    with hs | ⟨code, hcode, hs⟩
  · rw [hs]
    exact ⟨.refl _, hgood⟩
  · rw [hs]
    have hruns : Session.Runs clock room fuel sources code _ :=
      ⟨before, style, source, after, h, hcode, rfl⟩
    obtain ⟨hg, hgood'⟩ := (hruns.leads hat).after hgood
    exact ⟨⟨hg.store, hg.frame⟩, hgood'.congr rfl rfl⟩

/-- Between two sources the machine is good and in the global frame. -/
theorem Session.good_steps {before after : List (Style × String)} (h : sources = before ++ after) :
    ((Session.start clock room).steps fuel before).2.machine.unprinted.Good
        (Session.log clock room fuel sources) ∧
      ((Session.start clock room).steps fuel before).2.machine.unprinted.At [] := by
  induction before using List.reverseRecOn generalizing after with
  | nil =>
    have hgood := Machine.Good.start clock room (L := Session.log clock room fuel sources)
    exact ⟨hgood.congr rfl rfl, .global ⟨_, rfl, rfl, rfl⟩⟩
  | append_singleton before source ih =>
    rw [List.append_assoc] at h
    obtain ⟨hgood, hat⟩ := ih h
    obtain ⟨hg, hgood'⟩ := Session.leads_source h hgood hat
    exact ⟨hgood', hat.mono hg⟩

/-- The store of a session grows from source to source. -/
theorem Session.grows_steps {before after : List (Style × String)} (h : sources = before ++ after) :
    ((Session.start clock room).steps fuel before).2.machine.store.Grows
      ((Session.start clock room).steps fuel sources).2.machine.store := by
  induction after generalizing before with
  | nil =>
    rw [List.append_nil] at h
    exact h ▸ .refl _
  | cons source after ih =>
    obtain ⟨hgood, hat⟩ := Session.good_steps h
    obtain ⟨hg, -⟩ := Session.leads_source h hgood hat
    exact hg.store.trans (ih (h.trans (List.append_cons ..)))

theorem Session.Runs.situated {code : Line (Option Nat)} {m : Machine}
    (h : Session.Runs clock room fuel sources code m) :
    m.Good (Session.log clock room fuel sources) ∧ m.At [] := by
  obtain ⟨before, style, source, after, hsources, -, rfl⟩ := h
  exact Session.good_steps hsources

/-- **All that a session reaches stands where it should.** -/
theorem Session.Reached.situated {n : Nat} {t : Task} {m : Machine}
    (h : Session.Reached clock room fuel sources n t m) :
    m.Good (Session.log clock room fuel sources) ∧
      t.Situated (Session.log clock room fuel sources) m := by
  induction h with
  | statements hruns =>
    obtain ⟨hgood, hat⟩ := hruns.situated
    exact ⟨hgood, [], ⟨_, ⟨_, hruns⟩, .statements⟩, hat, .global⟩
  | trailing hruns hr he =>
    obtain ⟨hgood, hat⟩ := hruns.situated
    obtain ⟨-, hgood', -, hat'⟩ := (Run.Leads.statements Session.log_lawful ⟨_, hruns⟩ hat
      (.statements hruns)).of_ok hgood hr
    exact ⟨hgood', [], ⟨_, ⟨_, hruns⟩, .trailing he⟩, hat', .global⟩
  | begins hreached hbegins ih => exact hbegins.situated Session.log_lawful hreached ih.1 ih.2

/-- The faults of a session are ordinary. -/
theorem Session.ordinary_of_failed {o : Outcome} {fault : Fault}
    (h : o ∈ ((Session.start clock room).steps fuel sources).1)
    (hfault : o.ending = .failed fault) :
    fault.Ordinary := by
  obtain ⟨before, style, source, after, hsources, rfl⟩ := Session.exists_of_mem_outcomes h
  cases hcode : style.code? ((Session.start clock room).steps fuel before).2.nextSite source with
  | none =>
    obtain ⟨⟨ds, hds⟩, -⟩ := Session.step_of_code?_eq_none fuel hcode
    rw [hds] at hfault
    cases hfault
  | some code =>
    obtain ⟨next, hs⟩ := Session.step_of_code?_eq_some fuel hcode
    have hruns : Session.Runs clock room fuel sources code _ :=
      ⟨before, style, source, after, hsources, hcode, rfl⟩
    have hends := hruns.leads hruns.situated.2 hruns.situated.1
    rw [hs, Session.perform_eq] at hfault
    dsimp only at hfault
    generalize Run.line fuel code _ = x at hends hfault
    cases hends with
    | ok => cases hfault
    | error _ _ he =>
      cases hfault
      exact he

end Session

end LoxLang
