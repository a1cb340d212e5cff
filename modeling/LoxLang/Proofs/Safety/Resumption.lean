import LoxLang.Proofs.Safety.Reached

/-!
# Going on from what a task has left

A task is begun by another one, which goes on when it has ended. What the store has then is kept
(`Task.Begins.resumes`): the steps that follow, be they other parts of the task around or steps of
the machine, only let the store grow. So the store of every machine that a session visits is found
again, grown, where the session ends (`Session.Visits.grows`). Frames are numbered in the order of
their creation, so a sealed frame is the same in all machines of a session that have it
(`Session.Visits.agree`).
-/

namespace LoxLang

namespace Run

variable {α β : Type} {s m m₁ : Machine} {r : Run α} {k : α → Run β}

/-- What the run leaves keeps the store of the machine `s`, though it may have grown. -/
def Keeps (s m : Machine) (r : Run α) : Prop := s.store.Grows (r.after m).store

theorem after_bind_ok {a : α} (hr : r m = .ok a m₁) : (r >>= k).after m = (k a).after m₁ := by
  unfold after
  rw [bind_ok hr]

namespace Keeps

theorem last (r : Run α) : Keeps (r.after m) m r := .refl _

/-- A run that does not touch the store. -/
theorem same (h : (r.after m).store = m.store) : Keeps m m r := by
  unfold Keeps
  rw [h]
  exact .refl _

theorem pure (a : α) : Keeps m m (pure a : Run α) := same rfl

theorem throw (e : Fault) : Keeps m m (throw e : Run α) := same rfl

theorem check (t : Token) (x : Except RuntimeCause α) : Keeps m m (Run.check t x) := by
  cases x with
  | ok a => exact pure a
  | error cause => exact throw _

/-- What is left of the first part stays while the second one runs. -/
theorem bind (h : Keeps s m r) (hk : ∀ a m₁, r m = .ok a m₁ → Keeps m₁ m₁ (k a)) :
    Keeps s m (r >>= k) := by
  rcases hr : r m with ⟨a, m₁⟩ | ⟨e, m₁⟩
  · have h₁ : s.store.Grows m₁.store := after_ok hr ▸ h
    unfold Keeps
    rw [after_bind_ok hr]
    exact h₁.trans (hk a m₁ hr)
  · unfold Keeps
    rw [after_error (bind_error hr)]
    exact after_error hr ▸ h

/-- What the second part leaves is what the whole leaves. -/
theorem later {a : α} (hr : r m = .ok a m₁) (h : Keeps s m₁ (k a)) : Keeps s m (r >>= k) := by
  unfold Keeps
  rwa [after_bind_ok hr]

theorem get {k : Machine → Run β} (h : Keeps s m (k m)) : Keeps s m (MonadState.get >>= k) := h

/-- Leaving a frame does not touch the store. -/
theorem inFrame {frame : Nat} (h : Keeps s { m with frame := frame } r) :
    Keeps s m (Run.inFrame frame r) := by
  unfold Keeps Run.after at h ⊢
  unfold Run.inFrame
  dsimp only
  generalize r { m with frame := frame } = x at h ⊢
  cases x <;> exact h

/-- Leaving a call does not touch the store. -/
theorem inCall (h : Keeps s { m with depth := m.depth + 1 } r) : Keeps s m (Run.inCall r) := by
  unfold Keeps Run.after at h ⊢
  unfold Run.inCall
  generalize r { m with depth := m.depth + 1 } = x at h ⊢
  cases x <;> exact h

end Keeps

/-- A run from a good machine keeps the store that it begins with. -/
theorem Leads.keeps {L : Log} {Q : α → Machine → Prop} (h : Leads L m r Q) (hm : m.Good L) :
    Keeps m m r :=
  (h.after hm).1.store

end Run

section

variable {L : Log}

namespace Task.Begins

variable {n : Nat} {t t' : Task} {m m' : Machine}

/-- However a task ends that is begun, it lets the store grow and leaves a good machine. -/
theorem after (hL : L.Lawful) (h : Begins n t m t' m') (hreach : L.reaches (n + 1) t m)
    (hm : m.Good L) (ht : t.Situated L m) :
    m'.store.Grows (t'.after n m').store ∧ (t'.after n m').Good L := by
  obtain ⟨hm', ht'⟩ := h.situated hL hreach hm ht
  obtain ⟨hg, hgood⟩ := ht'.after hL (hL.begins hreach h) hm'
  exact ⟨hg.store, hgood⟩

theorem resumes_expr (hL : L.Lawful) {e : Expr (Option Nat)}
    (h : Begins n (.run (.expr e)) m t' m') (hreach : L.reaches (n + 1) (.run (.expr e)) m)
    (hm : m.Good L) (ht : (Task.run (.expr e)).Situated L m) :
    (t'.after n m').store.Grows ((Run.evaluate (n + 1) e).after m).store := by
  have hnext : ∀ {t₁ : Task} {m₁ : Machine}, Begins n (.run (.expr e)) m t₁ m₁ →
      m₁.store.Grows (t₁.after n m₁).store :=
    fun h₁ => (h₁.after hL hreach hm ht).1
  have hvalue : ∀ {e' : Expr (Option Nat)} {v : Value} {m₁ : Machine},
      Begins n (.run (.expr e)) m (.run (.expr e')) m → Run.evaluate n e' m = .ok v m₁ →
      m.Grows m₁ ∧ m₁.Good L ∧ v.Good L m₁.store :=
    fun h₁ hv =>
      Situated.evaluate hL (h₁.situated hL hreach hm ht).2 hm (hL.begins hreach h₁) hv
  cases h with
  | group => exact Run.Keeps.last _
  | unary => exact Run.Keeps.bind (.last _) fun _ _ _ => .check _ _
  | binaryLeft =>
    refine Run.Keeps.bind (.last _) fun x m₁ hx => ?_
    exact .bind (hnext (.binaryRight hx)) fun _ _ _ => .check _ _
  | binaryRight hx => exact Run.Keeps.later hx (.bind (.last _) fun _ _ _ => .check _ _)
  | logicalLeft =>
    refine Run.Keeps.bind (.last _) fun x m₁ hx => ?_
    split
    · exact .pure x
    · next hgoes => exact hnext (.logicalRight hx hgoes)
  | logicalRight hx hgoes =>
    refine Run.Keeps.later hx ?_
    rw [if_neg hgoes]
    exact .last _
  | assign =>
    refine Run.Keeps.bind (.last _) fun v m₁ hv => ?_
    obtain ⟨hg₁, hm₁, hgood⟩ := hvalue .assign hv
    obtain ⟨Γ, hs⟩ := ht
    have hassign := Run.Leads.assign (hs.fits.mono hg₁) (hs.proper hL) (hs.resolved hL)
      (hs.spelled hL) hgood
    exact .bind (hassign.keeps hm₁) fun _ _ _ => .pure v
  | callee =>
    refine Run.Keeps.bind (.last _) fun f m₁ hf => ?_
    exact .bind (hnext (.arguments hf)) fun args m₂ hargs => hnext (.call hf hargs)
  | arguments hf =>
    exact Run.Keeps.later hf (.bind (.last _) fun args m₂ hargs => hnext (.call hf hargs))
  | call hf hargs => exact Run.Keeps.later hf (.later hargs (.last _))
  | get =>
    refine Run.Keeps.bind (.last _) fun v m₁ hv => ?_
    obtain ⟨-, hm₁, hgood⟩ := hvalue .get hv
    exact (Run.Leads.getProperty hgood fun _ _ => .property hreach hv).keeps hm₁
  | setObject =>
    refine Run.Keeps.bind (.last _) fun v m₁ hv => ?_
    cases v with
    | object o =>
      exact .bind (hnext (.setValue hv)) fun w _ _ => .bind (.same rfl) fun _ _ _ => .pure w
    | _ => exact .throw _
  | setValue hv =>
    exact Run.Keeps.later hv (.bind (.last _) fun w _ _ => .bind (.same rfl) fun _ _ _ => .pure w)

theorem resumes_stmt (hL : L.Lawful) {s : Code} (h : Begins n (.run (.stmt s)) m t' m')
    (hreach : L.reaches (n + 1) (.run (.stmt s)) m) (hm : m.Good L)
    (ht : (Task.run (.stmt s)).Situated L m) :
    (t'.after n m').store.Grows ((Run.execute (n + 1) s).after m).store := by
  have hnext : ∀ {t₁ : Task} {m₁ : Machine}, Begins n (.run (.stmt s)) m t₁ m₁ →
      m₁.store.Grows (t₁.after n m₁).store :=
    fun h₁ => (h₁.after hL hreach hm ht).1
  cases h with
  | expression => exact Run.Keeps.bind (.last _) fun _ _ _ => .pure _
  | @print e =>
    refine Run.Keeps.bind (.last _) fun v m₁ hv => ?_
    have hm₁ : m₁.Good L := Run.after_ok hv ▸ (Begins.print.after hL hreach hm ht).2
    exact .bind ((Run.Leads.printLine v.text).keeps hm₁) fun _ _ _ => .pure _
  | @var name e =>
    refine Run.Keeps.bind (.last _) fun v m₁ hv => ?_
    obtain ⟨Γ, hs⟩ := ht
    obtain ⟨hg₁, -, -⟩ := ((Run.leadsOn hL n).evaluate (hs.initializer hL)
      (hL.begins hreach .var)).of_ok hm hv
    have hopen := Store.Fits.opened (hs.fits.mono hg₁) (hs.proper hL)
    exact .bind (Store.Grows.define hopen v (hs.spelled hL)) fun _ _ _ => .pure _
  | block hframe => exact Run.Keeps.get (.later hframe (.inFrame (.last _)))
  | @condTest test yes no =>
    refine Run.Keeps.bind (.last _) fun v m₁ hv => ?_
    split
    · next htrue => exact hnext (.condYes hv htrue)
    · next hfalse =>
      cases no with
      | none => exact .pure _
      | some no => exact hnext (.condNo hv hfalse)
  | condYes hv htrue =>
    refine Run.Keeps.later hv ?_
    rw [if_pos htrue]
    exact .last _
  | condNo hv hfalse =>
    refine Run.Keeps.later hv ?_
    rw [if_neg hfalse]
    exact .last _
  | loopTest =>
    refine Run.Keeps.bind (.last _) fun v m₁ hv => ?_
    split
    · next htrue =>
      refine .bind (hnext (.loopBody hv htrue)) fun flow m₂ hbody => ?_
      cases flow with
      | proceed => exact hnext (.loopAgain hv htrue hbody)
      | returned w => exact .pure _
    · exact .pure _
  | loopBody hv htrue =>
    refine Run.Keeps.later hv ?_
    rw [if_pos htrue]
    refine .bind (.last _) fun flow m₂ hbody => ?_
    cases flow with
    | proceed => exact hnext (.loopAgain hv htrue hbody)
    | returned w => exact .pure _
  | loopAgain hv htrue hbody =>
    refine Run.Keeps.later hv ?_
    rw [if_pos htrue]
    exact .later hbody (.last _)
  | ret => exact Run.Keeps.bind (.last _) fun _ _ _ => .pure _

/-- **What a task leaves is kept by the task that began it.** There is a case for each place in
which a task may stand inside another one; what follows it there are later parts of the same task,
which begin where the earlier ones have ended, and steps of the machine. -/
theorem resumes (hL : L.Lawful) (h : Begins n t m t' m') (hreach : L.reaches (n + 1) t m)
    (hm : m.Good L) (ht : t.Situated L m) :
    (t'.after n m').store.Grows (t.after (n + 1) m).store := by
  have hnext : ∀ {t₁ : Task} {m₁ : Machine}, Begins n t m t₁ m₁ →
      m₁.store.Grows (t₁.after n m₁).store :=
    fun h₁ => (h₁.after hL hreach hm ht).1
  cases t with
  | run node =>
    cases node with
    | expr e => exact resumes_expr hL h hreach hm ht
    | stmt s => exact resumes_stmt hL h hreach hm ht
    | stmts ss =>
      cases h with
      | statement =>
        refine Run.Keeps.bind (.last _) fun flow m₁ hfirst => ?_
        cases flow with
        | proceed => exact hnext (.moreStatements hfirst)
        | returned v => exact .pure _
      | moreStatements hfirst => exact Run.Keeps.later hfirst (.last _)
  | arguments es =>
    cases h with
    | argument =>
      refine Run.Keeps.bind (.last _) fun v m₁ hv => ?_
      exact .bind (hnext (.moreArguments hv)) fun vs _ _ => .pure (v :: vs)
    | @moreArguments _ _ _ _ v hv =>
      exact Run.Keeps.later hv (.bind (.last _) fun vs _ _ => .pure (v :: vs))
  | call f paren args =>
    cases h with
    | apply hf hlen hdepth =>
      change Run.Keeps _ m (Run.call (n + 1) _ _ _)
      unfold Run.call
      rw [hf]
      dsimp only
      rw [if_neg (not_not.2 hlen)]
      refine .get ?_
      rw [if_neg (Nat.not_le_of_lt hdepth)]
      exact .inCall (.last _)
  | apply callee args =>
    cases h with
    | routine => exact Run.Keeps.last _
    | @initializer _ _ _ _ _ o _ _ hnew hmethod hbound =>
      refine Run.Keeps.later hnew ?_
      rw [hmethod]
      exact .later hbound (.bind (.last _) fun _ _ _ => .pure (Value.object o))
  | invoke r args =>
    cases h with
    | body hframe =>
      refine Run.Keeps.later hframe (.bind (.inFrame (.last _)) fun flow m₂ _ => ?_)
      split
      · exact .same rfl
      · cases flow <;> exact .pure _

end Task.Begins

end

/-! ## Sessions -/

section

variable {clock : Nat → Float} {room : Option Nat} {fuel : Nat} {sources : List (Style × String)}

/-- The session visits the machines in which it begins a task, and those in which it ends one. -/
inductive Session.Visits (clock : Nat → Float) (room : Option Nat) (fuel : Nat)
    (sources : List (Style × String)) : Machine → Prop
  | begins {n : Nat} {t : Task} {m : Machine} : Session.Reached clock room fuel sources n t m →
      Visits clock room fuel sources m
  | ends {n : Nat} {t : Task} {m : Machine} : Session.Reached clock room fuel sources n t m →
      Visits clock room fuel sources (t.after n m)

/-- What the code of a source leaves is kept to the end of the session. -/
theorem Session.Runs.grows {code : Line (Option Nat)} {m : Machine}
    (h : Session.Runs clock room fuel sources code m) :
    ((Run.line fuel code).after m).store.Grows
      ((Session.start clock room).steps fuel sources).2.machine.store := by
  obtain ⟨before, style, source, after, hsources, hcode, rfl⟩ := h
  obtain ⟨next, hs⟩ := Session.step_of_code?_eq_some fuel hcode
  have hstep : ((Session.start clock room).steps fuel (before ++ [(style, source)])).2.machine =
      (Run.line fuel code).after
        ((Session.start clock room).steps fuel before).2.machine.unprinted := by
    rw [Session.steps_concat, hs, Session.machine_perform]
  rw [← hstep]
  exact Session.grows_steps (hsources.trans (List.append_cons ..))

namespace Session.Reached

variable {n : Nat} {t : Task} {m : Machine}

/-- A task that is reached leaves a good machine, and lets the store grow. -/
theorem after (h : Session.Reached clock room fuel sources n t m) :
    m.store.Grows (t.after n m).store ∧
      (t.after n m).Good (Session.log clock room fuel sources) := by
  obtain ⟨hm, ht⟩ := h.situated
  obtain ⟨hg, hgood⟩ := ht.after Session.log_lawful h hm
  exact ⟨hg.store, hgood⟩

/-- What a task leaves is kept to the end of the session. -/
theorem grows (h : Session.Reached clock room fuel sources n t m) :
    (t.after n m).store.Grows
      ((Session.start clock room).steps fuel sources).2.machine.store := by
  induction h with
  | @statements code m hruns =>
    have hline : Run.Keeps ((Run.executeAll fuel code.statements).after m) m
        (Run.line fuel code) := by
      refine .bind (.last _) fun flow m₁ hr => ?_
      split
      · exact .pure none
      · next e he => exact .bind (trailing hruns hr he).after.1 fun v _ _ => .pure (some v)
    exact Store.Grows.trans hline hruns.grows
  | @trailing code m m' flow e hruns hr he =>
    have hline : Run.Keeps ((Run.evaluate fuel e).after m') m (Run.line fuel code) := by
      refine .later hr ?_
      rw [he]
      exact .bind (.last _) fun v _ _ => .pure (some v)
    exact Store.Grows.trans hline hruns.grows
  | begins hreached hbegins ih =>
    obtain ⟨hm, ht⟩ := hreached.situated
    exact (hbegins.resumes Session.log_lawful hreached hm ht).trans ih

end Session.Reached

namespace Session.Visits

variable {m m' : Machine}

theorem good (h : Session.Visits clock room fuel sources m) :
    m.Good (Session.log clock room fuel sources) := by
  cases h with
  | begins h => exact h.situated.1
  | ends h => exact h.after.2

/-- The store of a machine that the session visits is found, grown, at the end of the session. -/
theorem grows (h : Session.Visits clock room fuel sources m) :
    m.store.Grows ((Session.start clock room).steps fuel sources).2.machine.store := by
  cases h with
  | begins h => exact h.after.1.trans h.grows
  | ends h => exact h.grows

/-- **A sealed frame is the same whenever it is there.** -/
theorem agree (h : Session.Visits clock room fuel sources m)
    (h' : Session.Visits clock room fuel sources m') {i : Nat} {f : Frame Value}
    (hf : m.store.frames[i]? = some f) (hsealed : f.Sealed) (hi : i < m'.store.frames.size) :
    m'.store.frames[i]? = some f := by
  have hlast := h.grows.sealed i f hf hsealed
  have hf' := Array.getElem?_eq_getElem hi
  rcases h'.good.shapes i _ hf' with hopen | hsealed'
  · obtain ⟨f₁, hf₁, hopen₁⟩ := h'.grows.opened i ⟨_, hf', hopen⟩
    rw [hlast] at hf₁
    cases hf₁
    exact absurd hopen₁ hsealed.not_open
  · rw [hf', ← h'.grows.sealed i _ hf' hsealed', hlast]

end Session.Visits

end

end LoxLang
