import LoxLang.Proofs.Safety.Parts

/-!
# Calls in progress

A session is at every moment in the middle of a stack of tasks, each of them begun by the one below
it (`Session.Stacked`). A call is in progress as long as what it calls is on the stack, and the
machine counts these (`Session.Stacked.depth`). The count is what stops a call that is nested too
deep; this check and those before it come first, so a call that is refused leaves no trace
(`Run.call_eq_refused_iff`).
-/

namespace LoxLang

/-- Whether the task is an activation: it runs what a call has found to be called. An initializer
that runs on a new instance belongs to the activation of the class. -/
def Task.isActivation : Task → Bool
  | .apply _ _ => true
  | .run _ | .arguments _ | .call _ _ _ | .invoke _ _ => false

/-- The number of activations on a stack of tasks. -/
def activations (ts : List Task) : Nat := ts.countP Task.isActivation

/-- The session comes to run the first of the tasks on some fuel from the machine; each of them has
been begun by the next, and the last by the session. -/
inductive Session.Stacked (clock : Nat → Float) (room : Option Nat) (fuel : Nat)
    (sources : List (Style × String)) : Nat → List Task → Machine → Prop
  | statements {code : Line (Option Nat)} {m : Machine} :
      Session.Runs clock room fuel sources code m →
      Stacked clock room fuel sources fuel [.run (.stmts code.statements)] m
  | trailing {code : Line (Option Nat)} {m m' : Machine} {flow : Flow} {e : Expr (Option Nat)} :
      Session.Runs clock room fuel sources code m →
      Run.executeAll fuel code.statements m = .ok flow m' → code.trailing = some e →
      Stacked clock room fuel sources fuel [.run (.expr e)] m'
  | begins {n : Nat} {t t' : Task} {ts : List Task} {m m' : Machine} :
      Stacked clock room fuel sources (n + 1) (t :: ts) m → Task.Begins n t m t' m' →
      Stacked clock room fuel sources n (t' :: t :: ts) m'

/-! ## The count -/

/-- Nothing but an activation changes how many calls are in progress, and it is not begun where
there are too many. -/
theorem Task.Begins.depth {n : Nat} {t t' : Task} {m m' : Machine} (h : Begins n t m t' m') :
    m'.depth = m.depth + (if t'.isActivation then 1 else 0) ∧
      (t'.isActivation → m.depth < Machine.mostCalls) := by
  have hn := Run.respectsOn Machine.SameControl.closed n
  have hevaluate : ∀ {e : Expr (Option Nat)} {v : Value} {m m' : Machine},
      Run.evaluate n e m = .ok v m' → m'.depth = m.depth := fun hr =>
    ((hn.evaluate _).of_ok hr).depth
  cases h with
  | group | unary | binaryLeft | logicalLeft | assign | callee | get | setObject | argument
  | routine | statement | expression | print | var | condTest | loopTest | ret => exact ⟨rfl, nofun⟩
  | binaryRight hr | logicalRight hr | arguments hr | setValue hr | moreArguments hr
  | condYes hr | condNo hr | loopBody hr => exact ⟨hevaluate hr, nofun⟩
  | call hr hrs => exact ⟨((hn.evaluateAll _).of_ok hrs).depth.trans (hevaluate hr), nofun⟩
  | apply _ _ hm => exact ⟨rfl, fun _ => hm⟩
  | initializer hnew _ hbound =>
    cases hnew
    cases hbound
    exact ⟨rfl, nofun⟩
  | body hframe | block hframe =>
    cases hframe
    exact ⟨rfl, nofun⟩
  | moreStatements hr => exact ⟨((hn.execute _).of_ok hr).depth, nofun⟩
  | loopAgain hr _ hbody => exact ⟨((hn.execute _).of_ok hbody).depth.trans (hevaluate hr), nofun⟩

section

variable {clock : Nat → Float} {room : Option Nat} {fuel : Nat} {sources : List (Style × String)}
  {n : Nat} {t : Task} {ts : List Task} {m : Machine}

/-- What a session reaches is on top of a stack. -/
theorem Session.Reached.stacked (h : Session.Reached clock room fuel sources n t m) :
    ∃ ts, Session.Stacked clock room fuel sources n (t :: ts) m := by
  induction h with
  | statements hruns => exact ⟨[], .statements hruns⟩
  | trailing hruns hr he => exact ⟨[], .trailing hruns hr he⟩
  | begins _ hbegins ih =>
    obtain ⟨ts, h⟩ := ih
    exact ⟨_, .begins h hbegins⟩

/-- No call is in progress between two sources. -/
theorem Session.depth_steps (clock : Nat → Float) (room : Option Nat) (fuel : Nat)
    (sources : List (Style × String)) :
    ((Session.start clock room).steps fuel sources).2.machine.depth = 0 := by
  refine Session.machine_steps (P := fun m => m.depth = 0) (fun m code hm => ?_) sources rfl
  exact (Run.Respects.line Machine.SameControl.closed fuel code m.unprinted).depth.trans hm

/-- No call is in progress when a source begins to run. -/
theorem Session.Runs.depth {code : Line (Option Nat)}
    (h : Session.Runs clock room fuel sources code m) : m.depth = 0 := by
  obtain ⟨before, _, _, _, -, -, rfl⟩ := h
  exact Session.depth_steps clock room fuel before

/-- **The machine counts the activations on the stack**, and there are never too many. -/
theorem Session.Stacked.depth (h : Session.Stacked clock room fuel sources n ts m) :
    m.depth = activations ts ∧ activations ts ≤ Machine.mostCalls := by
  induction h with
  | statements hruns => exact ⟨hruns.depth, Nat.zero_le _⟩
  | @trailing code m m' _ _ hruns hr _ =>
    have hcontrol := ((Run.respectsOn Machine.SameControl.closed fuel).executeAll _).of_ok hr
    exact ⟨hcontrol.depth.trans hruns.depth, Nat.zero_le _⟩
  | @begins n t t' ts m m' _ hbegins ih =>
    obtain ⟨hdepth, hle⟩ := ih
    obtain ⟨hdepth', hlt⟩ := hbegins.depth
    rw [hdepth] at hdepth' hlt
    rw [activations, List.countP_cons, ← activations]
    refine ⟨hdepth', ?_⟩
    split
    · next ht => exact hlt ht
    · exact hle

end

/-! ## Calls that are refused -/

/-- A call of the value with so many arguments, while so many calls are in progress, is refused for
this cause. What can be called is looked at first, and the number of arguments second. -/
inductive Value.Refuses (f : Value) (count inProgress : Nat) : RuntimeCause → Prop
  | notCallable : f.callee? = none → Refuses f count inProgress .notCallable
  | arity {callee : Callee} : f.callee? = some callee → count ≠ callee.arity →
      Refuses f count inProgress (.arity callee.arity count)
  | stackOverflow {callee : Callee} : f.callee? = some callee → count = callee.arity →
      inProgress = Machine.mostCalls → Refuses f count inProgress .stackOverflow

/-- The checks in the order in which they are made. -/
theorem Value.refuses_iff {f : Value} {count inProgress : Nat} {cause : RuntimeCause} :
    f.Refuses count inProgress cause ↔
      match f.callee? with
      | none => cause = .notCallable
      | some callee =>
        if count ≠ callee.arity then cause = .arity callee.arity count
        else inProgress = Machine.mostCalls ∧ cause = .stackOverflow := by
  constructor
  · intro h
    cases h with
    | notCallable hf => rw [hf]
    | arity hf hcount =>
      rw [hf]
      dsimp only
      rw [if_pos hcount]
    | stackOverflow hf hcount hmost =>
      rw [hf]
      dsimp only
      rw [if_neg (not_not.2 hcount)]
      exact ⟨hmost, rfl⟩
  · intro h
    cases hf : f.callee? with
    | none =>
      rw [hf] at h
      exact h ▸ .notCallable hf
    | some callee =>
      rw [hf] at h
      dsimp only at h
      split at h
      · next hcount => exact h ▸ .arity hf hcount
      · next hcount => exact h.2 ▸ .stackOverflow hf (not_not.1 hcount) h.1

/-- Only one of the causes tells of calls that are nested too deep. -/
theorem Value.Refuses.message_eq_iff {f : Value} {count inProgress : Nat} {cause : RuntimeCause}
    (h : f.Refuses count inProgress cause) :
    cause.message = "Stack overflow." ↔ cause = .stackOverflow := by
  refine ⟨fun hmessage => ?_, fun hcause => hcause ▸ rfl⟩
  cases h with
  | notCallable => exact absurd hmessage (by decide)
  | @arity callee =>
    change "Expected " ++ toString callee.arity ++ " arguments but got " ++ toString count ++ "." =
      "Stack overflow." at hmessage
    have hhead := congrArg (fun s => s.toList.head?) hmessage
    simp at hhead
  | stackOverflow => rfl

/-- No step of a run takes a frame away. -/
theorem Machine.timely_frames :
    Machine.Timely fun m m' => m.store.frames.size ≤ m'.store.frames.size where
  same h := Nat.le_of_eq (congrArg (·.frames.size) h.store).symm
  trans := Nat.le_trans
  create m names parent := by
    change _ ≤ (m.store.create names (some parent)).2.frames.size
    rw [Store.size_frames_create]
    exact Nat.le_succ _
  define m frame name value := Nat.le_of_eq (Store.size_frames_define ..).symm
  newIdentity _ := Nat.le_refl _
  newObject _ := Nat.le_refl _

/-- A task that begins another one in a machine with a new frame leaves at least that frame. -/
theorem Task.Begins.frames_lt {n : Nat} {t t' : Task} {m m' : Machine} (h : Begins n t m t' m')
    (hlt : m.store.frames.size < m'.store.frames.size) :
    m.store.frames.size < (t.after (n + 1) m).store.frames.size := by
  have hafter := Task.respects (Machine.timely_frames.closed fun _ _ _ => Nat.le_refl _) n m' t'
  have hwithin := h.within Machine.timely_frames fun _ _ _ => Nat.le_refl _
  exact Nat.lt_of_lt_of_le hlt (Nat.le_trans hafter hwithin.2)

namespace Run

/-- A function that fails has got a frame. -/
theorem invoke_error {n : Nat} {r : Routine} {args : List Value} {m m' : Machine} {line : Nat}
    {cause : RuntimeCause} (h : invoke n r args m = .error (.runtime line cause) m') :
    m.store.frames.size < m'.store.frames.size := by
  cases n with
  | zero => cases h
  | succ n =>
    have hbody : Task.Begins n (.invoke r args) m (.run (.stmts r.body)) (m.entering r args) :=
      .body rfl
    have hlt : m.store.frames.size < (m.entering r args).store.frames.size :=
      Nat.lt_of_lt_of_eq (Nat.lt_succ_self _) (Store.size_frames_create ..).symm
    exact after_error h ▸ hbody.frames_lt hlt

/-- What is called and fails has got a frame: only an initializer can make a construction fail. -/
theorem apply_error {n : Nat} {callee : Callee} {args : List Value} {m m' : Machine} {line : Nat}
    {cause : RuntimeCause} (h : apply n callee args m = .error (.runtime line cause) m') :
    m.store.frames.size < m'.store.frames.size := by
  cases n with
  | zero => cases h
  | succ n =>
    cases callee with
    | clock => cases h
    | routine r => exact invoke_error h
    | construct c =>
      cases hinit : c.method? initName with
      | none =>
        unfold apply at h
        dsimp only at h
        rw [hinit] at h
        cases h
      | some r =>
        let o : Object := ⟨m.objects.size, c⟩
        let m₁ : Machine := { m with objects := m.objects.push .empty }
        have hinvoke : Task.Begins n (.apply (.construct c) args) m
            (.invoke { r with frame := m.nextFrame } args)
            (m₁.grow (.single thisName (.object o)) r.frame) :=
          .initializer rfl hinit rfl
        have hlt : m.store.frames.size <
            (m₁.grow (.single thisName (.object o)) r.frame).store.frames.size :=
          Nat.lt_of_lt_of_eq (Nat.lt_succ_self _) (Store.size_frames_create ..).symm
        exact after_error h ▸ hinvoke.frames_lt hlt

/-- **When a call is refused.** A call fails without a trace just where it is refused: a call that
passes the checks and fails has got a frame by then. -/
theorem call_eq_refused_iff {n : Nat} {f : Value} {paren : Token} {args : List Value} {m : Machine}
    {line : Nat} {cause : RuntimeCause} (hm : m.depth ≤ Machine.mostCalls) :
    call (n + 1) f paren args m = .error (.runtime line cause) m ↔
      line = paren.line ∧ f.Refuses args.length m.depth cause := by
  have hfail : ∀ c : RuntimeCause,
      (fail paren c : Run Value) m = .error (.runtime line cause) m ↔
        line = paren.line ∧ cause = c := by
    intro c
    constructor
    · rintro ⟨⟩
      exact ⟨rfl, rfl⟩
    · rintro ⟨rfl, rfl⟩
      rfl
  rw [Value.refuses_iff]
  unfold call
  cases f.callee? with
  | none => exact hfail _
  | some callee =>
    dsimp only
    split
    · exact hfail _
    · change (if Machine.mostCalls ≤ m.depth then _ else _ : Run Value) m = _ ↔ _
      split
      · next hmost =>
        have hdepth : m.depth = Machine.mostCalls := Nat.le_antisymm hm hmost
        exact (hfail _).trans (and_congr_right' (by simp [hdepth]))
      · next hmost =>
        have hnever :
            ¬ (line = paren.line ∧ m.depth = Machine.mostCalls ∧ cause = .stackOverflow) :=
          fun h => hmost (Nat.le_of_eq h.2.1.symm)
        refine ⟨fun h => ?_, fun h => absurd h hnever⟩
        unfold inCall at h
        split at h
        · cases h
        · next m₁ happly =>
          injection h with hfault hm₁
          have hframes := apply_error (hfault ▸ happly)
          have hsame : m₁.store = m.store := (congrArg Machine.store hm₁ :)
          rw [hsame] at hframes
          exact absurd hframes (Nat.lt_irrefl _)

end Run

/-- The expressions are evaluated from left to right, each from the machine that the one before has
left, and return the values. -/
inductive Run.LeftToRight : Nat → List (Expr (Option Nat)) → Machine → List Value → Machine → Prop
  | nil {n : Nat} {m : Machine} : LeftToRight (n + 1) [] m [] m
  | cons {n : Nat} {e : Expr (Option Nat)} {es : List (Expr (Option Nat))} {v : Value}
      {vs : List Value} {m m' m'' : Machine} : Run.evaluate n e m = .ok v m' →
      LeftToRight n es m' vs m'' → LeftToRight (n + 1) (e :: es) m (v :: vs) m''

/-- Arguments that have all been evaluated have been evaluated from left to right. -/
theorem Run.leftToRight_of_ok {n : Nat} {es : List (Expr (Option Nat))} {vs : List Value}
    {m m' : Machine} (h : evaluateAll n es m = .ok vs m') : LeftToRight n es m vs m' := by
  induction n generalizing es vs m with
  | zero => cases h
  | succ n ih =>
    cases es with
    | nil =>
      cases h
      exact .nil
    | cons e es =>
      obtain ⟨v, m₁, hv, h⟩ := of_bind_ok h
      obtain ⟨rest, m₂, hrest, h⟩ := of_bind_ok h
      cases h
      exact .cons hv (ih hrest)

section

variable {clock : Nat → Float} {room : Option Nat} {fuel : Nat} {sources : List (Style × String)}
  {n : Nat} {ts : List Task} {m : Machine} {f : Value} {paren : Token} {args : List Value}

/-- The call of a value is begun by a call expression that has evaluated what is called and all
arguments, and it comes to what the expression comes to. -/
theorem Session.Stacked.of_call
    (h : Session.Stacked clock room fuel sources n (.call f paren args :: ts) m) :
    ∃ e es ts' m₀ m₁, ts = .run (.expr (.call e paren es)) :: ts' ∧
      Session.Stacked clock room fuel sources (n + 1) ts m₀ ∧
      Run.evaluate n e m₀ = .ok f m₁ ∧ Run.LeftToRight n es m₁ args m ∧
      Run.evaluate (n + 1) (.call e paren es) m₀ = Run.call n f paren args m := by
  cases h with
  | begins hstacked hbegins =>
    cases hbegins with
    | call hr hrs =>
      refine ⟨_, _, _, _, _, rfl, hstacked, hr, Run.leftToRight_of_ok hrs, ?_⟩
      exact (Run.bind_ok hr).trans (Run.bind_ok hrs)

/-- A call begins to run what is called unless it is refused. -/
theorem Task.Begins.of_call (hm : m.depth ≤ Machine.mostCalls) :
    (∃ cause, f.Refuses args.length m.depth cause) ↔
      ∀ t m', ¬ Begins n (.call f paren args) m t m' := by
  constructor
  · rintro ⟨cause, hrefuses⟩ t m' hbegins
    cases hbegins with
    | apply hf hlen hlt =>
      cases hrefuses with
      | notCallable hf' => cases hf.symm.trans hf'
      | arity hf' hlen' =>
        cases hf.symm.trans hf'
        exact hlen' hlen
      | stackOverflow _ _ hmost => exact Nat.ne_of_lt hlt hmost
  · intro hnone
    cases hf : f.callee? with
    | none => exact ⟨_, .notCallable hf⟩
    | some callee =>
      by_cases hlen : args.length = callee.arity
      · by_cases hlt : m.depth < Machine.mostCalls
        · exact absurd (.apply hf hlen hlt) (hnone _ _)
        · exact ⟨_, .stackOverflow hf hlen (Nat.le_antisymm hm (Nat.le_of_not_lt hlt))⟩
      · exact ⟨_, .arity hf hlen⟩

end

/-- **Calls are counted exactly.** Take any session. Whatever it reaches is on a stack of tasks,
each begun by the one below it, and the machine counts the activations on the stack, both where the
task begins and, however it ends, where it ends; there are never more than 1024 of them, and none
are left between sources. The initializer of a new instance does not count apart from the class.

Take a call of a value anywhere in the session. It stands on a call expression, which has evaluated
what is called and then the arguments from left to right. The call is refused, for the causes that
`Value.Refuses` lists, or else it begins to run what is called. It fails without a trace just when
it is refused, at the line of its parenthesis: the machine is then the one that the arguments have
left. So it tells of a stack overflow just when the value can be called, the number of arguments is
right, and exactly 1024 activations are in progress. -/
theorem calls_counted (clock : Nat → Float) (room : Option Nat) (fuel : Nat)
    (sources : List (Style × String)) :
    (∀ n t m, Session.Reached clock room fuel sources n t m →
      ∃ ts, Session.Stacked clock room fuel sources n (t :: ts) m) ∧
    (∀ n t ts m, Session.Stacked clock room fuel sources n (t :: ts) m →
      m.depth = activations (t :: ts) ∧ (t.after n m).depth = activations (t :: ts) ∧
        activations (t :: ts) ≤ 1024) ∧
    ((Session.start clock room).steps fuel sources).2.machine.depth = 0 ∧
    (∀ n c args ts m t m',
      Session.Stacked clock room fuel sources (n + 1) (.apply (.construct c) args :: ts) m →
      Task.Begins n (.apply (.construct c) args) m t m' →
      (∃ init, t = .invoke init args) ∧ m'.depth = activations ts + 1) ∧
    (∀ n f paren args ts m,
      Session.Stacked clock room fuel sources (n + 1) (.call f paren args :: ts) m →
      (∃ e es ts' m₀ m₁, ts = .run (.expr (.call e paren es)) :: ts' ∧
        Session.Stacked clock room fuel sources (n + 2) ts m₀ ∧
        Run.evaluate (n + 1) e m₀ = .ok f m₁ ∧ Run.LeftToRight (n + 1) es m₁ args m ∧
        Run.evaluate (n + 2) (.call e paren es) m₀ = Run.call (n + 1) f paren args m) ∧
      (∀ line cause, Run.call (n + 1) f paren args m = .error (.runtime line cause) m ↔
        line = paren.line ∧ f.Refuses args.length (activations ts) cause) ∧
      ((∃ cause, f.Refuses args.length (activations ts) cause) ↔
        ∀ t m', ¬ Task.Begins n (.call f paren args) m t m') ∧
      ((∃ line cause, Run.call (n + 1) f paren args m = .error (.runtime line cause) m ∧
          cause.message = "Stack overflow.") ↔
        ∃ callee, f.callee? = some callee ∧ args.length = callee.arity ∧
          activations ts = 1024)) := by
  refine ⟨fun n t m h => h.stacked, fun n t ts m h => ?_,
    Session.depth_steps clock room fuel sources, fun n c args ts m t m' h hbegins => ?_,
    fun n f paren args ts m h => ?_⟩
  · have hcontrol := Task.respects Machine.SameControl.closed n m t
    exact ⟨h.depth.1, hcontrol.depth.trans h.depth.1, h.depth.2⟩
  · have hdepth : m.depth = activations ts + 1 :=
      h.depth.1.trans (List.countP_cons_of_pos rfl)
    have hdepth' := hbegins.depth.1
    cases hbegins with
    | initializer => exact ⟨⟨_, rfl⟩, hdepth'.trans hdepth⟩
  · have hdepth : m.depth = activations ts := h.depth.1
    have hm : m.depth ≤ Machine.mostCalls := hdepth ▸ h.depth.2
    have hrefused : ∀ line cause, Run.call (n + 1) f paren args m = .error (.runtime line cause) m ↔
        line = paren.line ∧ f.Refuses args.length (activations ts) cause :=
      hdepth ▸ fun _ _ => Run.call_eq_refused_iff hm
    refine ⟨h.of_call, hrefused, hdepth ▸ Task.Begins.of_call hm, ?_⟩
    constructor
    · rintro ⟨line, cause, hcall, hmessage⟩
      have hrefuses := ((hrefused line cause).1 hcall).2
      obtain rfl := hrefuses.message_eq_iff.1 hmessage
      cases hrefuses with
      | stackOverflow hf hlen hmost => exact ⟨_, hf, hlen, hmost⟩
    · rintro ⟨callee, hf, hlen, hmost⟩
      exact ⟨paren.line, .stackOverflow,
        (hrefused _ _).2 ⟨rfl, .stackOverflow hf hlen hmost⟩, rfl⟩

end LoxLang
