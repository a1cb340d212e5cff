import LoxLang.Proofs.Run.Control
import LoxLang.Proofs.Run.Fuel
import LoxLang.Proofs.Safety.Instances

/-!
# Construction

A call of a class makes an instance with the next address, runs the body of the initializer that is
nearest in the chain of superclasses, once, in a frame inside that of the receiver, and returns the
instance, however the body ends (`Run.construction`). The instance is none of those at hand before.
An initializer that is called as a bound method returns the instance it was bound to, since a
routine is marked as an initializer just where a class has it under the name of the initializer, and
the frame of the receiver is sealed (`construction_contract`).
-/

namespace LoxLang

/-- What a class has under a name: its own method, or else the one nearest in the chain of its
superclasses, or none if no class of the chain has one. -/
inductive Class.Nearest (name : String) : Class → Option Routine → Prop
  | own {c : Class} {r : Routine} : c.methods.find? name = some r → Nearest name c (some r)
  | inherited {c above : Class} {found : Option Routine} : c.methods.find? name = none →
      c.superclass = some above → Nearest name above found → Nearest name c found
  | nowhere {c : Class} : c.methods.find? name = none → c.superclass = none → Nearest name c none

theorem Class.nearest_method? (c : Class) (name : String) : c.Nearest name (c.method? name) := by
  fun_induction Class.method? c name with
  | case1 identity cname methods name =>
    cases h : methods.find? name with
    | none => exact .nowhere h rfl
    | some r => exact .own h
  | case2 identity cname above methods name r h => exact .own h
  | case3 identity cname above methods name h ih => exact .inherited h rfl ih

/-- How many arguments a class takes whose initializer is the given one. -/
def Class.arityOf (init? : Option Routine) : Nat := init?.elim 0 fun r => r.params.length

/-- The machine in which the body of a routine is run: the current frame has the parameters. -/
def Machine.entering (m : Machine) (r : Routine) (args : List Value) : Machine :=
  { m.grow ((r.params.zip args).foldl (fun t p => t.insert p.1 p.2) .empty) r.frame with
    frame := m.nextFrame }

/-- The machine in which an initializer is run: there is one more call in progress and one more
instance, and a new frame has the instance under `this`. -/
def Machine.constructing (m : Machine) (o : Object) (r : Routine) : Machine :=
  { m with objects := m.objects.push .empty, depth := m.depth + 1 }.grow
    (.single thisName (.object o)) r.frame

/-- Makes an instance of the class and, if there is an initializer, runs its body on it. What flow
the body comes to does not matter. -/
def Run.construction (n : Nat) (c : Class) (init? : Option Routine) (args : List Value) :
    Run Value := fun m =>
  let o : Object := ⟨m.objects.size, c⟩
  match init? with
  | none => .ok (.object o) { m with objects := m.objects.push .empty }
  | some r =>
    let bound : Routine := { r with frame := m.nextFrame }
    match Run.executeAll n r.body ((m.constructing o r).entering bound args) with
    | .ok _ m' => .ok (.object o) { m' with frame := m.frame, depth := m.depth }
    | .error e m' => .error e { m' with frame := m.frame, depth := m.depth }

/-- What a routine returns whose body comes to the given flow. -/
def Routine.outcome (r : Routine) (flow : Flow) (m : Machine) : Value :=
  if r.isInit then (m.store.get? r.frame thisName).getD .nil
  else match flow with
    | .returned v => v
    | .proceed => .nil

namespace Run

variable {c : Class} {paren : Token} {args : List Value} {m m' : Machine} {v : Value}

theorem arity_construct (c : Class) :
    (Callee.construct c).arity = Class.arityOf (c.method? initName) := by
  unfold Callee.arity Class.arityOf
  dsimp only
  cases c.method? initName <;> rfl

/-- A call of a class checks the number of arguments, then the number of calls in progress, and only
then makes an instance. -/
theorem call_cls (n : Nat) (c : Class) (paren : Token) (args : List Value) (m : Machine) :
    call (n + 1) (.cls c) paren args m =
      if args.length ≠ Class.arityOf (c.method? initName) then
        .error (.runtime paren.line
          (.arity (Class.arityOf (c.method? initName)) args.length)) m
      else if Machine.mostCalls ≤ m.depth then .error (.runtime paren.line .stackOverflow) m
      else inCall (apply n (.construct c) args) m := by
  rw [← arity_construct]
  change (if args.length ≠ (Callee.construct c).arity then _ else _ : Run Value) m = _
  split
  · rfl
  · change (if Machine.mostCalls ≤ m.depth then _ else _ : Run Value) m = _
    split <;> rfl

/-- A routine runs its body and is left in the frame from which it was called. -/
theorem invoke_eq (n : Nat) (r : Routine) (args : List Value) (m : Machine) :
    invoke (n + 1) r args m = match executeAll n r.body (m.entering r args) with
      | .ok flow m' => .ok (r.outcome flow m') { m' with frame := m.frame }
      | .error e m' => .error e { m' with frame := m.frame } := by
  unfold invoke
  refine (bind_ok (createFrame_eq _ r.frame m)).trans ?_
  cases h : executeAll n r.body (m.entering r args) with
  | ok flow m' =>
    refine (bind_ok (inFrame_ok h)).trans ?_
    dsimp only
    unfold Routine.outcome
    split
    · rfl
    · cases flow <;> rfl
  | error e m' => exact bind_error (inFrame_error h)

/-- The body is run once, and the call is left with as many in progress as before. -/
theorem inCall_apply_construct (n : Nat) (c : Class) (args : List Value) (m : Machine) :
    inCall (apply (n + 2) (.construct c) args) m =
      construction n c (c.method? initName) args m := by
  cases hinit : c.method? initName with
  | none =>
    unfold construction inCall apply
    dsimp only
    rw [hinit]
    rfl
  | some r =>
    let o : Object := ⟨m.objects.size, c⟩
    let bound : Routine := { r with frame := m.nextFrame }
    have happly : apply (n + 2) (.construct c) args { m with depth := m.depth + 1 } =
        (invoke (n + 1) bound args >>= fun _ => pure (.object o)) (m.constructing o r) := by
      unfold apply
      dsimp only
      rw [hinit]
      rfl
    have hcontrol := (respectsOn Machine.SameControl.closed n).executeAll r.body
      ((m.constructing o r).entering bound args)
    have hinvoke := invoke_eq n bound args (m.constructing o r)
    unfold construction
    dsimp only
    cases h : executeAll n r.body ((m.constructing o r).entering bound args) with
    | ok flow m' =>
      have hdepth : m'.depth = m.depth + 1 := after_ok h ▸ hcontrol.depth
      rw [h] at hinvoke
      refine (inCall_ok (happly.trans (bind_ok hinvoke))).trans ?_
      dsimp only
      rw [hdepth]
      rfl
    | error e m' =>
      have hdepth : m'.depth = m.depth + 1 := after_error h ▸ hcontrol.depth
      rw [h] at hinvoke
      refine (inCall_error (happly.trans (bind_error hinvoke))).trans ?_
      dsimp only
      rw [hdepth]
      rfl

/-- A call of a class that ends on some fuel, past the checks, is a construction. -/
theorem call_cls_of_ended {n : Nat} (h : Ended (call n (.cls c) paren args m))
    (hargs : args.length = Class.arityOf (c.method? initName))
    (hm : m.depth < Machine.mostCalls) :
    call n (.cls c) paren args m = construction n c (c.method? initName) args m := by
  have hmore := ((extends_congruence.relatesOn (Nat.le_add_right n 3)).call _ _ _).eq_of_ended h
  rw [← hmore, call_cls, if_neg (not_not.2 hargs), if_neg (Nat.not_le_of_lt hm)]
  exact inCall_apply_construct n c args m

/-- A call of a class that succeeds has passed the checks. -/
theorem call_cls_ok {n : Nat} (h : call n (.cls c) paren args m = .ok v m') :
    args.length = Class.arityOf (c.method? initName) ∧
      construction n c (c.method? initName) args m = .ok v m' := by
  cases n with
  | zero => cases h
  | succ n =>
    have hcall := h
    rw [call_cls] at hcall
    split at hcall
    · cases hcall
    · next hargs =>
      split at hcall
      · cases hcall
      · next hm =>
        have hargs := not_not.1 hargs
        have hended : Ended (call (n + 1) (.cls c) paren args m) := h ▸ nofun
        exact ⟨hargs, (call_cls_of_ended hended hargs (Nat.lt_of_not_le hm)).symm.trans h⟩

/-- A construction that succeeds returns the new instance. -/
theorem construction_ok {n : Nat} {init? : Option Routine}
    (h : construction n c init? args m = .ok v m') : v = .object ⟨m.objects.size, c⟩ := by
  unfold construction at h
  dsimp only at h
  split at h
  · cases h
    rfl
  · split at h <;> cases h
    rfl

/-- A call of a function that succeeds has run the function. -/
theorem call_function_ok {n identity : Nat} {r : Routine}
    (h : call n (.function identity r) paren args m = .ok v m') :
    ∃ i m₁, n = i + 3 ∧ args.length = r.params.length ∧ m.depth < Machine.mostCalls ∧
      invoke (i + 1) r args { m with depth := m.depth + 1 } = .ok v m₁ := by
  cases n with
  | zero => cases h
  | succ n =>
    change (if args.length ≠ r.params.length then fail paren _ else _ : Run Value) m = _ at h
    split at h
    · cases h
    · next hargs =>
      change (if Machine.mostCalls ≤ m.depth then fail paren _ else _ : Run Value) m = _ at h
      split at h
      · cases h
      · next hm =>
        obtain ⟨m₁, h⟩ : ∃ m₁, apply n (.routine r) args { m with depth := m.depth + 1 } =
            .ok v m₁ := by
          unfold inCall at h
          split at h <;> cases h
          exact ⟨_, ‹_›⟩
        obtain _ | _ | i := n
        · cases h
        · cases h
        · exact ⟨i, m₁, rfl, not_not.1 hargs, Nat.lt_of_not_le hm, h⟩

/-! ## Bound methods -/

/-- A bound method tells which method it is, and of which instance. -/
theorem methodValue_inj {r r' : Routine} {o o' : Object}
    (h : methodValue r o m = methodValue r' o' m) : r = r' ∧ o = o' := by
  obtain ⟨name, params, body, frame, isInit⟩ := r
  obtain ⟨name', params', body', frame', isInit'⟩ := r'
  injection h with hvalue hmachine
  have hstore : (m.store.create (.single thisName (.object o)) (some frame)).2 =
      (m.store.create (.single thisName (.object o')) (some frame')).2 :=
    congrArg Machine.store hmachine
  have hframe := (m.store.getElem?_frames_create_size ..).symm.trans
    ((congrArg (·.frames[m.store.frames.size]?) hstore).trans
      (m.store.getElem?_frames_create_size ..))
  cases hframe
  cases hvalue
  exact ⟨rfl, rfl⟩

theorem getProperty_eq_methodValue {name : Token} {r : Routine} {o : Object}
    (h : getProperty v name m = methodValue r o m) :
    v = .object o ∧ o.cls.method? name.lexeme = some r := by
  cases v with
  | object o' =>
    replace h := (bind_ok (r := get) (m := m) rfl).symm.trans h
    cases hfield : m.objects[o'.address]?.bind (·.find? name.lexeme) with
    | some field =>
      rw [hfield] at h
      injection h with _ hmachine
      exact absurd (congrArg Machine.identities hmachine) (Nat.ne_of_lt (Nat.lt_succ_self _))
    | none =>
      rw [hfield] at h
      dsimp only at h
      cases hr : o'.cls.method? name.lexeme with
      | some method =>
        rw [hr] at h
        obtain ⟨rfl, rfl⟩ := methodValue_inj h
        exact ⟨rfl, hr⟩
      | none =>
        rw [hr] at h
        cases h
  | _ => cases h

end Run

variable {L : Log}

/-- In a good class, the initializers are the methods of that name. -/
theorem Class.Good.isInit_iff {s : Store Value} {c owner : Class} (h : c.Good L s)
    (hd : c.Descends owner) {x : String} {r : Routine} (hr : owner.methods.find? x = some r) :
    r.isInit = true ↔ x = initName := by
  cases h.descends hd with
  | intro hdeclared _ _ =>
    obtain ⟨m, hdeclared⟩ := hdeclared
    cases hdeclared <;>
    · obtain ⟨_, _, _, -, -, -, -, hinit⟩ := Run.find?_methodTable hr
      exact hinit

section

variable {clock : Nat → Float} {room : Option Nat} {fuel : Nat} {sources : List (Style × String)}
  {m m' : Machine} {r : Routine} {o : Object}

namespace Session

/-- What a session binds to an instance is a method of its class. -/
theorem knows_of_binds (h : (log clock room fuel sources).Binds m r o) :
    o.Knows r ∧ ∃ s, o.cls.Good (log clock room fuel sources) s := by
  cases h with
  | property hreach hv heq =>
    obtain ⟨rfl, hr⟩ := Run.getProperty_eq_methodValue heq
    have hget := Reached.begins hreach .get
    have hgood := (Task.Yields.expr hv).good log_lawful hget hget.situated.1 hget.situated.2
    exact ⟨Object.knows_of_method? (.refl _) hr, _, hgood⟩
  | super hreach heq =>
    obtain ⟨hm, Γ, hs⟩ := hreach.situated
    obtain ⟨hmark, d, i, j, p, o', above, hd⟩ := hs.super log_lawful
    obtain ⟨owner, _, _, _, hreceives, habove, -, -⟩ := hs.home hm hd
    rw [hd.superMethod_eq hmark] at heq
    cases hfound : above.method? _ with
    | some found =>
      rw [hfound] at heq
      obtain ⟨rfl, rfl⟩ := Run.methodValue_inj heq
      exact ⟨Object.knows_of_method? (hreceives.descends.trans (.step habove (.refl _))) hfound,
        _, hm.frames j _ _ (Store.get?_receiver hd.receiver)⟩
    | none =>
      rw [hfound] at heq
      cases heq
  | @initializer n c args m₀ _ _ _ hreach hnew hmethod =>
    cases hnew
    exact ⟨Object.knows_of_method? (.refl c) hmethod, _, hreach.situated.2.1⟩

/-- An initializer is called on the instance it was bound to, and returns it. -/
theorem Reached.call_bound {n identity : Nat} {paren : Token} {args : List Value} {m₀ : Machine}
    {v : Value} (hbinds : (log clock room fuel sources).Binds m₀ r o) (hinit : r.isInit = true)
    (h : Reached clock room fuel sources n
      (.call (.function identity { r with frame := m₀.nextFrame }) paren args) m)
    (hcall : Run.call n (.function identity { r with frame := m₀.nextFrame }) paren args m =
      .ok v m') : v = .object o := by
  obtain ⟨i, m₁, rfl, hargs, hm, hinvoke⟩ := Run.call_function_ok hcall
  have hreach := (Reached.begins h (.apply rfl hargs hm)).begins .routine
  obtain ⟨o', hthis, rfl⟩ := hreach.receiver hinit hinvoke
  have hvisits : Visits clock room fuel sources m₁ := Run.after_ok hinvoke ▸ Visits.ends hreach
  rcases (seals_of_binds hbinds).visited m₁ hvisits with hsize | hframe
  · unfold Store.get? at hthis
    rw [Array.getElem?_eq_none hsize] at hthis
    cases hthis
  · exact Option.some.inj (hthis.symm.trans (Store.get?_receiver hframe))

end Session

/-- **What it means to construct.** Take any class, whatever the machine. It takes as many arguments
as the initializer that is nearest in the chain of its superclasses, or none if there is no
initializer. A call with another number of arguments fails, and so does one with too many calls in
progress, before anything is made. Any other call is a construction: the body of that initializer is
run once, on a new instance. A call that succeeds has had the right number of arguments and returns
the new instance, whatever flow the body has come to; its class is the one that was called. None of
the values that a session has had at hand is this instance: neither in a machine with as many
instances as the one in which the call begins nor in one with fewer, and a run never takes instances
away.

And take any function value that a session meets which is an initializer. It is what a class has
under the name of the initializer, bound to an instance, and every call of it that succeeds returns
this instance. What a class has under that name is an initializer, so this holds of it wherever it
is bound. -/
theorem construction_contract (clock : Nat → Float) (room : Option Nat) (fuel : Nat)
    (sources : List (Style × String)) :
    (∀ c : Class, ∃ init?, c.Nearest initName init? ∧ ∀ paren args m,
      (∀ n, args.length ≠ Class.arityOf init? → Run.call (n + 1) (.cls c) paren args m =
        .error (.runtime paren.line (.arity (Class.arityOf init?) args.length)) m) ∧
      (∀ n, args.length = Class.arityOf init? → Machine.mostCalls ≤ m.depth →
        Run.call (n + 1) (.cls c) paren args m = .error (.runtime paren.line .stackOverflow) m) ∧
      (∀ n, args.length = Class.arityOf init? → m.depth < Machine.mostCalls →
        Run.call (n + 3) (.cls c) paren args m = Run.construction n c init? args m) ∧
      (∀ n v m', Run.call n (.cls c) paren args m = .ok v m' →
        args.length = Class.arityOf init? ∧ Run.construction n c init? args m = .ok v m' ∧
          v = .object ⟨m.objects.size, c⟩)) ∧
    (∀ m₀ w, Session.AtHand clock room fuel sources m₀ w → ∀ (m : Machine) (c : Class),
      m₀.objects.size ≤ m.objects.size → w.equals (.object ⟨m.objects.size, c⟩) = false) ∧
    (∀ n t m, Session.Reached clock room fuel sources n t m →
      m.objects.size ≤ (t.after n m).objects.size) ∧
    (∀ identity r, Session.Meets clock room fuel sources (.function identity r) →
      r.isInit = true → ∃ m₀ init o owner,
        (Session.log clock room fuel sources).Binds m₀ init o ∧
        r = { init with frame := m₀.nextFrame } ∧
        o.cls.Descends owner ∧ owner.methods.find? initName = some init ∧
        ∀ n paren args m v m', Session.Reached clock room fuel sources n
            (.call (.function identity r) paren args) m →
          Run.call n (.function identity r) paren args m = .ok v m' → v = .object o) ∧
    (∀ m₀ method o owner, (Session.log clock room fuel sources).Binds m₀ method o →
      o.cls.Descends owner → owner.methods.find? initName = some method →
      method.isInit = true) := by
  refine ⟨fun c => ⟨c.method? initName, c.nearest_method? initName, fun paren args m => ?_⟩,
    fun m₀ w hw m c hle => hw.below.not_equals hle, fun n t m h => (h.placed.after n).1, ?_, ?_⟩
  · refine ⟨fun n hargs => ?_, fun n hargs hm => ?_, fun n hargs hm => ?_, fun n v m' h => ?_⟩
    · rw [Run.call_cls, if_pos hargs]
    · rw [Run.call_cls, if_neg (not_not.2 hargs), if_pos hm]
    · rw [Run.call_cls, if_neg (not_not.2 hargs), if_neg (Nat.not_le_of_lt hm),
        Run.inCall_apply_construct]
    · obtain ⟨hargs, hrun⟩ := Run.call_cls_ok h
      exact ⟨hargs, hrun, Run.construction_ok hrun⟩
  · intro identity r hmeets hinit
    cases hmeets.made with
    | created hcreates => cases hcreates <;> cases hinit
    | @bound m₀ init o hbinds =>
      obtain ⟨⟨owner, x, hdescends, hfound⟩, s, hgood⟩ := Session.knows_of_binds hbinds
      obtain rfl := (hgood.isInit_iff hdescends hfound).1 hinit
      exact ⟨m₀, init, o, owner, hbinds, rfl, hdescends, hfound,
        fun _ _ _ _ _ _ h hcall => h.call_bound hbinds hinit hcall⟩
  · intro m₀ method o owner hbinds hdescends hfound
    obtain ⟨-, s, hgood⟩ := Session.knows_of_binds hbinds
    exact (hgood.isInit_iff hdescends hfound).2 rfl

end

end LoxLang
