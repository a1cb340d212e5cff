import LoxLang.Proofs.Safety.Construction

/-!
# The parts of a task, in order

The tasks that a task begins are its parts (`Task.parts`, `Task.mem_parts_iff`). They are run one
after the other, and between them there are only steps of the machine. So a relation that the steps
of the machine respect holds from the beginning of a task to the beginning of its first part, from
the end of each part to the beginning of the next, and from the end of the last one to the end of
the task (`Task.linked`).
-/

namespace LoxLang

/-- What is begun once a run has come to a result. -/
def Run.onResult {α : Type} (r : Run α) (m : Machine)
    (k : α → Machine → List (Task × Machine)) : List (Task × Machine) :=
  match r m with
  | .ok a m' => k a m'
  | .error _ _ => []

/-- The parts of an expression. -/
def Expr.parts (n : Nat) (m : Machine) : Expr (Option Nat) → List (Task × Machine)
  | .literal _ | .ref _ | .this _ | .super _ _ | .lambda _ _ => []
  | .group e | .unary _ e | .assign _ e | .get e _ => [(.run (.expr e), m)]
  | .binary _ a b =>
    (.run (.expr a), m) :: (Run.evaluate n a).onResult m fun _ m' => [(.run (.expr b), m')]
  | .logical op a b =>
    (.run (.expr a), m) :: (Run.evaluate n a).onResult m fun x m' =>
      if x.isTruthy = (op.kind = .kwOr) then [] else [(.run (.expr b), m')]
  | .call f paren args =>
    (.run (.expr f), m) :: (Run.evaluate n f).onResult m fun callee m' =>
      (.arguments args, m') :: (Run.evaluateAll n args).onResult m' fun values m'' =>
        [(.call callee paren values, m'')]
  | .set e _ e' =>
    (.run (.expr e), m) :: (Run.evaluate n e).onResult m fun v m' =>
      match v with
      | .object _ => [(.run (.expr e'), m')]
      | _ => []

/-- The parts of a statement. A loop that goes on is a part of itself. -/
def Stmt.parts (n : Nat) (m : Machine) : Code → List (Task × Machine)
  | .var _ none | .function _ _ _ | .ret _ none | .classDecl _ _ _ => []
  | .expression e | .print e | .var _ (some e) | .ret _ (some e) => [(.run (.expr e), m)]
  | .block body => [(.run (.stmts body), { m.grow .empty m.frame with frame := m.nextFrame })]
  | .cond test yes no =>
    (.run (.expr test), m) :: (Run.evaluate n test).onResult m fun v m' =>
      if v.isTruthy then [(.run (.stmt yes), m')]
      else no.toList.map fun s => (.run (.stmt s), m')
  | .loop test body =>
    (.run (.expr test), m) :: (Run.evaluate n test).onResult m fun v m' =>
      if v.isTruthy then
        (.run (.stmt body), m') :: (Run.execute n body).onResult m' fun flow m'' =>
          match flow with
          | .proceed => [(.run (.stmt (.loop test body)), m'')]
          | .returned _ => []
      else []

/-- The parts of a call that passes the checks, or of a class that is called. -/
def Callee.parts (m : Machine) (args : List Value) : Callee → List (Task × Machine)
  | .clock => []
  | .routine r => [(.invoke r args, m)]
  | .construct c =>
    let o : Object := ⟨m.objects.size, c⟩
    let m' : Machine := { m with objects := m.objects.push .empty }
    match c.method? initName with
    | none => []
    | some r =>
      [(.invoke { r with frame := m.nextFrame } args,
        m'.grow (.single thisName (.object o)) r.frame)]

/-- The tasks that the task begins on fuel `n + 1` from the machine, in order, each with the machine
in which it begins. -/
def Task.parts (n : Nat) (m : Machine) : Task → List (Task × Machine)
  | .run (.expr e) => e.parts n m
  | .run (.stmt s) => s.parts n m
  | .run (.stmts []) | .arguments [] => []
  | .run (.stmts (s :: ss)) =>
    (.run (.stmt s), m) :: (Run.execute n s).onResult m fun flow m' =>
      match flow with
      | .proceed => [(.run (.stmts ss), m')]
      | .returned _ => []
  | .arguments (e :: es) =>
    (.run (.expr e), m) :: (Run.evaluate n e).onResult m fun _ m' => [(.arguments es, m')]
  | .call f _ args =>
    match f.callee? with
    | none => []
    | some callee =>
      if args.length = callee.arity ∧ m.depth < Machine.mostCalls then
        [(.apply callee args, { m with depth := m.depth + 1 })]
      else []
  | .apply callee args => callee.parts m args
  | .invoke r args => [(.run (.stmts r.body), m.entering r args)]

theorem Run.onResult_ok {α : Type} {r : Run α} {m m' : Machine} {a : α} (h : r m = .ok a m')
    (k : α → Machine → List (Task × Machine)) : r.onResult m k = k a m' := by
  rw [Run.onResult, h]

theorem Run.mem_onResult {α : Type} {r : Run α} {m : Machine}
    {k : α → Machine → List (Task × Machine)} {p : Task × Machine} :
    p ∈ r.onResult m k ↔ ∃ a m', r m = .ok a m' ∧ p ∈ k a m' := by
  unfold Run.onResult
  cases r m with
  | ok a m' =>
    exact ⟨fun h => ⟨a, m', rfl, h⟩, fun ⟨_, _, h, hp⟩ => by cases h; exact hp⟩
  | error e m' => exact ⟨nofun, fun ⟨_, _, h, _⟩ => by cases h⟩

/-- What stands in a list that goes on with the result of a run is its first task, or what follows
the result. -/
theorem Run.mem_cons_onResult {α : Type} {r : Run α} {m : Machine}
    {k : α → Machine → List (Task × Machine)} {p q : Task × Machine} :
    p ∈ q :: r.onResult m k ↔ p = q ∨ ∃ a m', r m = .ok a m' ∧ p ∈ k a m' := by
  rw [List.mem_cons, mem_onResult]

namespace Task

variable {n : Nat} {t t' : Task} {m m' : Machine}

/-- What a task begins is one of its parts. -/
theorem Begins.mem_parts (h : Begins n t m t' m') : (t', m') ∈ t.parts n m := by
  cases h with
  | group | unary | assign | get | expression | print | var | ret | routine =>
    exact List.mem_cons_self
  | binaryLeft | logicalLeft | callee | setObject | argument | statement | condTest | loopTest =>
    exact List.mem_cons_self
  | binaryRight hr | arguments hr | moreArguments hr =>
    exact List.mem_cons_of_mem _ (Run.mem_onResult.2 ⟨_, _, hr, List.mem_cons_self⟩)
  | setValue hr | moreStatements hr =>
    exact List.mem_cons_of_mem _ (Run.mem_onResult.2 ⟨_, _, hr, List.mem_cons_self⟩)
  | logicalRight hr hgoes =>
    refine List.mem_cons_of_mem _ (Run.mem_onResult.2 ⟨_, _, hr, ?_⟩)
    rw [if_neg hgoes]
    exact List.mem_cons_self
  | call hr hrs =>
    refine List.mem_cons_of_mem _ (Run.mem_onResult.2 ⟨_, _, hr, List.mem_cons_of_mem _ ?_⟩)
    exact Run.mem_onResult.2 ⟨_, _, hrs, List.mem_cons_self⟩
  | apply hf hlen hm =>
    dsimp only [parts]
    rw [hf]
    dsimp only
    rw [if_pos ⟨hlen, hm⟩]
    exact List.mem_cons_self
  | initializer hnew hmethod hbound =>
    cases hnew
    cases hbound
    unfold parts Callee.parts
    dsimp only
    rw [hmethod]
    exact List.mem_cons_self
  | body hframe =>
    cases hframe
    exact List.mem_cons_self
  | block hframe =>
    cases hframe
    exact List.mem_cons_self
  | condYes hr hv =>
    refine List.mem_cons_of_mem _ (Run.mem_onResult.2 ⟨_, _, hr, ?_⟩)
    rw [if_pos hv]
    exact List.mem_cons_self
  | condNo hr hv =>
    refine List.mem_cons_of_mem _ (Run.mem_onResult.2 ⟨_, _, hr, ?_⟩)
    rw [if_neg hv]
    exact List.mem_cons_self
  | loopBody hr hv =>
    refine List.mem_cons_of_mem _ (Run.mem_onResult.2 ⟨_, _, hr, ?_⟩)
    rw [if_pos hv]
    exact List.mem_cons_self
  | loopAgain hr hv hbody =>
    refine List.mem_cons_of_mem _ (Run.mem_onResult.2 ⟨_, _, hr, ?_⟩)
    rw [if_pos hv]
    exact List.mem_cons_of_mem _ (Run.mem_onResult.2 ⟨_, _, hbody, List.mem_cons_self⟩)

/-- The parts of an expression are begun when it is evaluated. -/
theorem begins_of_mem_exprParts {e : Expr (Option Nat)} (h : (t', m') ∈ e.parts n m) :
    Begins n (.run (.expr e)) m t' m' := by
  cases e with
  | literal | ref | this | super | lambda => cases h
  | group e | unary op e | assign site e | get e name =>
    cases List.mem_singleton.1 h
    constructor
  | binary op a b =>
    obtain h | ⟨x, m₁, hr, h⟩ := Run.mem_cons_onResult.1 h
    · cases h
      exact .binaryLeft
    · cases List.mem_singleton.1 h
      exact .binaryRight hr
  | logical op a b =>
    obtain h | ⟨x, m₁, hr, h⟩ := Run.mem_cons_onResult.1 h
    · cases h
      exact .logicalLeft
    · split at h
      · cases h
      · next hgoes =>
        cases List.mem_singleton.1 h
        exact .logicalRight hr hgoes
  | call f paren args =>
    obtain h | ⟨callee, m₁, hr, h⟩ := Run.mem_cons_onResult.1 h
    · cases h
      exact .callee
    · obtain h | ⟨values, m₂, hrs, h⟩ := Run.mem_cons_onResult.1 h
      · cases h
        exact .arguments hr
      · cases List.mem_singleton.1 h
        exact .call hr hrs
  | set e name e' =>
    obtain h | ⟨v, m₁, hr, h⟩ := Run.mem_cons_onResult.1 h
    · cases h
      exact .setObject
    · cases v with
      | object o =>
        cases List.mem_singleton.1 h
        exact .setValue hr
      | _ => cases h

/-- The parts of a statement are begun when it is executed. -/
theorem begins_of_mem_stmtParts {s : Code} (h : (t', m') ∈ s.parts n m) :
    Begins n (.run (.stmt s)) m t' m' := by
  cases s with
  | function | classDecl => cases h
  | expression e | print e =>
    cases List.mem_singleton.1 h
    constructor
  | var name init =>
    cases init with
    | none => cases h
    | some e =>
      cases List.mem_singleton.1 h
      exact .var
  | ret keyword value =>
    cases value with
    | none => cases h
    | some e =>
      cases List.mem_singleton.1 h
      exact .ret
  | block body =>
    cases List.mem_singleton.1 h
    exact .block rfl
  | cond test yes no =>
    obtain h | ⟨v, m₁, hr, h⟩ := Run.mem_cons_onResult.1 h
    · cases h
      exact .condTest
    · split at h
      · next hv =>
        cases List.mem_singleton.1 h
        exact .condYes hr hv
      · next hv =>
        cases no with
        | none => cases h
        | some no =>
          cases List.mem_singleton.1 h
          exact .condNo hr hv
  | loop test body =>
    obtain h | ⟨v, m₁, hr, h⟩ := Run.mem_cons_onResult.1 h
    · cases h
      exact .loopTest
    · split at h
      · next hv =>
        obtain h | ⟨flow, m₂, hbody, h⟩ := Run.mem_cons_onResult.1 h
        · cases h
          exact .loopBody hr hv
        · cases flow with
          | proceed =>
            cases List.mem_singleton.1 h
            exact .loopAgain hr hv hbody
          | returned w => cases h
      · cases h

/-- The part of what is called is begun when it is applied. -/
theorem begins_of_mem_calleeParts {callee : Callee} {args : List Value}
    (h : (t', m') ∈ callee.parts m args) : Begins n (.apply callee args) m t' m' := by
  cases callee with
  | clock => cases h
  | routine r =>
    cases List.mem_singleton.1 h
    exact .routine
  | construct c =>
    dsimp only [Callee.parts] at h
    split at h
    · cases h
    · next r hr =>
      cases List.mem_singleton.1 h
      exact .initializer rfl hr rfl

/-- The parts of a task are the tasks that it begins. -/
theorem mem_parts_iff : (t', m') ∈ t.parts n m ↔ Begins n t m t' m' := by
  refine ⟨fun h => ?_, Begins.mem_parts⟩
  cases t with
  | run node =>
    cases node with
    | expr e => exact begins_of_mem_exprParts h
    | stmt s => exact begins_of_mem_stmtParts h
    | stmts ss =>
      cases ss with
      | nil => cases h
      | cons s ss =>
        obtain h | ⟨flow, m₁, hr, h⟩ := Run.mem_cons_onResult.1 h
        · cases h
          exact .statement
        · cases flow with
          | proceed =>
            cases List.mem_singleton.1 h
            exact .moreStatements hr
          | returned v => cases h
  | arguments es =>
    cases es with
    | nil => cases h
    | cons e es =>
      obtain h | ⟨v, m₁, hr, h⟩ := Run.mem_cons_onResult.1 h
      · cases h
        exact .argument
      · cases List.mem_singleton.1 h
        exact .moreArguments hr
  | call f paren args =>
    dsimp only [parts] at h
    split at h
    · cases h
    · next callee hf =>
      split at h
      · next hchecks =>
        cases List.mem_singleton.1 h
        exact .apply hf hchecks.1 hchecks.2
      · cases h
  | apply callee args => exact begins_of_mem_calleeParts h
  | invoke r args =>
    cases List.mem_singleton.1 h
    exact .body rfl

end Task

/-! ## Between the parts -/

/-- The machines have the same frames, instances and identities. -/
structure Machine.SameData (m m' : Machine) : Prop where
  store : m'.store = m.store
  objects : m'.objects = m.objects
  identities : m'.identities = m.identities

theorem Machine.SameData.refl (m : Machine) : m.SameData m := ⟨rfl, rfl, rfl⟩

theorem Machine.SameData.write (m : Machine) (bytes : ByteArray) : m.SameData (m.write bytes) := by
  unfold Machine.write
  split <;> exact ⟨rfl, rfl, rfl⟩

/-- A relation between machines that depends on their data alone and that the steps which create
something or give a name a value respect. -/
structure Machine.Timely (R : Machine → Machine → Prop) : Prop where
  same : ∀ {m m'}, m.SameData m' → R m m'
  trans : ∀ {m₁ m₂ m₃}, R m₁ m₂ → R m₂ m₃ → R m₁ m₃
  create : ∀ m names parent, R m (m.grow names parent)
  define : ∀ m frame name value, R m (m.put frame name value)
  newIdentity : ∀ m, R m { m with identities := m.identities + 1 }
  newObject : ∀ m, R m { m with objects := m.objects.push .empty }

/-- A relation between machines that depends on their data alone and that the steps which create
something or give a name a value respect, provided that frames are created only inside frames that
`C` allows. -/
structure Machine.TimelyIn (C : Machine → Nat → Prop) (R : Machine → Machine → Prop) : Prop where
  same : ∀ {m m'}, m.SameData m' → R m m'
  trans : ∀ {m₁ m₂ m₃}, R m₁ m₂ → R m₂ m₃ → R m₁ m₃
  create : ∀ m names parent, C m parent → R m (m.grow names parent)
  define : ∀ m frame name value, R m (m.put frame name value)
  newIdentity : ∀ m, R m { m with identities := m.identities + 1 }
  newObject : ∀ m, R m { m with objects := m.objects.push .empty }

namespace Machine.Timely

variable {R : Machine → Machine → Prop}

theorem refl (hR : Timely R) (m : Machine) : R m m := hR.same (.refl m)

/-- Frames may be created inside any frame. -/
theorem timelyIn (hR : Timely R) : TimelyIn (fun _ _ => True) R :=
  ⟨hR.same, hR.trans, fun m names parent _ => hR.create m names parent, hR.define, hR.newIdentity,
    hR.newObject⟩

/-- If fields may be set as well, then no run leaves the relation. -/
theorem closed (hR : Timely R)
    (hset : ∀ m address f, R m { m with objects := m.objects.modify address f }) :
    Machine.Closed R where
  refl := hR.refl
  trans := hR.trans
  create := hR.create
  define := hR.define
  newIdentity := hR.newIdentity
  newObject := hR.newObject
  setField := hset
  write m bytes := hR.same (.write m bytes)
  tick _ := hR.same ⟨rfl, rfl, rfl⟩
  inFrame {m m' frame} h := by
    have hin : R m { m with frame := frame } := hR.same ⟨rfl, rfl, rfl⟩
    exact hR.trans (hR.trans hin h) (hR.same ⟨rfl, rfl, rfl⟩)
  inCall {m m'} h := by
    have hin : R m { m with depth := m.depth + 1 } := hR.same ⟨rfl, rfl, rfl⟩
    exact hR.trans (hR.trans hin h) (hR.same ⟨rfl, rfl, rfl⟩)

end Machine.Timely

/-- What follows the first part of a run leads on from what the first part has left. -/
theorem Run.onward {R : Machine → Machine → Prop} (hR : ∀ m, R m m) {α β : Type} {m : Machine}
    {r : Run α} {k : α → Run β} (hk : ∀ a m₁, r m = .ok a m₁ → R m₁ ((k a).after m₁)) :
    R (r.after m) ((r >>= k).after m) := by
  rcases hr : r m with ⟨a, m₁⟩ | ⟨e, m₁⟩
  · rw [after_bind_ok hr, after_ok hr]
    exact hk a m₁ hr
  · rw [after_error (bind_error hr), after_error hr]
    exact hR m₁

namespace Machine.TimelyIn

variable {C : Machine → Nat → Prop} {R : Machine → Machine → Prop} {α β : Type} {m : Machine}

theorem refl (hR : TimelyIn C R) (m : Machine) : R m m := hR.same (.refl m)

theorem bind (hR : TimelyIn C R) {r : Run α} {k : α → Run β} (h : R m (r.after m))
    (hk : ∀ a m₁, r m = .ok a m₁ → R m₁ ((k a).after m₁)) : R m ((r >>= k).after m) :=
  hR.trans h (Run.onward hR.refl hk)

/-- Leaving a frame does not touch the data. -/
theorem leaveFrame (hR : TimelyIn C R) (frame : Nat) (r : Run α) :
    R (r.after { m with frame := frame }) ((Run.inFrame frame r).after m) := by
  unfold Run.after Run.inFrame
  dsimp only
  cases r { m with frame := frame } <;> exact hR.same ⟨rfl, rfl, rfl⟩

/-- Leaving a call does not touch the data. -/
theorem leaveCall (hR : TimelyIn C R) (r : Run α) :
    R (r.after { m with depth := m.depth + 1 }) ((Run.inCall r).after m) := by
  unfold Run.after Run.inCall
  cases r { m with depth := m.depth + 1 } <;> exact hR.same ⟨rfl, rfl, rfl⟩

theorem check (hR : TimelyIn C R) (op : Token) (x : Except RuntimeCause α) :
    R m ((Run.check op x).after m) := by
  cases x <;> exact hR.refl m

theorem lookUp (hR : TimelyIn C R) (site : Site (Option Nat)) :
    R m ((Run.lookUp site).after m) := by
  rw [Run.after, Run.lookUp_eq]
  cases m.value? site <;> exact hR.refl m

theorem assign (hR : TimelyIn C R) (site : Site (Option Nat)) (v : Value) :
    R m ((Run.assign site v).after m) := by
  rw [Run.after, Run.assign_eq]
  cases m.target? site with
  | none => exact hR.refl m
  | some frame => exact hR.define m frame _ v

theorem printLine (hR : TimelyIn C R) (text : String) : R m ((Run.printLine text).after m) := by
  rw [Run.after, Run.printLine_eq]
  split_ifs <;> exact hR.same (.write m _)

/-- The frame of a receiver is created inside the one that the method closes over. -/
theorem methodValue (hR : TimelyIn C R) {r : Routine} (hr : C m r.frame) (o : Object) :
    R m ((Run.methodValue r o).after m) :=
  hR.trans (hR.create m (.single thisName (.object o)) r.frame hr) (hR.newIdentity _)

theorem getProperty (hR : TimelyIn C R) {v : Value} {name : Token}
    (hmethod : ∀ o r, v = .object o → o.cls.method? name.lexeme = some r → C m r.frame) :
    R m ((Run.getProperty v name).after m) := by
  cases v with
  | object o =>
    refine hR.bind (r := get) (hR.refl m) fun m' m₁ hm => ?_
    cases hm
    split
    · exact hR.refl m
    · split
      · next r hr => exact hR.methodValue (hmethod o r rfl hr) o
      · exact hR.refl m
  | _ => exact hR.refl m

theorem superMethod (hR : TimelyIn C R) {site : Site (Option Nat)} {method : Token}
    (hmethod : ∀ d c r, site.mark = some d →
      m.store.readAt? d m.frame superName = some (.cls c) → c.method? method.lexeme = some r →
      C m r.frame) :
    R m ((Run.superMethod site method).after m) := by
  unfold Run.superMethod
  split
  · exact hR.refl m
  · next d hd =>
    refine hR.bind (r := get) (hR.refl m) fun m' m₁ hm => ?_
    cases hm
    split
    · next c hc =>
      dsimp only
      split
      · split
        · next r hr => exact hR.methodValue (hmethod d c r hd hc hr) _
        · exact hR.refl m
      · exact hR.refl m
    · exact hR.refl m

/-- The frame of a superclass is created inside the one in which the class is declared. -/
theorem declareClass (hR : TimelyIn C R) (name : Token)
    (superclass : Option (Site (Option Nat))) (methods : List (Method (Option Nat)))
    (hm : C m m.frame) : R m ((Run.declareClass name superclass methods).after m) := by
  rw [Run.declareClass_eq]
  refine hR.bind ?_ fun above m₁ habove => hR.bind ?_ fun frame m₂ _ => ?_
  · cases superclass with
    | none => exact hR.refl m
    | some site =>
      refine hR.bind (hR.lookUp site) fun v m₁ _ => ?_
      cases v <;> exact hR.refl m₁
  · cases superclass with
    | none =>
      cases habove
      exact hR.refl m
    | some site =>
      obtain ⟨c, rfl, rfl, -⟩ := Run.superclassOf_ok habove
      exact hR.create m₁ _ m₁.frame hm
  · exact hR.bind (r := Run.newIdentity) (hR.newIdentity m₂) fun _ m₃ _ => hR.define m₃ _ _ _

end Machine.TimelyIn

/-- A task respects a relation that the steps of a run cannot leave. -/
theorem Task.respects {R : Machine → Machine → Prop} (hR : Machine.Closed R) (n : Nat)
    (m : Machine) (t : Task) : R m (t.after n m) := by
  have hn := Run.respectsOn hR n
  cases t with
  | run node =>
    cases node with
    | expr e => exact hn.evaluate e m
    | stmt s => exact hn.execute s m
    | stmts ss => exact hn.executeAll ss m
  | arguments es => exact hn.evaluateAll es m
  | call f paren args => exact hn.call f paren args m
  | apply callee args => exact hn.apply callee args m
  | invoke r args => exact hn.invoke r args m

/-- Without fuel nothing happens. -/
theorem Task.after_zero (m : Machine) (t : Task) : t.after 0 m = m := by
  cases t with
  | run node => cases node <;> rfl
  | _ => rfl

/-- The frames that a task itself creates between its parts are created inside frames that `C`
allows: the frame of a receiver inside the one that the method closes over, and so is that of a
call; the frames of a block and of a superclass inside the current one. -/
def Task.CreatesIn (C : Machine → Nat → Prop) (n : Nat) (m : Machine) : Task → Prop
  | .run (.expr (.get e name)) => ∀ o m₁ r, Run.evaluate n e m = .ok (.object o) m₁ →
      o.cls.method? name.lexeme = some r → C m₁ r.frame
  | .run (.expr (.super site method)) => ∀ d c r, site.mark = some d →
      m.store.readAt? d m.frame superName = some (.cls c) → c.method? method.lexeme = some r →
      C m r.frame
  | .run (.stmt (.block _)) | .run (.stmt (.classDecl _ _ _)) => C m m.frame
  | .apply (.construct c) _ => ∀ r, c.method? initName = some r →
      C { m with objects := m.objects.push .empty } r.frame
  | .invoke r _ => C m r.frame
  | _ => True

/-- The relation holds from the first machine to the beginning of the first of the tasks, from the
end of each to the beginning of the next, and from the end of the last to the second machine. -/
def Task.Linked (R : Machine → Machine → Prop) (n : Nat) :
    Machine → List (Task × Machine) → Machine → Prop
  | m, [], m' => R m m'
  | m, (t, m₁) :: ps, m' => R m m₁ ∧ Linked R n (t.after n m₁) ps m'

namespace Task

variable {C : Machine → Nat → Prop} {R : Machine → Machine → Prop} {α β : Type} {n : Nat} {t : Task}
  {m : Machine}

/-- A run that begins with a part goes on with what follows its result. -/
theorem Linked.first (hR : ∀ m, R m m) {r : Run α} {k : α → Run β}
    {ps : α → Machine → List (Task × Machine)} (ht : t.after n m = r.after m)
    (hk : ∀ a m₁, r m = .ok a m₁ → Linked R n m₁ (ps a m₁) ((k a).after m₁)) :
    Linked R n m ((t, m) :: r.onResult m ps) ((r >>= k).after m) := by
  refine ⟨hR m, ?_⟩
  rw [ht]
  rcases hr : r m with ⟨a, m₁⟩ | ⟨e, m₁⟩
  · rw [Run.onResult_ok hr, Run.after_ok hr, Run.after_bind_ok hr]
    exact hk a m₁ hr
  · rw [Run.onResult, hr, Run.after_error hr, Run.after_error (Run.bind_error hr)]
    exact hR m₁

/-- A run that begins with its last part. -/
theorem Linked.last (hR : ∀ m, R m m) {r : Run α} {k : α → Run β}
    (ht : t.after n m = r.after m) (hk : ∀ a m₁, r m = .ok a m₁ → R m₁ ((k a).after m₁)) :
    Linked R n m [(t, m)] ((r >>= k).after m) := by
  refine ⟨hR m, ?_⟩
  rw [ht]
  exact Run.onward hR hk

/-- A run that is its only part. -/
theorem Linked.only (hR : ∀ m, R m m) : Linked R n m [(t, m)] (t.after n m) :=
  ⟨hR m, hR _⟩

/-- The last step of the assignment to a field is the one that sets it. -/
theorem linkedIn_expr {e : Expr (Option Nat)} (hR : Machine.TimelyIn C R)
    (he : CreatesIn C n m (.run (.expr e)))
    (hset : ∀ e₁ name e₂, e = .set e₁ name e₂ → ∀ m address f,
      R m { m with objects := m.objects.modify address f }) :
    Linked R n m (e.parts n m) ((Run.evaluate (n + 1) e).after m) := by
  cases e with
  | literal => exact hR.refl m
  | ref site | this site => exact hR.lookUp site
  | super site method => exact hR.superMethod he
  | lambda params body => exact hR.newIdentity m
  | group e => exact .only (t := .run (.expr e)) hR.refl
  | unary op e => exact .last hR.refl rfl fun v m₁ _ => hR.check op _
  | binary op a b =>
    exact .first hR.refl rfl fun x m₁ _ => .last hR.refl rfl fun y m₂ _ => hR.check op _
  | logical op a b =>
    refine .first hR.refl rfl fun x m₁ _ => ?_
    split
    · exact hR.refl m₁
    · exact .only (t := .run (.expr b)) hR.refl
  | assign site e =>
    refine .last hR.refl rfl fun v m₁ _ => ?_
    exact hR.bind (hR.assign site v) fun _ m₂ _ => hR.refl m₂
  | call f paren args =>
    refine .first hR.refl rfl fun callee m₁ _ => .first hR.refl rfl fun values m₂ _ => ?_
    exact .only (t := .call callee paren values) hR.refl
  | get e name => exact .last hR.refl rfl fun v m₁ hv =>
      hR.getProperty fun o r ho hr => he o m₁ r (ho ▸ hv) hr
  | set e name e' =>
    refine .first hR.refl rfl fun v m₁ _ => ?_
    cases v with
    | object o =>
      refine .last hR.refl rfl fun w m₂ _ => ?_
      exact hset e name e' rfl m₂ o.address _
    | _ => exact hR.refl m₁

theorem linkedIn_stmt {s : Code} (hR : Machine.TimelyIn C R)
    (hs : CreatesIn C n m (.run (.stmt s))) :
    Linked R n m (s.parts n m) ((Run.execute (n + 1) s).after m) := by
  cases s with
  | expression e => exact .last hR.refl rfl fun v m₁ _ => hR.refl m₁
  | print e =>
    refine .last hR.refl rfl fun v m₁ _ => ?_
    exact hR.bind (hR.printLine v.text) fun _ m₂ _ => hR.refl m₂
  | var name init =>
    cases init with
    | none => exact hR.define m m.frame name.lexeme .nil
    | some e => exact .last hR.refl rfl fun v m₁ _ => hR.define m₁ m₁.frame name.lexeme v
  | block body =>
    refine ⟨hR.trans (hR.create m .empty m.frame hs) (hR.same ⟨rfl, rfl, rfl⟩), ?_⟩
    exact hR.leaveFrame (m := m.grow .empty m.frame) m.nextFrame (Run.executeAll n body)
  | cond test yes no =>
    refine .first hR.refl rfl fun v m₁ _ => ?_
    split
    · exact .only (t := .run (.stmt yes)) hR.refl
    · cases no with
      | none => exact hR.refl m₁
      | some no => exact .only (t := .run (.stmt no)) hR.refl
  | loop test body =>
    refine .first hR.refl rfl fun v m₁ _ => ?_
    split
    · refine .first hR.refl rfl fun flow m₂ _ => ?_
      cases flow with
      | proceed => exact .only (t := .run (.stmt (.loop test body))) hR.refl
      | returned w => exact hR.refl m₂
    · exact hR.refl m₁
  | function name params body =>
    exact hR.trans (hR.newIdentity m) (hR.define _ m.frame name.lexeme _)
  | ret keyword value =>
    cases value with
    | none => exact hR.refl m
    | some e => exact .last hR.refl rfl fun v m₁ _ => hR.refl m₁
  | classDecl name superclass methods =>
    exact hR.bind (hR.declareClass name superclass methods hs) fun _ m₁ _ => hR.refl m₁

/-- Leaving a call that passes the checks does not touch the data, and one that does not pass them
does nothing. -/
theorem linkedIn_call (hR : Machine.TimelyIn C R) (f : Value) (paren : Token)
    (args : List Value) :
    Linked R n m (parts n m (.call f paren args)) ((Run.call (n + 1) f paren args).after m) := by
  change Linked R n m (match f.callee? with | none => [] | some callee => _) _
  unfold Run.call
  cases f.callee? with
  | none => exact hR.refl m
  | some callee =>
    dsimp only
    by_cases hlen : args.length = callee.arity
    · rw [if_neg (not_not.2 hlen)]
      change Linked R n m _ (Run.after (if _ then _ else _) m)
      by_cases hm : m.depth < Machine.mostCalls
      · rw [if_pos ⟨hlen, hm⟩, if_neg (Nat.not_le_of_lt hm)]
        exact ⟨hR.same ⟨rfl, rfl, rfl⟩, hR.leaveCall (Run.apply n callee args)⟩
      · rw [if_neg fun h => hm h.2, if_pos (Nat.le_of_not_lt hm)]
        exact hR.refl m
    · rw [if_pos hlen, if_neg fun h => hlen h.1]
      exact hR.refl m

theorem linkedIn_callee {callee : Callee} {args : List Value} (hR : Machine.TimelyIn C R)
    (hcallee : CreatesIn C n m (.apply callee args)) :
    Linked R n m (callee.parts m args) ((Run.apply (n + 1) callee args).after m) := by
  cases callee with
  | clock => exact hR.same ⟨rfl, rfl, rfl⟩
  | routine r => exact .only (t := .invoke r args) hR.refl
  | construct c =>
    let o : Object := ⟨m.objects.size, c⟩
    let m' : Machine := { m with objects := m.objects.push .empty }
    change Linked R n m (match c.method? initName with | none => [] | some r => _)
      (Run.after (match c.method? initName with | none => _ | some method => _) m')
    cases hr : c.method? initName with
    | none => exact hR.newObject m
    | some r =>
      refine ⟨hR.trans (hR.newObject m) (hR.create m' _ r.frame (hcallee r hr)), ?_⟩
      exact Run.onward hR.refl (m := m'.grow (.single thisName (.object o)) r.frame)
        (r := Run.invoke n { r with frame := m.nextFrame } args) fun v m₂ _ => hR.refl m₂

variable {t' : Task}

/-- **Between the parts of a task there are only steps of the machine.** -/
theorem linkedIn (hR : Machine.TimelyIn C R) (ht : t.CreatesIn C n m)
    (hset : ∀ e name e', t = .run (.expr (.set e name e')) → ∀ m address f,
      R m { m with objects := m.objects.modify address f }) :
    Linked R n m (t.parts n m) (t.after (n + 1) m) := by
  cases t with
  | run node =>
    cases node with
    | expr e => exact linkedIn_expr hR ht fun e₁ name e₂ he => hset e₁ name e₂ (he ▸ rfl)
    | stmt s => exact linkedIn_stmt hR ht
    | stmts ss =>
      cases ss with
      | nil => exact hR.refl m
      | cons s ss =>
        refine .first hR.refl rfl fun flow m₁ _ => ?_
        cases flow with
        | proceed => exact .only hR.refl
        | returned v => exact hR.refl m₁
  | arguments es =>
    cases es with
    | nil => exact hR.refl m
    | cons e es =>
      exact .first hR.refl rfl fun v m₁ _ => .last hR.refl rfl fun vs m₂ _ => hR.refl m₂
  | call f paren args => exact linkedIn_call hR f paren args
  | apply callee args => exact linkedIn_callee hR ht
  | invoke r args =>
    refine ⟨hR.trans (hR.create m _ r.frame ht) (hR.same ⟨rfl, rfl, rfl⟩), ?_⟩
    change R ((Run.executeAll n r.body).after (m.entering r args))
      ((Run.invoke (n + 1) r args).after m)
    unfold Run.after
    rw [Run.invoke_eq]
    cases Run.executeAll n r.body (m.entering r args) <;> exact hR.same ⟨rfl, rfl, rfl⟩

/-- A relation that does not mind inside which frames others are created holds between the parts of
every task. -/
theorem linked (hR : Machine.Timely R)
    (hset : ∀ e name e', t = .run (.expr (.set e name e')) → ∀ m address f,
      R m { m with objects := m.objects.modify address f }) :
    Linked R n m (t.parts n m) (t.after (n + 1) m) := by
  refine linkedIn hR.timelyIn ?_ hset
  unfold CreatesIn
  split <;> simp only [implies_true]

/-- The tasks of a chain that stand before one of them lead to its beginning. -/
theorem Linked.before {earlier later : List (Task × Machine)} {m₁ m' : Machine}
    (h : Linked R n m (earlier ++ (t, m₁) :: later) m') : Linked R n m earlier m₁ := by
  induction earlier generalizing m with
  | nil => exact h.1
  | cons p earlier ih => exact ⟨h.1, ih h.2⟩

/-- The tasks that stand behind it lead on from its end. -/
theorem Linked.behind {earlier later : List (Task × Machine)} {m₁ m' : Machine}
    (h : Linked R n m (earlier ++ (t, m₁) :: later) m') : Linked R n (t.after n m₁) later m' := by
  induction earlier generalizing m with
  | nil => exact h.2
  | cons p earlier ih => exact ih h.2

/-- A relation that no run leaves holds all along a chain of tasks. -/
theorem Linked.through (hR : Machine.Closed R) {ps : List (Task × Machine)} {m' : Machine}
    (h : Linked R n m ps m') : R m m' := by
  induction ps generalizing m with
  | nil => exact h
  | cons p ps ih => exact hR.trans h.1 (hR.trans (respects hR n p.2 p.1) (ih h.2))

/-- A task that is begun begins after the one that begins it, and ends before it. -/
theorem Begins.within {m' : Machine} (hR : Machine.Timely R)
    (hset : ∀ m address f, R m { m with objects := m.objects.modify address f })
    (h : Begins n t m t' m') : R m m' ∧ R (t'.after n m') (t.after (n + 1) m) := by
  obtain ⟨earlier, later, hparts⟩ := List.append_of_mem h.mem_parts
  have hlinked : Linked R n m (earlier ++ (t', m') :: later) (t.after (n + 1) m) :=
    hparts ▸ linked hR fun _ _ _ _ => hset
  have hclosed := hR.closed hset
  exact ⟨hlinked.before.through hclosed, hlinked.behind.through hclosed⟩

end Task

end LoxLang
