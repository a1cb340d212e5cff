import LoxLang.Proofs.Run.Step
import Mathlib.Tactic.SplitIfs

/-!
# What holds of every run

All runs are put together from a few steps: they create a frame, give a name or a field a value,
make an object or an identity, look a name up, print, read the clock, enter a frame or a call, go on
with a result and fail. A relation of runs that the steps have and that is kept where runs are put
together (`Run.Congruence`) relates all evaluation to the same evaluation on more fuel
(`Run.Congruence.relatesOn`), by one induction on the fuel. A property of single runs that the steps
have (`Run.Compositional`) is the case of a relation that looks at one of the two runs; it holds of
all evaluation (`Run.Compositional.holdsOn`). So a fact about all runs is proved by looking at the
steps alone.
-/

namespace LoxLang

namespace Run

variable {α β : Type}

/-- What goes on with a machine looks neither at its output nor at the room for it. -/
def Unobserving (k : Machine → Run β) : Prop :=
  ∀ m printed room, k { m with printed := printed, room := room } = k m

/-- A relation of runs that the steps of the machine have and that is kept where runs are put
together. The second run has at least the fuel of the first. -/
structure Congruence (R : {α : Type} → Run α → Run α → Prop) : Prop where
  pure : ∀ {α : Type} (a : α), R (pure a) (pure a)
  throw : ∀ {α : Type} (e : Fault), R (throw e : Run α) (throw e)
  outOfFuel : ∀ {α : Type} (r : Run α), R outOfFuel r
  bind : ∀ {α β : Type} {r r' : Run α} {k k' : α → Run β}, R r r' → (∀ a, R (k a) (k' a)) →
    R (r >>= k) (r' >>= k')
  get : ∀ {β : Type} {k k' : Machine → Run β}, Unobserving k → Unobserving k' →
    (∀ m, R (k m) (k' m)) → R (MonadState.get >>= k) (MonadState.get >>= k')
  createFrame : ∀ names parent, R (createFrame names parent) (createFrame names parent)
  newIdentity : R newIdentity newIdentity
  define : ∀ name v, R (define name v) (define name v)
  lookUp : ∀ site, R (lookUp site) (lookUp site)
  assign : ∀ site v, R (assign site v) (assign site v)
  printLine : ∀ text, R (printLine text) (printLine text)
  readClock : R readClock readClock
  newObject : ∀ c, R (newObject c) (newObject c)
  setField : ∀ o name v, R (setField o name v) (setField o name v)
  inFrame : ∀ {α : Type} {r r' : Run α} (frame : Nat), R r r' →
    R (inFrame frame r) (inFrame frame r')
  inCall : ∀ {α : Type} {r r' : Run α}, R r r' → R (inCall r) (inCall r')

namespace Congruence

variable {R : {α : Type} → Run α → Run α → Prop} (h : Congruence R)

include h

/-! ## Composite steps -/

theorem fail (t : Token) (cause : RuntimeCause) :
    R (Run.fail t cause : Run α) (Run.fail t cause) := h.throw _

theorem check (t : Token) (x : Except RuntimeCause α) : R (Run.check t x) (Run.check t x) := by
  cases x with
  | ok a => exact h.pure a
  | error cause => exact h.fail t cause

theorem receiver (frame : Nat) : R (Run.receiver frame) (Run.receiver frame) :=
  h.get (fun _ _ _ => rfl) (fun _ _ _ => rfl) fun _ => h.pure _

theorem newFunction (name : Option String) (params : List Token) (body : List Code) :
    R (Run.newFunction name params body) (Run.newFunction name params body) :=
  h.bind h.newIdentity fun _ => h.get (fun _ _ _ => rfl) (fun _ _ _ => rfl) fun _ => h.pure _

theorem bindMethod (method : Routine) (o : Object) :
    R (Run.bindMethod method o) (Run.bindMethod method o) :=
  h.bind (h.createFrame _ _) fun _ => h.pure _

theorem methodValue (method : Routine) (o : Object) :
    R (Run.methodValue method o) (Run.methodValue method o) :=
  h.bind (h.bindMethod method o) fun _ => h.bind h.newIdentity fun _ => h.pure _

theorem getProperty (v : Value) (name : Token) :
    R (Run.getProperty v name) (Run.getProperty v name) := by
  cases v with
  | object o =>
    refine h.get (fun _ _ _ => rfl) (fun _ _ _ => rfl) fun m => ?_
    split
    · exact h.pure _
    · split
      · exact h.methodValue _ o
      · exact h.fail _ _
  | _ => exact h.fail _ _

theorem superMethod (site : Site (Option Nat)) (method : Token) :
    R (Run.superMethod site method) (Run.superMethod site method) := by
  unfold Run.superMethod
  split
  · exact h.fail _ _
  · refine h.get (fun _ _ _ => rfl) (fun _ _ _ => rfl) fun m => ?_
    split
    · dsimp only
      split
      · split
        · exact h.methodValue _ _
        · exact h.fail _ _
      · exact h.fail _ _
    · exact h.fail _ _

theorem superclassOf (superclass : Option (Site (Option Nat))) :
    R (Run.superclassOf superclass) (Run.superclassOf superclass) := by
  cases superclass with
  | none => exact h.pure _
  | some site =>
    refine h.bind (h.lookUp site) fun v => ?_
    split
    · exact h.pure _
    · exact h.fail _ _

theorem methodFrame (above : Option Class) : R (Run.methodFrame above) (Run.methodFrame above) := by
  cases above with
  | none => exact h.get (fun _ _ _ => rfl) (fun _ _ _ => rfl) fun _ => h.pure _
  | some c => exact h.get (fun _ _ _ => rfl) (fun _ _ _ => rfl) fun _ => h.createFrame _ _

theorem declareClass (name : Token) (superclass : Option (Site (Option Nat)))
    (methods : List (Method (Option Nat))) :
    R (Run.declareClass name superclass methods) (Run.declareClass name superclass methods) := by
  rw [declareClass_eq]
  refine h.bind (h.superclassOf superclass) fun above => ?_
  refine h.bind (h.methodFrame above) fun frame => ?_
  exact h.bind h.newIdentity fun identity => h.define _ _

end Congruence

/-! ## Evaluation -/

/-- All that runs on the fuel `n` is related to what runs on the fuel `m`. -/
structure RelatesOn (R : {α : Type} → Run α → Run α → Prop) (n m : Nat) : Prop where
  evaluate : ∀ e, R (evaluate n e) (evaluate m e)
  evaluateAll : ∀ es, R (evaluateAll n es) (evaluateAll m es)
  call : ∀ f paren args, R (call n f paren args) (call m f paren args)
  apply : ∀ callee args, R (apply n callee args) (apply m callee args)
  invoke : ∀ r args, R (invoke n r args) (invoke m r args)
  executeAll : ∀ ss, R (executeAll n ss) (executeAll m ss)
  execute : ∀ s, R (execute n s) (execute m s)

namespace RelatesOn

variable {R : {α : Type} → Run α → Run α → Prop} {n m : Nat}

theorem evaluate_succ (h : Congruence R) (ih : RelatesOn R n m) (e : Expr (Option Nat)) :
    R (Run.evaluate (n + 1) e) (Run.evaluate (m + 1) e) := by
  cases e with
  | literal v => exact h.pure _
  | group e => exact ih.evaluate e
  | unary op e => exact h.bind (ih.evaluate e) fun v => h.check op _
  | binary op a b =>
    exact h.bind (ih.evaluate a) fun x => h.bind (ih.evaluate b) fun y => h.check op _
  | logical op a b =>
    refine h.bind (ih.evaluate a) fun x => ?_
    split
    · exact h.pure x
    · exact ih.evaluate b
  | ref site => exact h.lookUp site
  | this site => exact h.lookUp site
  | assign site e =>
    exact h.bind (ih.evaluate e) fun v => h.bind (h.assign site v) fun _ => h.pure v
  | call f paren args =>
    refine h.bind (ih.evaluate f) fun callee => ?_
    exact h.bind (ih.evaluateAll args) fun values => ih.call callee paren values
  | get e name => exact h.bind (ih.evaluate e) fun v => h.getProperty v name
  | set e name e' =>
    refine h.bind (ih.evaluate e) fun v => ?_
    split
    · refine h.bind (ih.evaluate e') fun w => ?_
      exact h.bind (h.setField _ _ w) fun _ => h.pure w
    · exact h.fail _ _
  | super site method => exact h.superMethod site method
  | lambda params body => exact h.newFunction none params body

theorem evaluateAll_succ (h : Congruence R) (ih : RelatesOn R n m)
    (es : List (Expr (Option Nat))) :
    R (Run.evaluateAll (n + 1) es) (Run.evaluateAll (m + 1) es) := by
  cases es with
  | nil => exact h.pure _
  | cons e es =>
    exact h.bind (ih.evaluate e) fun v => h.bind (ih.evaluateAll es) fun vs => h.pure _

theorem call_succ (h : Congruence R) (ih : RelatesOn R n m) (f : Value) (paren : Token)
    (args : List Value) : R (Run.call (n + 1) f paren args) (Run.call (m + 1) f paren args) := by
  unfold Run.call
  split
  · exact h.fail _ _
  · split
    · exact h.fail _ _
    · refine h.get (fun _ _ _ => rfl) (fun _ _ _ => rfl) fun m => ?_
      split
      · exact h.fail _ _
      · exact h.inCall (ih.apply _ args)

theorem apply_succ (h : Congruence R) (ih : RelatesOn R n m) (callee : Callee)
    (args : List Value) : R (Run.apply (n + 1) callee args) (Run.apply (m + 1) callee args) := by
  cases callee with
  | clock => exact h.readClock
  | routine r => exact ih.invoke r args
  | construct c =>
    refine h.bind (h.newObject c) fun o => ?_
    split
    · exact h.pure _
    · refine h.bind (h.bindMethod _ o) fun bound => ?_
      exact h.bind (ih.invoke bound args) fun _ => h.pure _

theorem invoke_succ (h : Congruence R) (ih : RelatesOn R n m) (r : Routine) (args : List Value) :
    R (Run.invoke (n + 1) r args) (Run.invoke (m + 1) r args) := by
  refine h.bind (h.createFrame _ _) fun frame => ?_
  refine h.bind (h.inFrame frame (ih.executeAll r.body)) fun flow => ?_
  split
  · exact h.receiver r.frame
  · cases flow with
    | proceed => exact h.pure _
    | returned v => exact h.pure v

theorem executeAll_succ (h : Congruence R) (ih : RelatesOn R n m) (ss : List Code) :
    R (Run.executeAll (n + 1) ss) (Run.executeAll (m + 1) ss) := by
  cases ss with
  | nil => exact h.pure _
  | cons s ss =>
    refine h.bind (ih.execute s) fun flow => ?_
    cases flow with
    | proceed => exact ih.executeAll ss
    | returned v => exact h.pure _

theorem execute_succ (h : Congruence R) (ih : RelatesOn R n m) (s : Code) :
    R (Run.execute (n + 1) s) (Run.execute (m + 1) s) := by
  cases s with
  | expression e => exact h.bind (ih.evaluate e) fun _ => h.pure _
  | print e => exact h.bind (ih.evaluate e) fun v => h.bind (h.printLine _) fun _ => h.pure _
  | var name init =>
    cases init with
    | none => exact h.bind (h.define _ _) fun _ => h.pure _
    | some e => exact h.bind (ih.evaluate e) fun v => h.bind (h.define _ v) fun _ => h.pure _
  | block body =>
    refine h.get (fun _ _ _ => rfl) (fun _ _ _ => rfl) fun m => ?_
    refine h.bind (h.createFrame _ _) fun frame => ?_
    exact h.inFrame frame (ih.executeAll body)
  | cond test yes no =>
    refine h.bind (ih.evaluate test) fun v => ?_
    split
    · exact ih.execute yes
    · cases no with
      | none => exact h.pure _
      | some no => exact ih.execute no
  | loop test body =>
    refine h.bind (ih.evaluate test) fun v => ?_
    split
    · refine h.bind (ih.execute body) fun flow => ?_
      cases flow with
      | proceed => exact ih.execute _
      | returned v => exact h.pure _
    · exact h.pure _
  | function name params body =>
    exact h.bind (h.newFunction _ params body) fun f => h.bind (h.define _ f) fun _ => h.pure _
  | ret keyword value =>
    cases value with
    | none => exact h.pure _
    | some e => exact h.bind (ih.evaluate e) fun v => h.pure _
  | classDecl name superclass methods =>
    exact h.bind (h.declareClass name superclass methods) fun _ => h.pure _

end RelatesOn

namespace Congruence

variable {R : {α : Type} → Run α → Run α → Prop} {n m : Nat}

/-- **A congruence relates every run to the one on more fuel**, by induction on the fuel. -/
theorem relatesOn (h : Congruence R) (hnm : n ≤ m) : RelatesOn R n m := by
  induction n generalizing m with
  | zero =>
    exact ⟨fun _ => h.outOfFuel _, fun _ => h.outOfFuel _, fun _ _ _ => h.outOfFuel _,
      fun _ _ => h.outOfFuel _, fun _ _ => h.outOfFuel _, fun _ => h.outOfFuel _,
      fun _ => h.outOfFuel _⟩
  | succ n ih =>
    obtain ⟨m, rfl⟩ := Nat.exists_eq_succ_of_ne_zero (Nat.ne_zero_of_lt hnm)
    have ih := ih (Nat.le_of_succ_le_succ hnm)
    exact ⟨ih.evaluate_succ h, ih.evaluateAll_succ h, ih.call_succ h, ih.apply_succ h,
      ih.invoke_succ h, ih.executeAll_succ h, ih.execute_succ h⟩

/-- A congruence relates the runs of a line. -/
theorem line (h : Congruence R) (hnm : n ≤ m) (code : Line (Option Nat)) :
    R (Run.line n code) (Run.line m code) := by
  refine h.bind ((h.relatesOn hnm).executeAll _) fun flow => ?_
  split
  · exact h.pure _
  · exact h.bind ((h.relatesOn hnm).evaluate _) fun v => h.pure _

end Congruence

/-! ## Properties of single runs -/

/-- A property that the steps of the machine have and that is kept where runs are put together. -/
structure Compositional (P : {α : Type} → Run α → Prop) : Prop where
  pure : ∀ {α : Type} (a : α), P (pure a)
  throw : ∀ {α : Type} (e : Fault), P (throw e : Run α)
  bind : ∀ {α β : Type} {r : Run α} {k : α → Run β}, P r → (∀ a, P (k a)) → P (r >>= k)
  get : ∀ {β : Type} {k : Machine → Run β}, Unobserving k → (∀ m, P (k m)) →
    P (MonadState.get >>= k)
  createFrame : ∀ names parent, P (createFrame names parent)
  newIdentity : P newIdentity
  define : ∀ name v, P (define name v)
  lookUp : ∀ site, P (lookUp site)
  assign : ∀ site v, P (assign site v)
  printLine : ∀ text, P (printLine text)
  readClock : P readClock
  newObject : ∀ c, P (newObject c)
  setField : ∀ o name v, P (setField o name v)
  inFrame : ∀ {α : Type} {r : Run α} (frame : Nat), P r → P (inFrame frame r)
  inCall : ∀ {α : Type} {r : Run α}, P r → P (inCall r)

/-- All that runs on the given fuel has the property. -/
abbrev HoldsOn (P : {α : Type} → Run α → Prop) (n : Nat) : Prop := RelatesOn (fun r _ => P r) n n

namespace Compositional

variable {P : {α : Type} → Run α → Prop}

/-- A property of single runs as a relation that looks at the first. -/
theorem congruence (h : Compositional P) : Congruence fun r _ => P r where
  pure := h.pure
  throw := h.throw
  outOfFuel _ := h.throw _
  bind := h.bind
  get hk _ := h.get hk
  createFrame := h.createFrame
  newIdentity := h.newIdentity
  define := h.define
  lookUp := h.lookUp
  assign := h.assign
  printLine := h.printLine
  readClock := h.readClock
  newObject := h.newObject
  setField := h.setField
  inFrame := h.inFrame
  inCall := h.inCall

/-- **A compositional property holds of every run.** -/
theorem holdsOn (h : Compositional P) (n : Nat) : HoldsOn P n :=
  h.congruence.relatesOn (Nat.le_refl n)

/-- A compositional property holds of the run of a line. -/
theorem line (h : Compositional P) (n : Nat) (code : Line (Option Nat)) : P (Run.line n code) :=
  h.congruence.line (Nat.le_refl n) code

end Compositional

end Run

end LoxLang
