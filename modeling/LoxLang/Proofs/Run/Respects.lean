import LoxLang.Proofs.Run.Rules

/-!
# What a run may do to the machine

A run changes the machine by a handful of steps: it creates a frame, gives a name or a field a
value, makes an object or an identity, prints, reads the clock, enters a frame or a call. A relation
between machines that is closed under these steps (`Machine.Closed`) holds between the machine
before and the machine after every run, whether it returns, fails or uses up its fuel
(`Run.respectsOn`).
-/

namespace LoxLang

/-- The machine a run has reached when it ends, with a result or a fault. -/
def Run.after {α : Type} (r : Run α) (m : Machine) : Machine :=
  match r m with
  | .ok _ m' => m'
  | .error _ m' => m'

theorem Run.after_ok {α : Type} {r : Run α} {m m' : Machine} {a : α} (h : r m = .ok a m') :
    r.after m = m' := by
  rw [Run.after, h]

theorem Run.after_error {α : Type} {r : Run α} {m m' : Machine} {e : Fault}
    (h : r m = .error e m') : r.after m = m' := by
  rw [Run.after, h]

/-- The relation holds between the machines before and after the run. -/
def Run.Respects {α : Type} (R : Machine → Machine → Prop) (r : Run α) : Prop :=
  ∀ m, R m (r.after m)

theorem Run.Respects.of_ok {α : Type} {R : Machine → Machine → Prop} {r : Run α} {m m' : Machine}
    {a : α} (h : Respects R r) (hr : r m = .ok a m') : R m m' := Run.after_ok hr ▸ h m

/-- A relation between machines that the steps of a run cannot leave: each step moves a machine to a
related one, and what a run does inside a frame or a call carries over to the machine outside. -/
structure Machine.Closed (R : Machine → Machine → Prop) : Prop where
  refl : ∀ m, R m m
  trans : ∀ {m₁ m₂ m₃}, R m₁ m₂ → R m₂ m₃ → R m₁ m₃
  create : ∀ m names parent, R m { m with store := (m.store.create names (some parent)).2 }
  define : ∀ m frame name value, R m { m with store := m.store.define frame name value }
  newIdentity : ∀ m, R m { m with identities := m.identities + 1 }
  newObject : ∀ m, R m { m with objects := m.objects.push .empty }
  setField : ∀ m address f, R m { m with objects := m.objects.modify address f }
  write : ∀ m bytes, R m (m.write bytes)
  tick : ∀ m, R m { m with ticks := m.ticks + 1 }
  inFrame : ∀ {m m' frame}, R { m with frame := frame } m' → R m { m' with frame := m.frame }
  inCall : ∀ {m m'}, R { m with depth := m.depth + 1 } m' → R m { m' with depth := m'.depth - 1 }

namespace Run

variable {R : Machine → Machine → Prop} {α β : Type}

/-- A sequence respects the relation if its parts do. -/
theorem Respects.bind (hR : Machine.Closed R) {r : Run α} {k : α → Run β} (hr : Respects R r)
    (hk : ∀ a, Respects R (k a)) : Respects R (r >>= k) := by
  intro m
  have h := hr m
  change R m (match EStateM.bind r k m with | .ok _ m' => m' | .error _ m' => m')
  unfold EStateM.bind
  cases hm : r m with
  | ok a m₁ =>
    rw [after_ok hm] at h
    exact hR.trans h (hk a m₁)
  | error e m₁ =>
    rw [after_error hm] at h
    exact h

theorem Respects.lookUp (hR : Machine.Closed R) (site : Site (Option Nat)) :
    Respects R (lookUp site) := by
  intro m
  rw [after, lookUp_eq]
  cases m.value? site <;> exact hR.refl m

theorem Respects.assign (hR : Machine.Closed R) (site : Site (Option Nat)) (value : Value) :
    Respects R (assign site value) := by
  intro m
  rw [after, assign_eq]
  cases m.target? site with
  | none => exact hR.refl m
  | some frame => exact hR.define m frame _ _

theorem Respects.printLine (hR : Machine.Closed R) (text : String) :
    Respects R (printLine text) := by
  intro m
  rw [after, printLine_eq]
  split_ifs <;> exact hR.write m _

theorem Respects.inFrame (hR : Machine.Closed R) {r : Run α} (hr : Respects R r) (frame : Nat) :
    Respects R (inFrame frame r) := by
  intro m
  have h := hr { m with frame := frame }
  unfold after Run.inFrame
  cases hm : r { m with frame := frame } with
  | ok a m' => rw [after_ok hm] at h; exact hR.inFrame h
  | error e m' => rw [after_error hm] at h; exact hR.inFrame h

theorem Respects.inCall (hR : Machine.Closed R) {r : Run α} (hr : Respects R r) :
    Respects R (inCall r) := by
  intro m
  have h := hr { m with depth := m.depth + 1 }
  unfold after Run.inCall
  cases hm : r { m with depth := m.depth + 1 } with
  | ok a m' => rw [after_ok hm] at h; exact hR.inCall h
  | error e m' => rw [after_error hm] at h; exact hR.inCall h

/-- Respecting a closed relation is kept where runs are put together. -/
theorem Respects.compositional (hR : Machine.Closed R) : Compositional (Respects R) where
  pure _ m := hR.refl m
  throw _ m := hR.refl m
  bind := .bind hR
  get _ hk m := hk m m
  createFrame names parent m := hR.create m names parent
  newIdentity m := hR.newIdentity m
  define name value m := hR.define m m.frame name value
  lookUp := .lookUp hR
  assign := .assign hR
  printLine := .printLine hR
  readClock m := hR.tick m
  newObject _ m := hR.newObject m
  setField o _ _ m := hR.setField m o.address _
  inFrame frame hr := .inFrame hR hr frame
  inCall := .inCall hR

/-- Every run respects a closed relation. -/
theorem respectsOn (hR : Machine.Closed R) (n : Nat) : HoldsOn (Respects R) n :=
  (Respects.compositional hR).holdsOn n

/-- Running a line respects a closed relation. -/
theorem Respects.line (hR : Machine.Closed R) (n : Nat) (code : Line (Option Nat)) :
    Respects R (line n code) :=
  (Respects.compositional hR).line n code

end Run

end LoxLang
