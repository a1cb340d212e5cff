import LoxLang.Proofs.Run.Session

/-!
# The current frame and the calls in progress

Entering a frame and entering a call are undone on every way out: with a result, with a pending
`return`, with a fault of the program or of its output. So every run ends in the frame in which it
began and with as many calls in progress (`control_restored`), whatever distances its code bears,
and a session is in the global frame and outside of all calls between any two of its sources. What
is run in another frame can be run there step by step, too (`Run.inFrame_bind`).
-/

namespace LoxLang

/-- The machines are in one frame and have equally many calls in progress. -/
structure Machine.SameControl (m m' : Machine) : Prop where
  frame : m'.frame = m.frame
  depth : m'.depth = m.depth

/-- No step of a run leaves the current frame or the current call for good. -/
theorem Machine.SameControl.closed : Machine.Closed Machine.SameControl where
  refl m := ⟨rfl, rfl⟩
  trans h₁ h₂ := ⟨h₂.frame.trans h₁.frame, h₂.depth.trans h₁.depth⟩
  create m names parent := ⟨rfl, rfl⟩
  define m frame name value := ⟨rfl, rfl⟩
  newIdentity m := ⟨rfl, rfl⟩
  newObject m := ⟨rfl, rfl⟩
  setField m address f := ⟨rfl, rfl⟩
  write m bytes := by
    unfold Machine.write
    split <;> exact ⟨rfl, rfl⟩
  tick m := ⟨rfl, rfl⟩
  inFrame h := ⟨rfl, h.depth⟩
  inCall {m m'} h := by
    refine ⟨h.frame, ?_⟩
    have hd : m'.depth = m.depth + 1 := h.depth
    change m'.depth - 1 = m.depth
    omega

namespace Run

variable {α β : Type} {r : Run α}

/-- What is put together from the steps of a run keeps the frame and the calls in progress. -/
theorem sameControl : Compositional (Respects Machine.SameControl) :=
  Respects.compositional Machine.SameControl.closed

/-- What stays in its frame may be run in a frame step by step. -/
theorem inFrame_bind (hr : Respects Machine.SameControl r) (k : α → Run β) (j : Nat) :
    inFrame j (r >>= k) = inFrame j r >>= fun a => inFrame j (k a) := by
  funext m
  have hframe := (hr { m with frame := j }).frame
  cases h : r { m with frame := j } with
  | error e m₁ => rw [bind_error (inFrame_error h), inFrame_error (bind_error h)]
  | ok a m₁ =>
    rw [after_ok h] at hframe
    have hback : { m₁ with frame := j } = m₁ := by
      cases m₁
      cases hframe
      rfl
    rw [bind_ok (inFrame_ok h)]
    unfold inFrame
    dsimp only
    rw [bind_ok h, hback]

/-- Entering the current frame changes nothing. -/
theorem inFrame_self (hr : Respects Machine.SameControl r) (m : Machine) :
    inFrame m.frame r m = r m := by
  have hframe := (hr m).frame
  cases h : r m with
  | ok a m₁ =>
    rw [after_ok h] at hframe
    have hin : r { m with frame := m.frame } = .ok a m₁ := h
    rw [inFrame_ok hin, ← hframe]
  | error e m₁ =>
    rw [after_error h] at hframe
    have hin : r { m with frame := m.frame } = .error e m₁ := h
    rw [inFrame_error hin, ← hframe]

end Run

/-- **Control is restored on every exit path.** Whatever the machine and whatever the marks of the
code, a run that ends leaves the current frame and the number of calls in progress as it found them,
and so a session is always back in the global frame with no call in progress. -/
theorem control_restored :
    (∀ n e m, Machine.SameControl m ((Run.evaluate n e).after m)) ∧
    (∀ n es m, Machine.SameControl m ((Run.evaluateAll n es).after m)) ∧
    (∀ n s m, Machine.SameControl m ((Run.execute n s).after m)) ∧
    (∀ n ss m, Machine.SameControl m ((Run.executeAll n ss).after m)) ∧
    (∀ n f paren args m, Machine.SameControl m ((Run.call n f paren args).after m)) ∧
    (∀ n callee args m, Machine.SameControl m ((Run.apply n callee args).after m)) ∧
    (∀ n r args m, Machine.SameControl m ((Run.invoke n r args).after m)) ∧
    (∀ n (line : Line Nat) (b : Bindings) m,
      Machine.SameControl m ((Run.line n (line.link b)).after m)) ∧
    (∀ clock room fuel sources,
      ((Session.start clock room).steps fuel sources).2.machine.frame = Machine.globalFrame ∧
      ((Session.start clock room).steps fuel sources).2.machine.depth = 0) := by
  have runs := Run.respectsOn Machine.SameControl.closed
  have line := Run.Respects.line Machine.SameControl.closed
  refine ⟨fun n => (runs n).evaluate, fun n => (runs n).evaluateAll, fun n => (runs n).execute,
    fun n => (runs n).executeAll, fun n => (runs n).call, fun n => (runs n).apply,
    fun n => (runs n).invoke, fun n l b => line n (l.link b), ?_⟩
  intro clock room fuel sources
  refine Session.machine_steps (P := fun m => m.frame = Machine.globalFrame ∧ m.depth = 0)
    (fun m code ⟨hf, hd⟩ => ?_) sources ⟨rfl, rfl⟩
  have h := line fuel code m.unprinted
  exact ⟨h.frame.trans hf, h.depth.trans hd⟩

end LoxLang
