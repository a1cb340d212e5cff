import LoxLang.Proofs.Run.Rules

/-!
# Fuel decides only whether a run ends

A run that ends on some fuel, with a result or with a fault of the program, ends in the same way on
more fuel, on the same machine (`Run.extends_congruence`). So on any two amounts of fuel on which
it ends it comes to the same (`Run.evaluate_of_ended`).
-/

namespace LoxLang

namespace Run

variable {α β : Type}

/-- The fuel was not used up. -/
def Ended (x : EStateM.Result Fault Machine α) : Prop := ∀ m, x ≠ .error .outOfFuel m

/-- Wherever the first run does not use up its fuel, the second ends in the same way. -/
def Extends (r r' : Run α) : Prop := ∀ m, (∃ m', r m = .error .outOfFuel m') ∨ r' m = r m

theorem Extends.eq_of_ended {r r' : Run α} (h : Extends r r') {m : Machine} (hr : Ended (r m)) :
    r' m = r m :=
  (h m).resolve_left fun ⟨m', hm'⟩ => hr m' hm'

theorem Extends.refl (r : Run α) : Extends r r := fun _ => .inr rfl

theorem Extends.trans {r₁ r₂ r₃ : Run α} (h : Extends r₁ r₂) (h' : Extends r₂ r₃) :
    Extends r₁ r₃ := by
  intro m
  rcases h m with hout | hsame
  · exact .inl hout
  · rw [← hsame]
    exact h' m

/-- Ending in the same way is kept where runs are put together. -/
theorem extends_congruence : Congruence Extends where
  pure _ _ := .inr rfl
  throw _ _ := .inr rfl
  outOfFuel _ m := .inl ⟨m, rfl⟩
  bind := by
    intro α β r r' k k' hr hk m
    rcases hr m with ⟨m', hm'⟩ | hsame
    · exact .inl ⟨m', bind_error hm'⟩
    · cases hrm : r m with
      | ok a m₁ =>
        rw [bind_ok hrm, bind_ok (hsame.trans hrm)]
        exact hk a m₁
      | error e m₁ => exact .inr (by rw [bind_error hrm, bind_error (hsame.trans hrm)])
  get _ _ hk m := hk m m
  createFrame _ _ _ := .inr rfl
  newIdentity _ := .inr rfl
  define _ _ _ := .inr rfl
  lookUp _ _ := .inr rfl
  assign _ _ _ := .inr rfl
  printLine _ _ := .inr rfl
  readClock _ := .inr rfl
  newObject _ _ := .inr rfl
  setField _ _ _ _ := .inr rfl
  inFrame := by
    intro α r r' frame hr m
    unfold inFrame
    rcases hr { m with frame := frame } with ⟨m', hm'⟩ | hsame
    · exact .inl ⟨_, by simp only [hm']; rfl⟩
    · exact .inr (by simp only [hsame])
  inCall := by
    intro α r r' hr m
    unfold inCall
    rcases hr { m with depth := m.depth + 1 } with ⟨m', hm'⟩ | hsame
    · exact .inl ⟨_, by simp only [hm']; rfl⟩
    · exact .inr (by simp only [hsame])

theorem execute_mono {n n' : Nat} (h : n ≤ n') (s : Code) :
    Extends (execute n s) (execute n' s) :=
  (extends_congruence.relatesOn h).execute s

theorem evaluate_mono {n n' : Nat} (h : n ≤ n') (e : Expr (Option Nat)) :
    Extends (evaluate n e) (evaluate n' e) :=
  (extends_congruence.relatesOn h).evaluate e

/-- An expression that is evaluated to its end on two amounts of fuel comes to the same on both. -/
theorem evaluate_of_ended {n n' : Nat} {e : Expr (Option Nat)} {m : Machine}
    (h : Ended (evaluate n e m)) (h' : Ended (evaluate n' e m)) :
    evaluate n' e m = evaluate n e m := by
  rcases Nat.le_total n n' with hle | hle
  · exact (evaluate_mono hle e).eq_of_ended h
  · exact ((evaluate_mono hle e).eq_of_ended h').symm

end Run

end LoxLang
