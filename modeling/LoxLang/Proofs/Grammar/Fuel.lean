import LoxLang.Proofs.Grammar.Congruence
import LoxLang.Proofs.Grammar.Halting

/-!
# More fuel changes nothing

A reading that ends on some fuel, with a result or with an error, ends in the same way on more fuel
(`Reading.extends_congruence`). On fuel for its tokens it ends, so how much more there is does not
matter.
-/

namespace LoxLang

namespace Reading

variable {α : Type}

/-- Wherever the first reading does not use up its fuel, the second ends in the same way. -/
def Extends (r r' : Reading α) : Prop := ∀ c, (∃ c', r c = .error .outOfFuel c') ∨ r' c = r c

/-- Ending in the same way is kept where readings are put together. -/
theorem extends_congruence : Congruence Extends where
  pure _ _ := .inr rfl
  throw _ _ := .inr rfl
  outOfFuel _ c := .inl ⟨c, rfl⟩
  get hk c := hk c c
  advance _ := .inr rfl
  note _ _ := .inr rfl
  bind := by
    intro α β r r' k k' hr hk c
    rcases hr c with ⟨c', hc'⟩ | hsame
    · exact .inl ⟨c', bind_error hc'⟩
    · cases hrc : r c with
      | ok a c₁ =>
        rw [bind_ok hrc, bind_ok (hsame.trans hrc)]
        exact hk a c₁
      | error stop c₁ => exact .inr (by rw [bind_error hrc, bind_error (hsame.trans hrc)])
  recovered := by
    intro α r r' hr c
    unfold Reading.recovered
    rcases hr c with ⟨c', hc'⟩ | hsame
    · exact .inl ⟨c', by rw [hc']⟩
    · exact .inr (by rw [hsame])
  attempted := by
    intro α r r' hr c
    unfold Reading.attempted
    rcases hr c with ⟨c', hc'⟩ | hsame
    · exact .inl ⟨c', by rw [hc']⟩
    · exact .inr (by rw [hsame])

/-- The reading does not use up its fuel here. -/
def Ended (x : EStateM.Result Stop Cursor α) : Prop := ∀ c, x ≠ .error .outOfFuel c

theorem Extends.eq_of_ended {r r' : Reading α} (h : Extends r r') {c : Cursor} (hr : Ended (r c)) :
    r' c = r c :=
  (h c).resolve_left fun ⟨c', hc'⟩ => hr c' hc'

theorem Halts.ended {p : Cursor → Prop} {m d : Nat} {r : Reading α} (h : Halts p m d r)
    {c : Cursor} (hc : c.endMark.isEnd) (hp : p c) (hm : c.rest.length ≤ m) : Ended (r c) := by
  intro c' hc'
  have h := h c hc hp hm
  rw [hc'] at h
  exact h

/-- An expression is read on fuel for its tokens as on more. -/
theorem assignment_of_le {n m : Nat} (hnm : n ≤ m) {c : Cursor} (hc : c.endMark.isEnd)
    (hn : 16 * c.rest.length + 4 ≤ n) : assignment m c = assignment n c :=
  (extends_congruence.relatesOn hnm).assignment.eq_of_ended
    (((haltsOn n).assignment hn).ended hc trivial (Nat.le_refl _))

end Reading

end LoxLang
