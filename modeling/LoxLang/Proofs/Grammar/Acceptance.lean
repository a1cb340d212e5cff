import LoxLang.Proofs.Grammar.Completeness
import LoxLang.Proofs.Grammar.Soundness

/-!
# What is accepted

A list of tokens is accepted exactly if the tokens in front of the first end mark can be derived:
from `program` where a program is read, from `expression` where a single expression is read. One
direction is soundness, for a result without recorded errors; the other is completeness, for the
fuel that is given.
-/

namespace LoxLang

namespace Cursor

theorem isEnd_start (tokens : List Token) : (start tokens).endMark.isEnd := by
  change ((tokens.find? (·.isEnd)).getD _).isEnd = true
  cases h : tokens.find? (·.isEnd) with
  | none => rfl
  | some t => exact List.find?_some h

end Cursor

namespace Reading

/-- A result is returned if no error is recorded. -/
theorem run_ok_iff {α : Type} {r : Nat → Reading α} {tokens : List Token} {a : α} :
    run r tokens = .ok a ↔
      ∃ c, r (fuelFor tokens) (.start tokens) = .ok a c ∧ c.errors = [] := by
  unfold run
  cases r (fuelFor tokens) (.start tokens) with
  | ok b c =>
    dsimp only
    constructor
    · intro h
      split at h
      · next hc =>
        cases h
        exact ⟨c, rfl, List.isEmpty_iff.1 hc⟩
      · cases h
    · rintro ⟨_, h, hc⟩
      cases h
      rw [hc]
      rfl
  | error e c =>
    constructor
    · intro h
      cases e <;> cases h
    · rintro ⟨_, h, -⟩
      cases h

/-- What is returned without recorded errors has the property of a sound reading. -/
theorem Sound.of_run {α : Type} {r : Nat → Reading α} {P : α → List Token → Prop}
    (hr : ∀ n, Sound none (r n) P) {tokens : List Token} {n : Nat} {a : α} {c : Cursor}
    (h : r n (.start tokens) = .ok a c) (hc : c.errors = []) :
    ∃ w, tokens.takeWhile (!·.isEnd) = w ++ c.rest ∧ P a w := by
  have hend := hr n (.start tokens) (Cursor.isEnd_start tokens) nofun
  rw [h] at hend
  cases hend with
  | ok hahead hP => exact ⟨_, hahead.rest, hP hc⟩

/-- Declarations up to the end are read one after the other. -/
theorem program_accepts {ws : List (List Token)} (hws : ∀ u ∈ ws, Derives (.sym .declaration) u)
    {n : Nat} (hn : 16 * ws.flatten.length + 5 ≤ n) {e : Token} (he : e.isEnd)
    (errors : List GrammarError) :
    ∃ ss, program n ⟨ws.flatten, e, errors⟩ = .ok ss ⟨[], e, errors⟩ := by
  induction ws generalizing n with
  | nil =>
    cases n with
    | zero => omega
    | succ n => exact ⟨[], rfl⟩
  | cons u ws ih =>
    obtain ⟨hu, hws'⟩ := List.forall_mem_cons.1 hws
    obtain ⟨t, u, rfl, -⟩ := hu.begins_declaration
    cases n with
    | zero => omega
    | succ n =>
      rw [List.flatten_cons, List.length_append] at hn
      have hpos : 0 < (t :: u).length := Nat.succ_pos _
      have hnext : (⟨ws.flatten, e, errors⟩ : Cursor).peek.kind ≠ .kwElse := by
        cases ws with
        | nil =>
          intro h
          cases (of_decide_eq_true he).symm.trans h
        | cons v ws =>
          obtain ⟨t', v, rfl, ht'⟩ := (hws' v List.mem_cons_self).begins_declaration
          exact Kind.ne_of_opens ht' rfl
      obtain ⟨s, hs, -⟩ := (completeAt (t :: u)).declaration hu n (by omega) _ he hnext
      obtain ⟨ss, hss⟩ := ih hws' (n := n) (by omega)
      refine ⟨s.toList ++ ss, ?_⟩
      change (declaration n >>= fun s => program n >>= fun ss => pure (s.toList ++ ss)) _ = _
      exact (bind_ok hs).trans ((bind_ok hss).trans rfl)

end Reading

/-- A program is accepted if and only if it can be derived. -/
theorem Stmt.readAll_isOk_iff (tokens : List Token) :
    (∃ ss, Stmt.readAll tokens = .ok ss) ↔
      Derives (.sym .program) (tokens.takeWhile (!·.isEnd)) := by
  rw [Derives.sym_iff]
  constructor
  · rintro ⟨ss, h⟩
    obtain ⟨c, hread, hc⟩ := Reading.run_ok_iff.1 h
    obtain ⟨w, hw, hderives, -⟩ := Reading.Sound.of_run Reading.program_sound hread hc
    rw [Reading.program_rest hread, List.append_nil] at hw
    rw [hw]
    exact hderives
  · intro h
    obtain ⟨ws, hw, hws⟩ := Derives.star_iff.1 h
    have hlen := (List.takeWhile_prefix (!·.isEnd) (l := tokens)).length_le
    rw [hw] at hlen
    obtain ⟨ss, hss⟩ := Reading.program_accepts hws (n := Reading.fuelFor tokens)
      (by unfold Reading.fuelFor; omega) (Cursor.isEnd_start tokens) []
    rw [← hw] at hss
    exact ⟨ss, Reading.run_ok_iff.2 ⟨_, hss, rfl⟩⟩

/-- An expression is returned if it is read up to the end and no error is recorded. -/
theorem Expr.read_ok_iff {tokens : List Token} {e : Expr Unit} :
    Expr.read tokens = .ok e ↔ ∃ c, Reading.assignment (Reading.fuelFor tokens) (.start tokens) =
      .ok e c ∧ c.rest = [] ∧ c.errors = [] := by
  unfold Expr.read
  cases Reading.assignment (Reading.fuelFor tokens) (.start tokens) with
  | ok e' c =>
    dsimp only
    constructor
    · intro h
      split at h
      · next hrest =>
        split at h
        · next hlast =>
          cases h
          exact ⟨c, rfl, List.isEmpty_iff.1 hrest, List.getLast?_eq_none_iff.1 hlast⟩
        · cases h
      · cases h
    · rintro ⟨_, h, hrest, herrors⟩
      cases h
      rw [hrest, herrors]
      rfl
  | error stop c =>
    constructor
    · intro h
      cases stop <;> cases h
    · rintro ⟨_, h, -⟩
      cases h

/-- An expression is accepted if and only if it can be derived. -/
theorem Expr.read_isOk_iff (tokens : List Token) :
    (∃ e, Expr.read tokens = .ok e) ↔
      Derives (.sym .expression) (tokens.takeWhile (!·.isEnd)) := by
  rw [Derives.sym_iff]
  constructor
  · rintro ⟨e, h⟩
    obtain ⟨c, hread, hrest, hc⟩ := Expr.read_ok_iff.1 h
    obtain ⟨w, hw, hderives, -⟩ :=
      Reading.Sound.of_run (fun n => (Reading.soundOn n).assignment) hread hc
    rw [hrest, List.append_nil] at hw
    rw [hw]
    exact hderives
  · intro h
    have hlen := (List.takeWhile_prefix (!·.isEnd) (l := tokens)).length_le
    have hend := Cursor.isEnd_start tokens
    have hnext : Kind.EndsExpression (Cursor.start tokens).endMark.kind := by
      rw [of_decide_eq_true hend]
      exact Kind.endsExpression_eof
    obtain ⟨e, he, -⟩ := (Reading.completeAt _).assignment h (Reading.fuelFor tokens)
      (by unfold Reading.fuelFor; omega) ⟨[], (Cursor.start tokens).endMark, []⟩ hend hnext
    dsimp only at he
    rw [List.append_nil] at he
    exact ⟨e, Expr.read_ok_iff.2 ⟨_, he, rfl, rfl⟩⟩

/-- **The readers accept exactly what the grammar derives.** -/
theorem accepted_iff_derivable (tokens : List Token) :
    ((∃ ss, Stmt.readAll tokens = .ok ss) ↔
      Derives (.sym .program) (tokens.takeWhile (!·.isEnd))) ∧
    ((∃ e, Expr.read tokens = .ok e) ↔
      Derives (.sym .expression) (tokens.takeWhile (!·.isEnd))) :=
  ⟨Stmt.readAll_isOk_iff tokens, Expr.read_isOk_iff tokens⟩

end LoxLang
