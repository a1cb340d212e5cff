import LoxLang.Proofs.Run.Respects
import LoxLang.Session

/-!
# The steps of a session, as equations

A source is either rejected or comes to code (`Style.code?`): a line whose sites have their
distances. A rejected source leaves the machine alone, and an accepted one runs its code on the
machine with nothing printed yet (`Session.step_eq_perform`, `Session.machine_step`).
-/

namespace LoxLang

/-- A source that is read has been numbered. -/
theorem Style.readSource_eq_ok {style : Style} {next next' : Nat} {source : String}
    {line : Line Nat} (h : style.readSource next source = .ok (line, next')) :
    ∃ bare : Line Unit, style.read (Token.scan source) = .ok bare ∧
      line = (bare.label next).1 := by
  unfold Style.readSource at h
  dsimp only at h
  split at h
  · cases h
  · next bare hread =>
    split at h
    · exact ⟨bare, hread, congrArg Prod.fst (Except.ok.inj h).symm⟩
    · cases h

/-- The code a source comes to, if it has no lexical, grammatical or scope error. -/
def Style.code? (style : Style) (next : Nat) (source : String) : Option (Line (Option Nat)) :=
  match style.readSource next source with
  | .error _ => none
  | .ok (line, _) =>
    match line.bindings with
    | .error _ => none
    | .ok bindings => some (line.link bindings)

/-- The code is read from the tokens of the source, numbered, resolved and linked. -/
theorem Style.code?_eq_some {style : Style} {next : Nat} {source : String}
    {code : Line (Option Nat)} (h : style.code? next source = some code) :
    ∃ (bare : Line Unit) (b : Bindings), style.read (Token.scan source) = .ok bare ∧
      (bare.label next).1.bindings = .ok b ∧ code = (bare.label next).1.link b := by
  unfold Style.code? at h
  split at h
  · cases h
  · next line next' hline =>
    obtain ⟨bare, hread, rfl⟩ := Style.readSource_eq_ok hline
    split at h
    · cases h
    · next b hb => exact ⟨bare, b, hread, hb, (Option.some.inj h).symm⟩

/-- The machine with nothing printed yet. -/
def Machine.unprinted (m : Machine) : Machine := { m with printed := .empty }

/-- The outcome of a line that has come to a result. -/
def Outcome.ofResult : EStateM.Result Fault Machine (Option Value) → Outcome
  | .ok value m => ⟨m.printed, .finished (value.map Value.text)⟩
  | .error fault m => ⟨m.printed, .failed fault⟩

/-- The outcome of a line has what is printed when it ends. -/
theorem Outcome.printed_ofResult (r : Run (Option Value)) (m : Machine) :
    (ofResult (r m)).printed = (r.after m).printed := by
  unfold Run.after
  cases r m <;> rfl

namespace Session

theorem perform_eq (s : Session) (fuel : Nat) (code : Line (Option Nat)) :
    s.perform fuel code = match Run.line fuel code s.machine.unprinted with
      | .ok value m => (⟨m.printed, .finished (value.map Value.text)⟩, ⟨m, s.nextSite⟩)
      | .error fault m => (⟨m.printed, .failed fault⟩, ⟨m, s.nextSite⟩) :=
  rfl

/-- After a line the machine is the one its code leaves. -/
theorem machine_perform (s : Session) (fuel : Nat) (code : Line (Option Nat)) :
    (s.perform fuel code).2.machine = (Run.line fuel code).after s.machine.unprinted := by
  rw [perform_eq, Run.after]
  split <;> rename_i h <;> simp only [h]

/-- The outcome of a line is that of the result its code comes to. -/
theorem outcome_perform (s : Session) (fuel : Nat) (code : Line (Option Nat)) :
    (s.perform fuel code).1 = .ofResult (Run.line fuel code s.machine.unprinted) := by
  rw [perform_eq]
  cases Run.line fuel code s.machine.unprinted <;> rfl

/-- A rejected source prints nothing and leaves the machine alone. -/
theorem step_of_code?_eq_none {s : Session} {style : Style} {source : String} (fuel : Nat)
    (h : style.code? s.nextSite source = none) :
    (∃ ds, (s.step fuel style source).1 = ⟨.empty, .rejected ds⟩) ∧
      (s.step fuel style source).2.machine = s.machine := by
  unfold Style.code? at h
  unfold step
  split
  · exact ⟨⟨_, rfl⟩, rfl⟩
  · next line next hr =>
    simp only [hr] at h
    split
    · exact ⟨⟨_, rfl⟩, rfl⟩
    · next b hb => simp only [hb] at h; cases h

/-- An accepted source runs its code. -/
theorem step_of_code?_eq_some {s : Session} {style : Style} {source : String} (fuel : Nat)
    {code : Line (Option Nat)} (h : style.code? s.nextSite source = some code) :
    ∃ next, s.step fuel style source = (Session.mk s.machine next).perform fuel code := by
  unfold Style.code? at h
  cases hr : style.readSource s.nextSite source with
  | error ds =>
    rw [hr] at h
    cases h
  | ok read =>
    obtain ⟨line, next⟩ := read
    rw [hr] at h
    cases hb : line.bindings with
    | error es =>
      simp only [hb] at h
      cases h
    | ok b =>
      simp only [hb] at h
      cases h
      exact ⟨next, by simp only [step, hr, hb]⟩

/-- One source either leaves the machine alone or runs its code on it. -/
theorem machine_step (s : Session) (fuel : Nat) (style : Style) (source : String) :
    (s.step fuel style source).2.machine = s.machine ∨
      ∃ code, style.code? s.nextSite source = some code ∧
        (s.step fuel style source).2.machine =
          (Run.line fuel code).after s.machine.unprinted := by
  cases h : style.code? s.nextSite source with
  | none => exact .inl (step_of_code?_eq_none fuel h).2
  | some code =>
    obtain ⟨next, hs⟩ := step_of_code?_eq_some fuel h
    exact .inr ⟨code, rfl, by rw [hs, machine_perform]⟩

/-- What a source comes to does not depend on the machine: it is rejected or runs its code. -/
theorem step_cases (next fuel : Nat) (style : Style) (source : String) :
    (∃ ds next', ∀ m, (mk m next).step fuel style source =
      (⟨.empty, .rejected ds⟩, ⟨m, next'⟩)) ∨
    ∃ code next', ∀ m, (mk m next).step fuel style source = (mk m next').perform fuel code := by
  unfold step
  dsimp only
  cases style.readSource next source with
  | error ds => exact .inl ⟨ds, next, fun m => rfl⟩
  | ok read =>
    obtain ⟨line, next'⟩ := read
    dsimp only
    cases line.bindings with
    | error es => exact .inl ⟨es.map ScopeError.diagnostic, next', fun m => rfl⟩
    | ok b => exact .inr ⟨line.link b, next', fun m => rfl⟩

/-- A session runs its first source and goes on from there. -/
theorem steps_cons (s : Session) (fuel : Nat) (style : Style) (source : String)
    (rest : List (Style × String)) :
    s.steps fuel ((style, source) :: rest) =
      ((s.step fuel style source).1 :: ((s.step fuel style source).2.steps fuel rest).1,
        ((s.step fuel style source).2.steps fuel rest).2) :=
  rfl

/-- A session goes on behind its first sources. -/
theorem steps_append (s : Session) (fuel : Nat) (before after : List (Style × String)) :
    s.steps fuel (before ++ after) =
      ((s.steps fuel before).1 ++ ((s.steps fuel before).2.steps fuel after).1,
        ((s.steps fuel before).2.steps fuel after).2) := by
  induction before generalizing s with
  | nil => rfl
  | cons source before ih =>
    obtain ⟨style, source⟩ := source
    rw [List.cons_append, steps_cons, ih, steps_cons]
    rfl

/-- A session runs its last source behind those before it. -/
theorem steps_concat (s : Session) (fuel : Nat) (before : List (Style × String)) (style : Style)
    (source : String) :
    (s.steps fuel (before ++ [(style, source)])).2 =
      ((s.steps fuel before).2.step fuel style source).2 := by
  rw [steps_append]
  rfl

/-- Every outcome of a session is that of one of its sources, behind the sources before it. -/
theorem exists_of_mem_outcomes {s : Session} {fuel : Nat} {sources : List (Style × String)}
    {o : Outcome} (h : o ∈ (s.steps fuel sources).1) :
    ∃ before style source after, sources = before ++ (style, source) :: after ∧
      o = ((s.steps fuel before).2.step fuel style source).1 := by
  induction sources generalizing s with
  | nil => cases h
  | cons first rest ih =>
    obtain ⟨style, source⟩ := first
    rw [steps_cons] at h
    rcases List.mem_cons.1 h with rfl | h
    · exact ⟨[], style, source, rest, rfl, rfl⟩
    · obtain ⟨before, style', source', after, rfl, rfl⟩ := ih h
      exact ⟨(style, source) :: before, style', source', after, rfl, rfl⟩

/-- What holds of the machine at the start and is kept by every source holds after every session. -/
theorem machine_steps {P : Machine → Prop} {fuel : Nat}
    (keep : ∀ m code, P m → P ((Run.line fuel code).after m.unprinted)) :
    ∀ {s : Session} (sources : List (Style × String)), P s.machine →
      P (s.steps fuel sources).2.machine
  | _, [], h => h
  | s, (style, source) :: rest, h => by
    have first : P (s.step fuel style source).2.machine := by
      rcases machine_step s fuel style source with hs | ⟨code, -, hs⟩
      · rw [hs]; exact h
      · rw [hs]; exact keep _ code h
    rw [steps_cons]
    exact machine_steps keep rest first

end Session

end LoxLang
