import LoxLang.Proofs.Grammar.Interactive
import LoxLang.Proofs.Session.Sources
import Mathlib

/-!
# Rejected sources

A source with a lexical, grammatical or scope error is rejected before any of it runs. Its outcome
tells of such errors and of nothing else (`Outcome.OnlyStatic`), and the machine stays as it is. The
sites of a rejected source may still have taken numbers, but no outcome depends on numbers, so
rejected sources can be put anywhere into a session and taken out again
(`rejected_leave_no_trace`).
-/

namespace LoxLang

/-- The source has a lexical, a grammatical or a scope error. -/
inductive Style.Rejects (style : Style) (source : String) : Prop
  | lexical : LexicalError.scan source ≠ [] → Rejects style source
  | grammatical {es : List GrammarError} : style.read (Token.scan source) = .error es →
      Rejects style source
  | scope {line : Line Unit} {es : List ScopeError} : style.read (Token.scan source) = .ok line →
      (line.label 0).1.bindings = .error es → Rejects style source

/-- Whether a diagnostic is about the text and not about a run. -/
def Diagnostic.isStatic : Diagnostic → Bool
  | .lexical _ _ | .grammar _ _ | .scope _ _ => true
  | .runtime _ _ | .output _ => false

/-- The outcome tells of faults of the text and of nothing else. -/
structure Outcome.OnlyStatic (o : Outcome) : Prop where
  printed : o.printed = .empty
  value : o.value? = none
  rejected : o.isRejected
  notFailed : ¬ o.isFailed
  diagnostics : o.diagnostics ≠ []
  static : ∀ d ∈ o.diagnostics, d.isStatic

theorem Outcome.OnlyStatic.of_rejected {ds : List Diagnostic} (hne : ds ≠ [])
    (hstatic : ∀ d ∈ ds, d.isStatic) : OnlyStatic ⟨.empty, .rejected ds⟩ :=
  ⟨rfl, rfl, rfl, nofun, hne, hstatic⟩

/-- Reading fails with an error. -/
theorem Style.ne_nil_of_read_eq_error {style : Style} {tokens : List Token}
    {es : List GrammarError} (h : style.read tokens = .error es) : es ≠ [] := by
  obtain ⟨l, c, -, hline, hprogram⟩ := readAll_of_line tokens
  have hrecorded : ∀ {es : List GrammarError} {α : Type} {a : α},
      (if c.errors.isEmpty then Except.ok a else .error c.errors.reverse) = .error es →
        es ≠ [] := by
    intro es α a h
    split at h
    · cases h
    · next hc =>
      cases h
      simpa using hc
  cases style with
  | interactive => exact hrecorded (hline.symm.trans h)
  | program =>
    unfold Style.read at h
    rw [hprogram] at h
    cases htrailing : l.trailing with
    | none =>
      rw [htrailing] at h
      dsimp only at h
      split at h
      · cases h
      · next hc =>
        cases h
        simpa using hc
    | some e =>
      rw [htrailing] at h
      cases h
      simp

/-- Resolving fails with a violation. -/
theorem Line.ne_nil_of_bindings_eq_error {line : Line Nat} {es : List ScopeError}
    (h : line.bindings = .error es) : es ≠ [] := by
  unfold Line.bindings Walk.finish at h
  split at h
  · cases h
  · next hempty =>
    cases h
    simpa using hempty

/-- What rejects a source is a fault of its text. -/
theorem Style.Rejects.code_eq_error {style : Style} {source : String} (h : style.Rejects source) :
    ∃ ds, style.code source = .error ds ∧ ds ≠ [] ∧ ∀ d ∈ ds, d.isStatic := by
  have hlexical : ∀ d ∈ (LexicalError.scan source).map LexicalError.diagnostic, d.isStatic := by
    intro d hd
    obtain ⟨e, -, rfl⟩ := List.mem_map.1 hd
    rfl
  unfold Style.code
  rw [readSource_eq]
  cases hread : style.read (Token.scan source) with
  | error es =>
    refine ⟨_, rfl, ?_, fun d hd => ?_⟩
    · simpa using fun _ => ne_nil_of_read_eq_error hread
    · rcases List.mem_append.1 hd with hd | hd
      · exact hlexical d hd
      · obtain ⟨e, -, rfl⟩ := List.mem_map.1 hd
        rfl
  | ok line =>
    by_cases hscan : LexicalError.scan source = []
    · have hscope : ∃ es, (line.label 0).1.bindings = .error es := by
        cases h with
        | lexical h => exact absurd hscan h
        | grammatical h => cases hread.symm.trans h
        | scope h hb =>
          cases hread.symm.trans h
          exact ⟨_, hb⟩
      obtain ⟨es, hes⟩ := hscope
      simp only [if_pos hscan, hes]
      refine ⟨_, rfl, ?_, fun d hd => ?_⟩
      · simpa using Line.ne_nil_of_bindings_eq_error hes
      · obtain ⟨e, -, rfl⟩ := List.mem_map.1 hd
        rfl
    · dsimp only
      rw [if_neg hscan]
      exact ⟨_, rfl, by simpa using hscan, hlexical⟩

namespace Session

/-- Steps on one machine have one outcome and leave one machine, whatever has been numbered. -/
theorem step_congr (m : Machine) (k k' fuel : Nat) (style : Style) (source : String) :
    ((mk m k).step fuel style source).1 = ((mk m k').step fuel style source).1 ∧
      ((mk m k).step fuel style source).2.machine =
        ((mk m k').step fuel style source).2.machine := by
  cases hcode : style.code source with
  | error ds =>
    obtain ⟨next, h⟩ := step_of_code_eq_error (s := mk m k) fuel hcode
    obtain ⟨next', h'⟩ := step_of_code_eq_error (s := mk m k') fuel hcode
    rw [h, h']
    exact ⟨rfl, rfl⟩
  | ok code =>
    obtain ⟨next, h⟩ := step_of_code_eq_ok (s := mk m k) fuel hcode
    obtain ⟨next', h'⟩ := step_of_code_eq_ok (s := mk m k') fuel hcode
    rw [h, h', perform_eq, perform_eq]
    cases Run.line fuel code m.unprinted <;> exact ⟨rfl, rfl⟩

/-- Sessions on one machine have the same outcomes and leave one machine. -/
theorem steps_congr (m : Machine) (k k' fuel : Nat) (sources : List (Style × String)) :
    ((mk m k).steps fuel sources).1 = ((mk m k').steps fuel sources).1 ∧
      ((mk m k).steps fuel sources).2.machine = ((mk m k').steps fuel sources).2.machine := by
  induction sources generalizing m k k' with
  | nil => exact ⟨rfl, rfl⟩
  | cons source sources ih =>
    obtain ⟨style, source⟩ := source
    rw [steps_cons, steps_cons]
    obtain ⟨houtcome, hmachine⟩ := step_congr m k k' fuel style source
    generalize (mk m k).step fuel style source = x at houtcome hmachine
    generalize (mk m k').step fuel style source = x' at houtcome hmachine
    obtain ⟨o, m, k⟩ := x
    obtain ⟨o', m', k'⟩ := x'
    cases houtcome
    cases hmachine
    obtain ⟨houtcomes, hmachine⟩ := ih m k k'
    exact ⟨congrArg (o :: ·) houtcomes, hmachine⟩

/-- Rejected sources have outcomes that only tell why, and leave the machine alone. -/
theorem steps_of_rejects (fuel : Nat) (sources : List (Style × String))
    (h : ∀ p ∈ sources, p.1.Rejects p.2) (s : Session) :
    (s.steps fuel sources).1.length = sources.length ∧
      (∀ o ∈ (s.steps fuel sources).1, o.OnlyStatic) ∧
      (s.steps fuel sources).2.machine = s.machine := by
  induction sources generalizing s with
  | nil => exact ⟨rfl, nofun, rfl⟩
  | cons source sources ih =>
    obtain ⟨hsource, hsources⟩ := List.forall_mem_cons.1 h
    obtain ⟨style, source⟩ := source
    obtain ⟨ds, hcode, hne, hstatic⟩ := hsource.code_eq_error
    obtain ⟨next, hstep⟩ := step_of_code_eq_error (s := s) fuel hcode
    rw [steps_cons, hstep]
    obtain ⟨hlength, houtcomes, hmachine⟩ := ih hsources ⟨s.machine, next⟩
    exact ⟨congrArg Nat.succ hlength,
      List.forall_mem_cons.2 ⟨.of_rejected hne hstatic, houtcomes⟩, hmachine⟩

end Session

/-- **Rejected sources leave no trace.** Wherever they are put into a session, they print nothing
and have no value, and their diagnostics, of which each has one, are about the text. All other
sources of the session have the outcomes they have without them, and the machine at the end is the
same. -/
theorem rejected_leave_no_trace (s : Session) (fuel : Nat)
    (before inserted after : List (Style × String)) (h : ∀ p ∈ inserted, p.1.Rejects p.2) :
    ∃ silent rest : List Outcome,
      (s.steps fuel (before ++ inserted ++ after)).1 = (s.steps fuel before).1 ++ silent ++ rest ∧
      (s.steps fuel (before ++ after)).1 = (s.steps fuel before).1 ++ rest ∧
      silent.length = inserted.length ∧ (∀ o ∈ silent, o.OnlyStatic) ∧
      (s.steps fuel (before ++ inserted ++ after)).2.machine =
        (s.steps fuel (before ++ after)).2.machine := by
  obtain ⟨hlength, hsilent, hmachine⟩ :=
    Session.steps_of_rejects fuel inserted h (s.steps fuel before).2
  rw [Session.steps_append, Session.steps_append, Session.steps_append]
  generalize (s.steps fuel before).2 = s₁ at *
  generalize s₁.steps fuel inserted = silent at *
  obtain ⟨silent, m, next⟩ := silent
  cases hmachine
  obtain ⟨houtcomes, hlast⟩ := Session.steps_congr s₁.machine next s₁.nextSite fuel after
  exact ⟨silent, _, congrArg _ houtcomes, rfl, hlength, hsilent, hlast⟩

/-- Between `var a = 1;` and `a` stand a source that cannot be scanned and one without a
receiver. -/
theorem rejected_between_var_and_its_use :
    (∀ p ∈ [(Style.program, "@"), (.interactive, "this")], p.1.Rejects p.2) ∧
    ∃ silent rest : List Outcome,
      ((Session.start (fun _ => 0) none).steps 100
        ([(.program, "var a = 1;")] ++ [(.program, "@"), (.interactive, "this")] ++
          [(.interactive, "a")])).1 =
        ((Session.start (fun _ => 0) none).steps 100 [(.program, "var a = 1;")]).1 ++
          silent ++ rest ∧
      ((Session.start (fun _ => 0) none).steps 100
        ([(.program, "var a = 1;")] ++ [(.interactive, "a")])).1 =
        ((Session.start (fun _ => 0) none).steps 100 [(.program, "var a = 1;")]).1 ++ rest ∧
      silent.length = 2 ∧ ∀ o ∈ silent, o.OnlyStatic := by
  have h : ∀ p ∈ [(Style.program, "@"), (.interactive, "this")], p.1.Rejects p.2 := by
    intro p hp
    simp only [List.mem_cons, List.not_mem_nil, or_false] at hp
    rcases hp with rfl | rfl
    · exact .lexical (by cbv; decide)
    · let e : Expr Unit := .this ⟨(), .kwThis, "this", 1⟩
      have hread : Style.interactive.read (Token.scan "this") = .ok ⟨[], some e⟩ := by cbv
      have hscope : (Line.label ⟨[], some e⟩ 0).1.bindings =
          .error [⟨⟨.kwThis, "this", 1⟩, .thisOutsideClass⟩] := by cbv
      exact .scope hread hscope
  obtain ⟨silent, rest, hwith, hwithout, hlength, hsilent, -⟩ :=
    rejected_leave_no_trace (Session.start (fun _ => 0) none) 100 [(.program, "var a = 1;")]
      [(.program, "@"), (.interactive, "this")] [(.interactive, "a")] h
  exact ⟨h, silent, rest, hwith, hwithout, hlength, hsilent⟩

end LoxLang
