import Mathlib
import LoxLang.Proofs.Grammar.Interactive
import LoxLang.Proofs.Grammar.Predictive

/-!
# The first impossible token

Reading is predictive for the relaxed grammar. So the tokens in front of the first error begin a
program, and together with the token that it is noticed at they begin none. Only one token of the
input is such a token: where the first error is noticed depends on the grammar alone.
-/

open scoped Computability

namespace LoxLang

/-- The tokens begin a program of the relaxed grammar. -/
def Viable (w : List Token) : Prop := ∃ v, DerivesBy Symbol.relaxedRule (.sym .program) (w ++ v)

/-- The tokens `before` begin a program of the relaxed grammar, but none in which `t` comes next;
the end mark comes next where the tokens are a program as they stand. -/
structure Impossible (before : List Token) (t : Token) : Prop where
  viable : Viable before
  not_next : if t.isEnd then ¬ DerivesBy Symbol.relaxedRule (.sym .program) before
    else ¬ Viable (before ++ [t])

theorem Viable.of_append {w v : List Token} (h : Viable (w ++ v)) : Viable w := by
  obtain ⟨u, hu⟩ := h
  exact ⟨v ++ u, List.append_assoc w v u ▸ hu⟩

/-- The beginning of a program of the grammar. -/
theorem Derives.viable {w v : List Token} (h : Derives (.sym .program) (w ++ v)) : Viable w :=
  ⟨v, h.relaxed⟩

namespace Impossible

variable {before before' behind behind' tokens a : List Token} {mark t t' : Token}

/-- No program of the relaxed grammar begins with an impossible token and those in front of it. -/
theorem not_viable (h : Impossible before t) (ht : ¬ t.isEnd) :
    ¬ Viable (before ++ t :: behind) := by
  intro hv
  have hnext := h.not_next
  rw [if_neg ht] at hnext
  exact hnext (.of_append (v := behind) (by rwa [List.append_assoc]))

/-- No program of the grammar does either. -/
theorem not_derives (h : Impossible before t) (ht : ¬ t.isEnd) :
    ¬ Derives (.sym .program) (before ++ t :: behind) :=
  fun hd => h.not_viable ht (Derives.viable (v := []) (by rwa [List.append_nil]))

/-- What is viable does not go on beyond an impossible token. -/
theorem eq_nil_of_viable (h : Impossible before t) (hv : Viable (before ++ a))
    (ha : t :: behind = a ++ t' :: behind') (hend : ∀ x ∈ a, ¬ x.isEnd) : a = [] := by
  cases a with
  | nil => rfl
  | cons x a =>
    cases ha
    exact absurd hv (h.not_viable (hend t List.mem_cons_self))

/-- **Up to the first end mark there is one impossible token at most.** -/
theorem unique (h : Impossible before t) (h' : Impossible before' t')
    (htokens : ∀ x ∈ tokens, ¬ x.isEnd) (heq : tokens ++ [mark] = before ++ t :: behind)
    (heq' : tokens ++ [mark] = before' ++ t' :: behind') : before' = before := by
  have hends : ∀ {w v : List Token} {s : Token}, tokens ++ [mark] = w ++ s :: v →
      ∀ x ∈ w, ¬ x.isEnd := by
    intro w v s hw x hx
    have hsplit := congrArg List.dropLast hw
    rw [List.dropLast_concat, List.dropLast_append_of_ne_nil (List.cons_ne_nil s v)] at hsplit
    exact htokens x (hsplit ▸ List.mem_append_left _ hx)
  rcases List.append_eq_append_iff.1 (heq.symm.trans heq') with ⟨a, rfl, ha⟩ | ⟨a, rfl, ha⟩
  · rw [h.eq_nil_of_viable h'.viable ha fun x hx => hends heq' x (List.mem_append_right _ hx),
      List.append_nil]
  · rw [h'.eq_nil_of_viable h.viable ha fun x hx => hends heq x (List.mem_append_right _ hx),
      List.append_nil]

end Impossible

namespace Reading

/-- Reading a program is predictive: nothing comes behind it. -/
theorem program_predicts (n : Nat) :
    Predicts (· = 1) Symbol.program.language Anywhere (program n) := by
  have hprogram : Symbol.program.language = Symbol.declaration.language∗ :=
    Symbol.language_eq_equation .program
  have hfronts := Symbol.fronts_declaration.mul nofun
  rw [hprogram]
  induction n with
  | zero => exact .outOfFuel
  | succ n ih =>
    intro c hc _
    by_cases hrest : c.rest = []
    · rw [program_of_rest_eq_nil hrest]
      refine .passed (u := []) rfl rfl rfl ⟨Language.nil_mem_kstar _, ?_⟩
      rintro _ rfl v hv hmem
      rw [List.nil_append, kstar_mul_eq] at hmem
      refine (hfronts _).skip_right hmem fun h => ?_
      rw [hv, hrest] at h
      cases h
    · have hfront : c.peek.kind ≠ .eof := fun h => hrest (hc.rest_eq_nil h)
      have hselects : Selects (· = 1) c.peek.kind
          (Symbol.declaration.language * Symbol.declaration.language∗)
          Symbol.declaration.language∗ := by
        refine ⟨mul_kstar_le_kstar, ?_⟩
        rintro _ rfl w hw hkind
        rw [kstar_mul_eq] at hw
        rw [mul_assoc]
        refine hw.resolve_left ?_
        rintro rfl
        exact hfront hkind.symm
      rw [program_of_rest_ne_nil hrest]
      refine Predicts.select (.bind (B := Elsey) ?_ (fun s => ih.last) fun K hK => ⟨?_, hK⟩)
        hselects c hc rfl
      · exact (predictsOn n).declaration.anywhere
      · subst hK
        refine .of_fronts (S := (· ≠ .kwElse)) ?_ (not_not.2 rfl)
        rw [kstar_mul_eq]
        refine .add ?_ ((hfronts _).mono fun _ h => Kind.ne_of_opens h rfl)
        rintro _ rfl ⟨⟩

end Reading

theorem Cursor.clean_start (tokens : List Token) : (start tokens).Clean where
  endMark := isEnd_start tokens
  rest t ht := by simpa using List.mem_takeWhile_imp ht

/-- Where a reading of the whole input is stuck there is an impossible token. -/
theorem Stuck.impossible {c : Cursor} {u rest : List Token}
    (h : Stuck (· = 1) Symbol.program.language u rest) (hc : c.Clean) (hrest : c.rest = u ++ rest) :
    Impossible u (rest.headD c.endMark) where
  viable := h.begins
  not_next := by
    have hstuck : ∀ v, frontKind v = frontKind rest → u ++ v ∉ Symbol.program.language := by
      intro v hv hmem
      exact h.stuck 1 rfl v hv ((mul_one Symbol.program.language).symm ▸ hmem)
    cases rest with
    | nil =>
      rw [List.headD_nil, if_pos hc.endMark]
      intro hu
      exact hstuck [] rfl ((List.append_nil u).symm ▸ hu)
    | cons t rest =>
      rw [List.headD_cons, if_neg (hc.rest t (by simp [hrest]))]
      rintro ⟨v, hv⟩
      rw [List.append_assoc] at hv
      exact hstuck (t :: v) rfl hv

/-- **The first error is noticed at the first impossible token.** A program that cannot be read has
a first error. Unless it is one that the relaxed grammar does not know, it tells the line and the
place of the only token up to the first end mark that is impossible behind the tokens in front of
it. -/
theorem first_error_at_impossible_token {tokens : List Token} {es : List GrammarError}
    (h : Stmt.readAll tokens = .error es) :
    ∃ e later, es = e :: later ∧ (¬ e.cause.IsRelaxed → ∃ before behind,
      Cursor.throughEnd tokens = before ++ e.token :: behind ∧ Impossible before e.token ∧
      (∀ before' t behind', Cursor.throughEnd tokens = before' ++ t :: behind' →
        Impossible before' t → before' = before) ∧
      e.diagnostic.line? = some e.token.line ∧
      e.diagnostic.text = e.token.report e.cause.message) := by
  obtain ⟨ss, c, hread, -⟩ := Reading.program_reads tokens
  have hc := Cursor.clean_start tokens
  have hspoils : Reading.Spoils (· = 1) Symbol.program.language (.start tokens) c.errors := by
    have htracks := Reading.program_predicts (Reading.fuelFor tokens) (.start tokens) hc trivial
    rw [hread] at htracks
    cases htracks with
    | passed _ _ herrors _ =>
      have hnone : c.errors = [] := herrors
      rw [Stmt.readAll, Reading.run, hread] at h
      dsimp only at h
      rw [if_pos (List.isEmpty_iff.2 hnone)] at h
      cases h
    | spoilt _ hspoils => exact hspoils
  obtain ⟨later, e, herrors, hblames⟩ := hspoils
  refine ⟨e, later.reverse, ?_, fun hcause => ?_⟩
  · rw [Stmt.readAll, Reading.run, hread] at h
    dsimp only at h
    rw [herrors, if_neg (by simp)] at h
    cases h
    simp [Cursor.start]
  obtain ⟨u, rest, hrest, htoken, hstuck⟩ := hblames.resolve_left hcause
  have himpossible : Impossible u e.token := htoken ▸ hstuck.impossible hc hrest
  have hthrough : Cursor.throughEnd tokens = (Cursor.start tokens).rest ++
      [(Cursor.start tokens).endMark] := Cursor.throughEnd_eq tokens
  obtain ⟨behind, hbehind⟩ : ∃ behind, Cursor.throughEnd tokens = u ++ e.token :: behind := by
    rw [hthrough, hrest, List.append_assoc, htoken]
    cases rest with
    | nil => exact ⟨[], rfl⟩
    | cons t rest => exact ⟨_, rfl⟩
  refine ⟨u, behind, hbehind, himpossible, fun before' t behind' hsplit h' => ?_, rfl,
    e.text_diagnostic⟩
  exact himpossible.unique h' hc.rest (hthrough ▸ hbehind) (hthrough ▸ hsplit)

/-- A semicolon is impossible behind the word `print`. -/
theorem impossible_semicolon :
    let word : Token := ⟨.kwPrint, "print", 1⟩
    let mark : Token := ⟨.semicolon, ";", 1⟩
    Stmt.readAll [word, mark] = .error [⟨mark, .expression⟩] ∧ Impossible [word] mark := by
  intro word mark
  have hread : Stmt.readAll [word, mark] = .error [⟨mark, .expression⟩] := by cbv
  obtain ⟨e, later, heq, h⟩ := first_error_at_impossible_token hread
  cases heq
  obtain ⟨before, behind, hsplit, himpossible, -⟩ := h id
  have hthrough : Cursor.throughEnd [word, mark] = [word, mark, .endMark 1] := rfl
  rw [hthrough] at hsplit
  refine ⟨hread, ?_⟩
  rcases before with _ | ⟨first, _ | ⟨second, _ | ⟨third, before⟩⟩⟩
  · cases congrArg Token.kind (List.cons.inj hsplit).1
  · cases hsplit
    exact himpossible
  · cases hsplit
  · cases before <;> cases hsplit

end LoxLang
