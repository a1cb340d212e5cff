import Mathlib
import LoxLang.Proofs.Grammar.Interactive
import LoxLang.Proofs.Grammar.Position

/-!
# Programs put together

Where one program ends another may begin: the declarations of the first are read as before, since no
declaration goes on with what a program begins with, and then those of the second are read
(`Reading.program_before`). A program does not begin with `else`, the one token that could continue
a statement that stands complete. So what stands behind a program is read as it is alone, errors
included (`programs_in_a_row`), and the tokens of two programs in a row are read as the statements
of the first and those of the second, whatever lines they are on (`Stmt.readAll_append`).
-/

namespace LoxLang

namespace Reading

variable {n m k : Nat} {c c' d d' : Cursor} {ss ts : List (Stmt Unit)}

/-- **A program in front of another is read as both.** On fuel for its tokens each declaration of
the first program passes one of them, so that the fuel for the second is left. -/
theorem program_before (f : Nat → Nat) (hd : d.endMark.isEnd) (helse : d.peek.kind ≠ .kwElse)
    (hts : ∀ k, m ≤ k → program k d = .ok ts d') (hc : c.endMark.isEnd)
    (hn : 16 * c.rest.length + 9 ≤ n) (hnk : n ≤ k) (hmk : c.rest.length + m ≤ k)
    (hss : program n c = .ok ss c') (he : c'.errors = c.errors) :
    program k (c.before f d) = .ok (Stmt.relineAll f ss ++ ts) d' := by
  induction n generalizing k c ss with
  | zero => omega
  | succ n ih =>
    obtain ⟨k, rfl⟩ := Nat.exists_eq_succ_of_ne_zero (Nat.ne_zero_of_lt hnk)
    by_cases hrest : c.rest = []
    · rw [program_of_rest_eq_nil hrest] at hss
      cases hss
      rw [Cursor.before_of_nil hrest]
      exact hts _ (by omega)
    rw [program_of_rest_ne_nil hrest] at hss
    obtain ⟨s, c₁, hs, hss⟩ := of_bind_ok hss
    obtain ⟨ss, c₂, hss, h⟩ := of_bind_ok hss
    cases h
    obtain ⟨_, _, hpass, hc₁, hlen⟩ := declaration_passes hc hrest (n := n) (by omega)
    cases hs.symm.trans hpass
    obtain ⟨u, hahead⟩ := (soundOn n).declaration.ahead hc hs
    obtain ⟨v, hahead'⟩ := (program_sound n).ahead hc₁ hss
    obtain ⟨he₁, he₂⟩ := hahead.errors_eq hahead' he
    have hs' := (carriesOn f (Nat.le_of_succ_le_succ hnk)).declaration.carry hc hd trivial hs he₁
      fun _ => helse
    have hss' := ih hc₁ (by omega) (Nat.le_of_succ_le_succ hnk) (by omega) hss he₂
    have hrest' : (c.before f d).rest ≠ [] := by simp [Cursor.before, hrest]
    rw [program_of_rest_ne_nil hrest', bind_ok hs', bind_ok hss', Stmt.relineAll_toList_append,
      List.append_assoc]
    rfl

end Reading

/-- A program does not begin with `else`. -/
theorem Derives.ne_else_of_program {w : List Token} (h : Derives (.sym .program) w) :
    ∀ t ∈ w.head?, t.kind ≠ .kwElse := by
  obtain ⟨ws, rfl, hws⟩ := Derives.star_iff.1 (Derives.sym_iff.1 h)
  cases ws with
  | nil => exact fun t ht => nomatch ht
  | cons u ws =>
    obtain ⟨t, u, rfl, ht⟩ := (hws u List.mem_cons_self).begins_declaration
    rintro _ ⟨⟩
    exact Kind.ne_of_opens ht rfl

/-- The reading of two lists of tokens starts as that of the second, with the first in front. -/
theorem Cursor.start_append {first second : List Token} (hfirst : ∀ t ∈ first, ¬ t.isEnd)
    (hsecond : second ≠ []) :
    start (first ++ second) = { start second with rest := first ++ (start second).rest } := by
  have hnot : ∀ t ∈ first, (!t.isEnd) = true := fun t ht => by simpa using hfirst t ht
  have hnone : first.find? (·.isEnd) = none :=
    List.find?_eq_none.2 fun t ht => by simpa using hfirst t ht
  have hlast : (first ++ second).getLast? = second.getLast? := by
    rw [List.getLast?_append, List.getLast?_eq_some_getLast hsecond, Option.some_or]
  unfold start
  rw [List.takeWhile_append_of_pos hnot, List.find?_append, hnone, Option.none_or, hlast]

/-- The tokens of a program on other lines are the program on those lines. -/
theorem Stmt.readAll_map_reline {tokens : List Token} (f : Nat → Nat) {ss : List (Stmt Unit)}
    (hss : Stmt.readAll tokens = .ok ss) :
    Stmt.readAll (tokens.map (Token.reline f)) = .ok (Stmt.relineAll f ss) := by
  obtain ⟨c, hread, hc⟩ := Reading.run_ok_iff.1 hss
  let last : Cursor := ⟨[], (Cursor.start (tokens.map (Token.reline f))).endMark, []⟩
  have hlast : last.endMark.isEnd := Cursor.isEnd_start _
  have hlen := (List.takeWhile_prefix (!·.isEnd) (l := tokens)).length_le
  have hfuel : Reading.fuelFor (tokens.map (Token.reline f)) = Reading.fuelFor tokens := by
    rw [Reading.fuelFor, List.length_map, Reading.fuelFor]
  have hstart : Cursor.start (tokens.map (Token.reline f)) =
      (Cursor.start tokens).before f last := by
    refine congrArg (Cursor.mk · _ []) ?_
    rw [List.takeWhile_map]
    exact (List.append_nil _).symm
  have hend : ∀ k, 1 ≤ k → Reading.program k last = .ok [] last := by
    intro k hk
    obtain ⟨k, rfl⟩ := Nat.exists_eq_succ_of_ne_zero (Nat.ne_zero_of_lt hk)
    exact Reading.program_of_rest_eq_nil rfl
  refine Reading.run_ok_iff.2 ⟨last, ?_, rfl⟩
  rw [hstart, hfuel, ← List.append_nil (Stmt.relineAll f ss)]
  refine Reading.program_before f hlast ?_ hend (Cursor.isEnd_start tokens) ?_ (Nat.le_refl _) ?_
    hread hc
  · intro h
    cases (of_decide_eq_true hlast).symm.trans h
  · change 16 * (tokens.takeWhile (!·.isEnd)).length + 9 ≤ 16 * (tokens.length + 1)
    omega
  · change (tokens.takeWhile (!·.isEnd)).length + 1 ≤ 16 * (tokens.length + 1)
    omega

/-- Behind a program all that does not begin with `else` is read as it is alone. -/
theorem Stmt.readAll_append_eq_map {first second : List Token} {mark : Token}
    (hfirst : ∀ t ∈ first, ¬ t.isEnd) (hmark : mark.isEnd) {ss : List (Stmt Unit)}
    (hss : Stmt.readAll (first ++ [mark]) = .ok ss) (hsecond : second ≠ [])
    (helse : (Cursor.start second).peek.kind ≠ .kwElse) :
    Stmt.readAll (first ++ second) = (Stmt.readAll second).map (ss ++ ·) := by
  obtain ⟨c, hread, hc⟩ := Reading.run_ok_iff.1 hss
  have hrest : (Cursor.start (first ++ [mark])).rest = first := by
    have hnone : [mark].takeWhile (!·.isEnd) = [] := by simp [hmark]
    rw [Cursor.start_append hfirst (List.cons_ne_nil _ _)]
    change first ++ [mark].takeWhile (!·.isEnd) = first
    rw [hnone, List.append_nil]
  have hstart : Cursor.start (first ++ second) =
      (Cursor.start (first ++ [mark])).before id (Cursor.start second) := by
    rw [Cursor.before, hrest, map_reline_id, Cursor.start_append hfirst hsecond]
  have hpos := List.length_pos_iff.2 hsecond
  obtain ⟨ts, d, hts, -⟩ := Reading.program_reads second
  have hjoined : Reading.program (Reading.fuelFor (first ++ second)) (.start (first ++ second)) =
      .ok (ss ++ ts) d := by
    have hsettles := (Reading.program_settles second).2
    rw [hstart, ← Stmt.relineAll_id ss]
    refine Reading.program_before id (Cursor.isEnd_start second) helse
      (fun k hk => (hsettles k hk).trans hts) (Cursor.isEnd_start _) ?_ ?_ ?_ hread hc
    · rw [hrest, Reading.fuelFor, List.length_append]
      omega
    · simp only [Reading.fuelFor, List.length_append, List.length_singleton]
      omega
    · rw [hrest]
      simp only [Reading.fuelFor, List.length_append]
      omega
  rw [Stmt.readAll, Stmt.readAll, Reading.run, Reading.run, hjoined, hts]
  dsimp only
  split <;> rfl

/-- What follows `else` cannot begin. -/
theorem Cursor.peek_start_ne_else {tokens : List Token}
    (h : ∀ t ∈ (tokens.takeWhile (!·.isEnd)).head?, t.kind ≠ .kwElse) :
    (Cursor.start tokens).peek.kind ≠ .kwElse := by
  show ((tokens.takeWhile (!·.isEnd)).headD (Cursor.start tokens).endMark).kind ≠ .kwElse
  cases htokens : tokens.takeWhile (!·.isEnd) with
  | nil => exact fun h => nomatch (of_decide_eq_true (Cursor.isEnd_start tokens)).symm.trans h
  | cons t ts => exact h t (by rw [htokens]; rfl)

/-- **The tokens of two programs are read as both**, whatever lines those of the second are on. -/
theorem Stmt.readAll_append {first second : List Token} {line : Nat} (f : Nat → Nat)
    (hfirst : ∀ t ∈ first, ¬ t.isEnd) (hsecond : second ≠ []) {ss ts : List (Stmt Unit)}
    (hss : Stmt.readAll (first ++ [.endMark line]) = .ok ss) (hts : Stmt.readAll second = .ok ts) :
    Stmt.readAll (first ++ second.map (Token.reline f)) = .ok (ss ++ Stmt.relineAll f ts) := by
  have hts' := Stmt.readAll_map_reline f hts
  have hne : second.map (Token.reline f) ≠ [] := fun h => hsecond (List.map_eq_nil_iff.1 h)
  have helse := Cursor.peek_start_ne_else
    (Derives.ne_else_of_program ((Stmt.readAll_isOk_iff _).1 ⟨_, hts'⟩))
  rw [Stmt.readAll_append_eq_map hfirst rfl hss hne helse, hts']
  rfl

/-- **Reading a program is compositional, errors included.** Let the tokens `first` be a program.
Tokens that do not begin with `else` are read behind them as they are alone: where these are a
program, the statements of both are read, and otherwise exactly the errors of the second. -/
theorem programs_in_a_row {first second : List Token} {mark : Token} {ss : List (Stmt Unit)}
    (hfirst : ∀ t ∈ first, ¬ t.isEnd) (hmark : mark.isEnd) (hss : Stmt.readAll first = .ok ss)
    (helse : ∀ t ∈ second.head?, t.kind ≠ .kwElse) :
    Stmt.readAll (first ++ second ++ [mark]) =
      match Stmt.readAll (second ++ [mark]) with
      | .ok ts => .ok (ss ++ ts)
      | .error errors => .error errors := by
  -- alone, the first program is read as if it had an end mark on the line of its last token
  let line := (first.getLast?.map Token.line).getD 1
  have halone : Cursor.start (first ++ [.endMark line]) = Cursor.start first := by
    have hnot : ∀ t ∈ first, (!t.isEnd) = true := fun t ht => by simpa using hfirst t ht
    have hnone : first.find? (·.isEnd) = none :=
      List.find?_eq_none.2 fun t ht => by simpa using hfirst t ht
    rw [Cursor.start_append hfirst (List.cons_ne_nil _ _)]
    simp only [Cursor.start, List.takeWhile_eq_self_iff.2 hnot, hnone]
    exact congrArg (Cursor.mk · _ []) (List.append_nil first)
  have hss' : Stmt.readAll (first ++ [.endMark line]) = .ok ss :=
    (Reading.run_congr Reading.program_settles halone).trans hss
  have hpeek : (Cursor.start (second ++ [mark])).peek.kind ≠ .kwElse := by
    refine Cursor.peek_start_ne_else fun t ht => ?_
    cases second with
    | nil => simp [hmark] at ht
    | cons u us =>
      rw [List.cons_append, List.takeWhile_cons] at ht
      split at ht
      · exact helse t ht
      · cases ht
  rw [List.append_assoc, Stmt.readAll_append_eq_map hfirst rfl hss' (by simp) hpeek]
  cases Stmt.readAll (second ++ [mark]) <;> rfl

/-- Behind a complete conditional, a stray parenthesis is an error as it is at the start. -/
theorem error_behind_complete_conditional :
    let nilPrinted : List Token :=
      [⟨.kwPrint, "print", 1⟩, ⟨.kwNil, "nil", 1⟩, ⟨.semicolon, ";", 1⟩]
    let conditional : List Token := ⟨.kwIf, "if", 1⟩ :: ⟨.leftParen, "(", 1⟩ ::
      ⟨.kwNil, "nil", 1⟩ :: ⟨.rightParen, ")", 1⟩ :: nilPrinted
    let stray : Token := ⟨.rightParen, ")", 2⟩
    Stmt.readAll conditional = .ok [.cond (.literal .nil) (.print (.literal .nil)) none] ∧
      Stmt.readAll (conditional ++ (stray :: nilPrinted) ++ [.endMark 2]) =
        .error [⟨stray, .expression⟩] := by
  intro nilPrinted conditional stray
  have hread : Stmt.readAll conditional =
      .ok [.cond (.literal .nil) (.print (.literal .nil)) none] := by cbv
  refine ⟨hread, ?_⟩
  rw [programs_in_a_row (by decide) rfl hread (by decide)]
  cbv

end LoxLang
