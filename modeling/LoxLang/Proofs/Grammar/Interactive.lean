import LoxLang.Proofs.Grammar.Acceptance
import LoxLang.Proofs.Grammar.Fuel
import LoxLang.Proofs.Grammar.Transport

/-!
# Lines and programs

A line of an interactive session is read like a program, except that an expression may stand at its
end without a semicolon. A line and a program that are read from the same cursor go on in step, and
record the same errors, up to the expression at the end (`Reading.program_of_line`). There the line
stops, while the program reads the expression once more as a statement and misses the semicolon.
With a semicolon behind it, it is a statement (`Reading.program_of_line_semicolon`).
-/

namespace LoxLang

/-- The cursor of a program where that of a line is `c`: if an expression stands at the end of the
line, the program has missed the semicolon behind it. -/
def Cursor.closed (c : Cursor) : Option (Expr Unit) → Cursor
  | none => c
  | some _ => c.record ⟨c.peek, .expressionEnd⟩

namespace Reading

variable {n m : Nat} {c c' : Cursor} {e : Expr Unit}

theorem program_of_rest_eq_nil (h : c.rest = []) : program (n + 1) c = .ok [] c := by
  obtain ⟨rest, e, errors⟩ := c
  cases h
  rfl

theorem program_of_rest_ne_nil (h : c.rest ≠ []) :
    program (n + 1) c = (do
      let s ← declaration n
      let ss ← program n
      return s.toList ++ ss) c := by
  have hempty : ¬ c.rest.isEmpty := fun h' => h (List.isEmpty_iff.1 h')
  change (if c.rest.isEmpty then _ else _ : Reading (List (Stmt Unit))) c = _
  rw [if_neg hempty]

/-! ## The expression at the end -/

theorem peek_bind {α : Type} (k : Token → Reading α) : (peek >>= k) c = k c.peek c := rfl

theorem statement_of_not_atStatement (h : ¬ atStatement c) :
    statement (n + 1) c = expressionStatement n c := by
  unfold atStatement at h
  rw [statement, peek_bind]
  generalize c.peek = t at h
  refine congrFun (?_ : _ = expressionStatement n) c
  split
  case h_7 => rfl
  all_goals
    next hk => simp [hk, Kind.opensStatement] at h

/-- What does not open a statement is read as an expression and a semicolon. -/
theorem declared_of_not_atStatement (h : ¬ atStatement c) :
    declared (n + 2) c = expressionStatement n c := by
  rw [← statement_of_not_atStatement h, declared, peek_bind]
  unfold atStatement at h
  generalize c.peek = t at h
  by_cases hfun : t.kind = .kwFun
  · simp only [hfun, decide_eq_true_eq] at h ⊢
    change (if c.peekSecond.kind = .identifier then _ else _ : Reading (Stmt Unit)) c = _
    rw [if_neg h]
  · refine congrFun (?_ : _ = statement (n + 1)) c
    split
    case h_2 hk => exact absurd hk hfun
    case h_4 => rfl
    all_goals
      next hk => simp [hk, Kind.opensStatement] at h

theorem expect_of_ne {kind : Kind} {cause : GrammarCause} (h : c.peek.kind ≠ kind) :
    expect kind cause c = .error (.error ⟨c.peek, cause⟩) c := by
  change (if c.peek.kind = kind then _ else _ : Reading Token) c = _
  rw [if_neg h]
  rfl

/-- An expression that ends the input is no statement: the semicolon is missed. -/
theorem declaration_of_expression (hat : ¬ atStatement c) (he : assignment n c = .ok e c')
    (hend : c'.endMark.isEnd) (hrest : c'.rest = []) :
    declaration (n + 4) c = .ok none (c'.record ⟨c'.peek, .expressionEnd⟩) := by
  have hpeek : c'.peek.kind ≠ .semicolon := by
    rw [Cursor.peek, hrest, List.headD_nil, of_decide_eq_true hend]
    simp
  have hdeclared : declared (n + 3) c = .error (.error ⟨c'.peek, .expressionEnd⟩) c' := by
    rw [declared_of_not_atStatement hat, expressionStatement]
    exact (bind_ok he).trans (bind_error (expect_of_ne hpeek))
  unfold declaration
  rw [hdeclared]
  obtain ⟨rest, endMark, errors⟩ := c'
  cases hrest
  rfl

/-- An expression with a semicolon behind it is a statement. -/
theorem declaration_of_expression_semicolon (hat : ¬ atStatement c)
    (he : assignment n c = .ok e c') (hsemicolon : c'.peek.kind = .semicolon) :
    declaration (n + 4) c = .ok (some (.expression e)) c'.advance := by
  have hexpect : expect .semicolon .expressionEnd c' = .ok c'.peek c'.advance := by
    change (if c'.peek.kind = .semicolon then _ else _ : Reading Token) c' = _
    rw [if_pos hsemicolon]
    rfl
  have hdeclared : declared (n + 3) c = .ok (.expression e) c'.advance := by
    rw [declared_of_not_atStatement hat, expressionStatement]
    exact (bind_ok he).trans (bind_ok hexpect)
  unfold declaration
  rw [hdeclared]

/-! ## Lines in step with programs -/

/-- **A program is read in step with a line**, and misses the semicolon behind an expression at the
end of the line. -/
theorem program_of_line (hc : c.endMark.isEnd) (hn : 16 * c.rest.length + 9 ≤ n) :
    ∃ l c', line n c = .ok l c' ∧ c'.rest = [] ∧ c'.endMark = c.endMark ∧
      program n c = .ok l.statements (c'.closed l.trailing) := by
  induction n generalizing c with
  | zero => omega
  | succ n ih =>
    by_cases hrest : c.rest = []
    · exact ⟨_, c, line_of_rest_eq_nil hrest, hrest, rfl, program_of_rest_eq_nil hrest⟩
    have hpos := List.length_pos_iff.2 hrest
    rw [program_of_rest_ne_nil hrest]
    have hdeclaration : (atStatement c ∨ trailing? n c = .ok none c) → ∃ l c',
        line (n + 1) c = .ok l c' ∧ c'.rest = [] ∧ c'.endMark = c.endMark ∧ (do
          let s ← declaration n
          let ss ← program n
          return s.toList ++ ss) c = .ok l.statements (c'.closed l.trailing) := by
      intro h
      rw [line_of_declaration hrest h]
      obtain ⟨s, c₁, hs, hc₁, hlen⟩ := declaration_passes hc hrest (n := n) (by omega)
      obtain ⟨w, hahead⟩ := (soundOn n).declaration.ahead hc hs
      obtain ⟨l, c', hl, hrest', hend, hprogram⟩ := ih hc₁ (by omega)
      refine ⟨⟨s.toList ++ l.statements, l.trailing⟩, c', ?_, hrest', hend.trans hahead.endMark, ?_⟩
      · exact (bind_ok hs).trans (bind_ok hl)
      · exact (bind_ok hs).trans (bind_ok hprogram)
    by_cases hat : atStatement c
    · exact hdeclaration (.inl hat)
    obtain ⟨e, c', htrailing, he, hrest', -⟩ | htrailing | ⟨c', -, he⟩ :=
      trailing_cases n c hc
    · obtain ⟨w, hahead⟩ := (soundOn n).assignment.ahead hc he
      refine ⟨⟨[], some e⟩, c', line_of_trailing hrest hat htrailing, hrest', hahead.endMark, ?_⟩
      obtain ⟨k, rfl⟩ : ∃ k, n = k + 4 := ⟨n - 4, by omega⟩
      have he' := (assignment_of_le (Nat.le_add_right k 4) hc (by omega)).symm.trans he
      have hmissed := declaration_of_expression hat he' (hahead.endMark ▸ hc) hrest'
      exact (bind_ok hmissed).trans (bind_ok (program_of_rest_eq_nil hrest'))
    · exact hdeclaration (.inr htrailing)
    · have hhalts := (haltsOn n).assignment (m := c.rest.length) (by omega) c hc trivial
        (Nat.le_refl _)
      rw [he] at hhalts
      exact hhalts.elim

/-- A program is read to the end of its tokens, whatever errors it has. -/
theorem program_reads (tokens : List Token) :
    ∃ ss c, program (fuelFor tokens) (.start tokens) = .ok ss c ∧ c.rest = [] := by
  have hlen := (List.takeWhile_prefix (!·.isEnd) (l := tokens)).length_le
  have hfuel : 16 * (Cursor.start tokens).rest.length + 9 ≤ fuelFor tokens := by
    change 16 * (tokens.takeWhile (!·.isEnd)).length + 9 ≤ 16 * (tokens.length + 1)
    omega
  obtain ⟨l, c, -, hrest, -, hprogram⟩ := program_of_line (Cursor.isEnd_start tokens) hfuel
  refine ⟨_, _, hprogram, ?_⟩
  cases l.trailing <;> exact hrest

/-! ## Lines with a semicolon behind them -/

/-- Only the token behind the word `fun` can make the difference. -/
theorem atStatement_of_peek (hpeek : c'.peek.kind = c.peek.kind)
    (hsecond : c'.peekSecond.kind = .identifier → c.peekSecond.kind = .identifier)
    (h : atStatement c') : atStatement c := by
  unfold atStatement at h ⊢
  rw [hpeek] at h
  split at h
  · exact decide_eq_true (hsecond (of_decide_eq_true h))
  · rfl
  · exact h

theorem not_atStatement_before {f : Nat → Nat} {d : Cursor} (h : ¬ atStatement c)
    (hrest : c.rest ≠ []) (hd : d.peek.kind ≠ .identifier) : ¬ atStatement (c.before f d) := by
  obtain ⟨rest, endMark, errors⟩ := c
  intro h'
  refine h (atStatement_of_peek ?_ ?_ h') <;> rcases rest with _ | ⟨t, _ | ⟨t', ts⟩⟩
  · contradiction
  · rfl
  · rfl
  · contradiction
  · exact fun hsecond => absurd hsecond hd
  · exact id

/-- **With a semicolon behind it a line is a program**: the expression at its end is a statement. -/
theorem program_of_line_semicolon {l : Line Unit} (hc : c.endMark.isEnd) (hl : line n c = .ok l c')
    (herrors : c'.errors = c.errors) (he : l.trailing = some e) {d : Cursor} {t : Token}
    (hd : d.endMark.isEnd) (ht : t.kind = .semicolon) (hrest : d.rest = [t]) (hm : n + 4 ≤ m) :
    program m (c.before id d) = .ok (l.statements ++ [.expression e]) d.advance := by
  have hpeek : d.peek.kind = .semicolon := by
    rw [Cursor.peek, hrest]
    exact ht
  induction n generalizing c l m with
  | zero => cases hl
  | succ n ih =>
    obtain ⟨m, rfl⟩ : ∃ k, m = k + 1 := ⟨m - 1, by omega⟩
    have hbefore : (c.before id d).rest ≠ [] := by
      rw [Cursor.before, hrest]
      simp
    rw [program_of_rest_ne_nil hbefore]
    by_cases hnil : c.rest = []
    · rw [line_of_rest_eq_nil hnil] at hl
      cases hl
      cases he
    have hdeclaration : declarationThenLine n c = .ok l c' → (do
        let s ← declaration m
        let ss ← program m
        return s.toList ++ ss) (c.before id d) =
          .ok (l.statements ++ [.expression e]) d.advance := by
      intro hl
      obtain ⟨s, c₁, hs, hl⟩ := of_bind_ok hl
      obtain ⟨more, c₂, hmore, hl⟩ := of_bind_ok hl
      cases hl
      obtain ⟨w, hahead⟩ := (soundOn n).declaration.ahead hc hs
      have hc₁ : c₁.endMark.isEnd := hahead.endMark ▸ hc
      obtain ⟨v, hahead'⟩ := (line_sound n).ahead hc₁ hmore
      obtain ⟨he₁, he₂⟩ := hahead.errors_eq hahead' herrors
      have hread := (carriesOn id (n := n) (m := m) (by omega)).declaration.carry hc hd trivial hs
        he₁ fun _ => by rw [hpeek]; simp
      rw [show s.map (Stmt.reline id) = s by cases s <;> simp [Stmt.reline_id]] at hread
      refine (bind_ok hread).trans ((bind_ok (ih hc₁ hmore he₂ he (by omega))).trans ?_)
      rw [List.append_assoc]
      rfl
    by_cases hat : atStatement c
    · exact hdeclaration (line_of_declaration hnil (.inl hat) ▸ hl)
    obtain ⟨e', c₁, htrailing, he', hrest', herrors'⟩ | htrailing | ⟨c₁, hout, -⟩ :=
      trailing_cases n c hc
    · rw [line_of_trailing hnil hat htrailing] at hl
      cases hl
      cases he
      obtain ⟨k, rfl⟩ : ∃ k, m = k + 4 := ⟨m - 4, by omega⟩
      have hread := (carriesOn id (n := n) (m := k) (by omega)).assignment.carry hc hd trivial he'
        herrors' fun _ => by rw [hpeek]; exact Kind.endsExpression_semicolon
      rw [Expr.reline_id, Cursor.before_of_nil hrest'] at hread
      have hat' := not_atStatement_before (f := id) hat hnil (d := d) (by rw [hpeek]; simp)
      have hstatement := declaration_of_expression_semicolon hat' hread hpeek
      have hend : d.advance.rest = [] := by rw [Cursor.advance, hrest]; rfl
      exact (bind_ok hstatement).trans (bind_ok (program_of_rest_eq_nil hend))
    · exact hdeclaration (line_of_declaration hnil (.inr htrailing) ▸ hl)
    · rw [line_of_trailing_error hnil hat hout] at hl
      cases hl

theorem takeWhile_insert {α : Type} {p : α → Bool} {t : α} (ht : p t) (ts : List α) :
    (ts.takeWhile p ++ t :: ts.dropWhile p).takeWhile p = ts.takeWhile p ++ [t] := by
  induction ts with
  | nil => simp [ht]
  | cons a ts ih =>
    by_cases ha : p a
    · simp [ha, ih]
    · simp [ha, ht]

/-- One more token in front of the first end mark. -/
theorem start_insert (tokens : List Token) {t : Token} (ht : ¬ t.isEnd) :
    ∃ endMark : Token, endMark.isEnd ∧
      Cursor.start (tokens.takeWhile (!·.isEnd) ++ t :: tokens.dropWhile (!·.isEnd)) =
        (Cursor.start tokens).before id ⟨[t], endMark, []⟩ := by
  have hinsert := takeWhile_insert (p := (!·.isEnd)) (t := t) (by simpa using ht) tokens
  let inserted := tokens.takeWhile (!·.isEnd) ++ t :: tokens.dropWhile (!·.isEnd)
  refine ⟨(Cursor.start inserted).endMark, Cursor.isEnd_start inserted, ?_⟩
  rw [Cursor.before, map_reline_id]
  exact congrArg (Cursor.mk · _ []) hinsert

end Reading

/-- The error of a program that misses a semicolon at the end. -/
def Cursor.missing (c : Cursor) : GrammarError := ⟨c.endMark, .expressionEnd⟩

/-- What a line and a program that are read from the same tokens come to. -/
theorem readAll_of_line (tokens : List Token) :
    ∃ l c, Reading.line (Reading.fuelFor tokens) (.start tokens) = .ok l c ∧
      Line.read tokens = (if c.errors.isEmpty then .ok l else .error c.errors.reverse) ∧
      Stmt.readAll tokens = match l.trailing with
        | none => if c.errors.isEmpty then .ok l.statements else .error c.errors.reverse
        | some _ => .error (c.errors.reverse ++ [(Cursor.start tokens).missing]) := by
  have hlen := (List.takeWhile_prefix (!·.isEnd) (l := tokens)).length_le
  have hfuel : 16 * (Cursor.start tokens).rest.length + 9 ≤ Reading.fuelFor tokens := by
    change 16 * (tokens.takeWhile (!·.isEnd)).length + 9 ≤ 16 * (tokens.length + 1)
    omega
  obtain ⟨l, c, hl, hrest, hend, hprogram⟩ :=
    Reading.program_of_line (Cursor.isEnd_start tokens) hfuel
  refine ⟨l, c, hl, by rw [Line.read, Reading.run, hl], ?_⟩
  rw [Stmt.readAll, Reading.run, hprogram]
  cases l.trailing with
  | none => rfl
  | some e =>
    have hpeek : c.peek = (Cursor.start tokens).endMark := by
      rw [Cursor.peek, hrest, ← hend]
      rfl
    change Except.error (List.reverse (⟨c.peek, .expressionEnd⟩ :: c.errors)) = _
    rw [List.reverse_cons, hpeek]
    rfl

/-- With a semicolon in front of the end mark the expression at the end is the last statement. -/
theorem Stmt.readAll_insert {tokens : List Token} {ss : List (Stmt Unit)} {e : Expr Unit}
    (h : Line.read tokens = .ok ⟨ss, some e⟩) {t : Token} (ht : t.kind = .semicolon) :
    Stmt.readAll (tokens.takeWhile (!·.isEnd) ++ t :: tokens.dropWhile (!·.isEnd)) =
      .ok (ss ++ [.expression e]) := by
  obtain ⟨c, hl, hc⟩ := Reading.run_ok_iff.1 h
  obtain ⟨endMark, hend, hstart⟩ := Reading.start_insert tokens
    (show ¬ t.isEnd by simp [Token.isEnd, ht])
  have hfuel : Reading.fuelFor (tokens.takeWhile (!·.isEnd) ++ t :: tokens.dropWhile (!·.isEnd)) =
      Reading.fuelFor tokens + 16 := by
    have hlen := congrArg List.length
      (List.takeWhile_append_dropWhile (p := (!·.isEnd)) (l := tokens))
    simp only [List.length_append, List.length_cons, Reading.fuelFor] at hlen ⊢
    omega
  have hread := Reading.program_of_line_semicolon (m := Reading.fuelFor tokens + 16)
    (Cursor.isEnd_start tokens) hl hc rfl (d := ⟨[t], endMark, []⟩) hend ht rfl (by omega)
  rw [← hstart, ← hfuel] at hread
  exact Reading.run_ok_iff.2 ⟨_, hread, rfl⟩

/-- **The readers of lines and of programs agree.** A line without an expression at its end is a
program, and a program is such a line. An expression at the end makes up the one error of the
program, and with a semicolon in front of the end mark it is the last statement. Where there are
errors they are the same, but for that one. -/
theorem line_agrees_with_program (tokens : List Token) :
    (∀ ss, Stmt.readAll tokens = .ok ss ↔ Line.read tokens = .ok ⟨ss, none⟩) ∧
    (∀ ss e, Line.read tokens = .ok ⟨ss, some e⟩ →
      Stmt.readAll tokens = .error [(Cursor.start tokens).missing] ∧
      ∀ t : Token, t.kind = .semicolon →
        Stmt.readAll (tokens.takeWhile (!·.isEnd) ++ t :: tokens.dropWhile (!·.isEnd)) =
          .ok (ss ++ [.expression e])) ∧
    ∀ es, Line.read tokens = .error es → ∃ l c,
      Reading.line (Reading.fuelFor tokens) (.start tokens) = .ok l c ∧
      Stmt.readAll tokens =
        .error (es ++ if l.trailing.isSome then [(Cursor.start tokens).missing] else []) := by
  obtain ⟨⟨ss, e⟩, c, hl, hline, hprogram⟩ := readAll_of_line tokens
  refine ⟨fun ss' => ?_, fun ss' e' h => ⟨?_, fun t ht => Stmt.readAll_insert h ht⟩,
    fun es h => ⟨_, c, hl, ?_⟩⟩
  · rw [hline, hprogram]
    cases e <;> dsimp only <;> split <;> simp
  · rw [hline] at h
    split at h
    · next hc =>
      cases h
      rw [hprogram, List.isEmpty_iff.1 hc]
      rfl
    · cases h
  · rw [hline] at h
    split at h
    · cases h
    · next hc =>
      cases h
      rw [hprogram]
      cases e with
      | none => exact (if_neg hc).trans (congrArg _ (List.append_nil _).symm)
      | some e => rfl

end LoxLang
