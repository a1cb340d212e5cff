import LoxLang.Proofs.Grammar.Interactive
import LoxLang.Proofs.Grammar.Position

/-!
# A single expression

What is read as a single expression is read as a line without statements, with the expression at its
end, and nothing else is (`Expr.read_eq_ok_iff_line`). Between the word `print` and a semicolon it
is read as a program of one statement (`Stmt.readAll_printing`).
-/

namespace LoxLang

/-- The tokens up to the first end mark with `print` in front of them and a semicolon behind. -/
def Token.printing (first last : Nat) (tokens : List Token) : List Token :=
  ⟨.kwPrint, "print", first⟩ ::
    (tokens.takeWhile (!·.isEnd) ++ ⟨.semicolon, ";", last⟩ :: tokens.dropWhile (!·.isEnd))

namespace Reading

variable {n m : Nat} {c c' : Cursor} {e : Expr Unit}

/-- What begins like an expression opens no statement. -/
theorem not_atStatement_of_begins {w v : List Token} (hw : Begins Kind.opensExpression w)
    (hrest : c.rest = w ++ v) : ¬ atStatement c := by
  obtain ⟨t, u, rfl, ht, hfun⟩ := hw
  have hpeek : c.peek = t := by
    rw [Cursor.peek, hrest]
    rfl
  intro hat
  unfold atStatement at hat
  rw [hpeek] at hat
  split at hat
  · next hk =>
    obtain ⟨t', u', rfl, ht'⟩ := hfun hk
    have hsecond : c.peekSecond = t' := by
      rw [Cursor.peekSecond, hrest]
      rfl
    rw [hsecond, ht'] at hat
    cases hat
  · next hk => exact Kind.ne_of_opens ht rfl hk
  · next hk _ =>
    unfold Kind.opensStatement at hat
    split at hat
    case h_9 => cases hat
    all_goals
      next h => first | exact hk h | exact Kind.ne_of_opens ht rfl h

/-- An expression up to the end, read without an error, is a line. -/
theorem line_of_assignment (hc : c.endMark.isEnd) (hn : 16 * c.rest.length + 4 ≤ n)
    (he : assignment (n + 1) c = .ok e c') (hrest : c'.rest = []) (herrors : c'.errors = c.errors) :
    line (n + 1) c = .ok ⟨[], some e⟩ c' := by
  have hsound := (soundOn (n + 1)).assignment c hc nofun
  rw [he] at hsound
  cases hsound with
  | ok hahead hw =>
    have hbegins := (hw herrors).1.begins_assignment
    have hat := not_atStatement_of_begins hbegins hahead.rest
    have hne : c.rest ≠ [] := by
      obtain ⟨t, u, rfl, -⟩ := hbegins
      rw [hahead.rest]
      exact List.cons_ne_nil _ _
    have htrailing : trailing? n c = .ok (some e) c' := by
      unfold trailing?
      rw [(assignment_of_le (Nat.le_succ n) hc hn).symm.trans he]
      exact if_pos ⟨List.isEmpty_iff.2 hrest, congrArg List.length herrors⟩
    exact line_of_trailing hne hat htrailing

/-- A line that is read without an error and has no statements is an expression up to the end. -/
theorem assignment_of_line (hc : c.endMark.isEnd) (hn : 16 * c.rest.length + 4 ≤ n)
    (hl : line (n + 1) c = .ok ⟨[], some e⟩ c') (herrors : c'.errors = c.errors) :
    assignment (n + 1) c = .ok e c' ∧ c'.rest = [] := by
  by_cases hrest : c.rest = []
  · rw [line_of_rest_eq_nil hrest] at hl
    cases hl
  -- a declaration would be a statement of the line, or an error
  have hdeclaration : ¬ declarationThenLine n c = .ok ⟨[], some e⟩ c' := by
    intro hl
    obtain ⟨s, c₁, hs, hl⟩ := of_bind_ok hl
    obtain ⟨more, c₂, hmore, hl⟩ := of_bind_ok hl
    obtain ⟨u, hahead⟩ := (soundOn n).declaration.ahead hc hs
    obtain ⟨v, hahead'⟩ := (line_sound n).ahead (hahead.endMark ▸ hc) hmore
    cases s with
    | some s => cases hl
    | none =>
      have hlen := declaration_records hc hs
      have hc₂ : c₂ = c' := (EStateM.Result.ok.inj hl).2
      rw [(hahead.errors_eq hahead' (hc₂ ▸ herrors)).1] at hlen
      exact absurd hlen (Nat.lt_irrefl _)
  by_cases hat : atStatement c
  · rw [line_of_declaration hrest (.inl hat)] at hl
    exact absurd hl hdeclaration
  obtain ⟨e', c₁, htrailing, he, hrest', -⟩ | htrailing | ⟨c₁, htrailing, -⟩ :=
    trailing_cases n c hc
  · rw [line_of_trailing hrest hat htrailing] at hl
    cases hl
    exact ⟨(assignment_of_le (Nat.le_succ n) hc hn).trans he, hrest'⟩
  · rw [line_of_declaration hrest (.inr htrailing)] at hl
    exact absurd hl hdeclaration
  · rw [line_of_trailing_error hrest hat htrailing] at hl
    cases hl

/-- An expression between the word `print` and a semicolon is a statement. -/
theorem statement_of_print {t : Token} (ht : t.kind = .kwPrint) (hpeek : c.peek = t)
    (he : assignment n c.advance = .ok e c') (hsemicolon : c'.peek.kind = .semicolon) :
    statement (n + 1) c = .ok (.print e) c'.advance := by
  have hexpect : expect .semicolon .printEnd c' = .ok c'.peek c'.advance := by
    change (if c'.peek.kind = .semicolon then _ else _ : Reading Token) c' = _
    rw [if_pos hsemicolon]
    rfl
  rw [statement, peek_bind, hpeek]
  simp only [ht]
  have hadvance : advance c = .ok () c.advance := rfl
  exact (bind_ok hadvance).trans ((bind_ok he).trans (bind_ok hexpect))

/-- What opens a statement that is no declaration is a declaration read as that statement. -/
theorem declaration_of_print {t : Token} (ht : t.kind = .kwPrint) (hpeek : c.peek = t)
    {s : Stmt Unit} (hs : statement n c = .ok s c') : declaration (n + 2) c = .ok (some s) c' := by
  have hdeclared : declared (n + 1) c = .ok s c' := by
    rw [declared, peek_bind, hpeek]
    simp only [ht]
    exact hs
  unfold declaration
  rw [hdeclared]

end Reading

/-- **A single expression is a line without statements.** -/
theorem Expr.read_eq_ok_iff_line {tokens : List Token} {e : Expr Unit} :
    Expr.read tokens = .ok e ↔ Line.read tokens = .ok ⟨[], some e⟩ := by
  have hc := Cursor.isEnd_start tokens
  have hfuel : Reading.fuelFor tokens = 16 * tokens.length + 15 + 1 := by
    unfold Reading.fuelFor
    omega
  have hlen : 16 * (Cursor.start tokens).rest.length + 4 ≤ 16 * tokens.length + 15 := by
    have hlen := (List.takeWhile_prefix (!·.isEnd) (l := tokens)).length_le
    change 16 * (tokens.takeWhile (!·.isEnd)).length + 4 ≤ _
    omega
  rw [Expr.read_ok_iff, Line.read, Reading.run_ok_iff, hfuel]
  constructor
  · rintro ⟨c, he, hrest, herrors⟩
    exact ⟨c, Reading.line_of_assignment hc hlen he hrest herrors, herrors⟩
  · rintro ⟨c, hl, herrors⟩
    obtain ⟨he, hrest⟩ := Reading.assignment_of_line hc hlen hl herrors
    exact ⟨c, he, hrest, herrors⟩

/-- **A single expression is printed by a program of one statement.** -/
theorem Stmt.readAll_printing (first last : Nat) {tokens : List Token} {e : Expr Unit}
    (h : Expr.read tokens = .ok e) :
    Stmt.readAll (Token.printing first last tokens) = .ok [.print e] := by
  obtain ⟨c, he, hrest, herrors⟩ := Expr.read_ok_iff.1 h
  let print : Token := ⟨.kwPrint, "print", first⟩
  let semicolon : Token := ⟨.semicolon, ";", last⟩
  let printing := Token.printing first last tokens
  let d : Cursor := ⟨[semicolon], (Cursor.start printing).endMark, []⟩
  have hd : d.endMark.isEnd := Cursor.isEnd_start printing
  have hstart : Cursor.start printing = ⟨print :: ((Cursor.start tokens).before id d).rest,
      d.endMark, []⟩ := by
    refine congrArg (Cursor.mk · _ []) ?_
    rw [Cursor.before, map_reline_id]
    change (print :: _).takeWhile (!·.isEnd) = print :: (tokens.takeWhile (!·.isEnd) ++ [semicolon])
    rw [List.takeWhile_cons_of_pos (by rfl), Reading.takeWhile_insert (by rfl)]
  have hfuel : Reading.fuelFor printing = Reading.fuelFor tokens + 28 + 4 := by
    have hlen := congrArg List.length
      (List.takeWhile_append_dropWhile (p := (!·.isEnd)) (l := tokens))
    simp only [printing, Token.printing, List.length_append, List.length_cons,
      Reading.fuelFor] at hlen ⊢
    omega
  -- behind the word `print` the expression is read in front of the semicolon
  have hcarry := (Reading.carriesOn id (Nat.le_add_right _ 28)).assignment.carry (d := d)
    (Cursor.isEnd_start tokens) hd trivial he herrors fun _ => Kind.endsExpression_semicolon
  rw [Cursor.before_of_nil hrest, Expr.reline_id] at hcarry
  have hstatement := Reading.statement_of_print (t := print) (c := Cursor.start printing)
    (n := Reading.fuelFor tokens + 28) (e := e) rfl (by rw [hstart]; rfl)
    (by rw [hstart]; exact hcarry) rfl
  have hdeclaration := Reading.declaration_of_print (t := print) rfl (by rw [hstart]; rfl)
    hstatement
  refine Reading.run_ok_iff.2 ⟨d.advance, ?_, rfl⟩
  rw [hfuel, Reading.program_of_rest_ne_nil (by rw [hstart]; exact List.cons_ne_nil _ _)]
  exact (Reading.bind_ok hdeclaration).trans (Reading.bind_ok (Reading.program_of_rest_eq_nil rfl))

end LoxLang
