import LoxLang.Proofs.Grammar.Acceptance
import LoxLang.Proofs.Grammar.Fuel
import Mathlib.Data.List.TakeWhile
import Mathlib.Logic.Relation

/-!
# Where reading can get

The readers see the tokens with an end mark behind them (`Cursor.withEnd`). The place of a cursor in
that list is never behind the first end mark (`Cursor.StandsAt`), so the tokens that are looked at
are there. A reading gets on by two moves only, one token further in front of a token, or an error
more (`Cursor.Move`), and so does all reading (`Reading.moves`). A declaration that begins in front
of the end mark ends further on, also where an error stops it. What is read depends on the tokens
through the first end mark alone, and on no fuel (`reading_ends_inside`).

What is printed of an error names the token that it was noticed at (`Token.report`).
-/

namespace LoxLang

/-- What is printed of an error at a token: the line of the token, then its text or that it ends the
tokens, and then the message. -/
def Token.report (t : Token) (message : String) : String :=
  "[line " ++ toString t.line ++ "] Error" ++
    (if t.kind = .eof then " at end" else " at '" ++ t.lexeme ++ "'") ++ ": " ++ message

theorem GrammarError.text_diagnostic (e : GrammarError) :
    e.diagnostic.text = e.token.report e.cause.message := by
  simp [diagnostic, Diagnostic.text, Diagnostic.staticText, Token.place, Token.isEnd, Token.report]

namespace Cursor

/-- The index of the first end mark, or of the one that is put behind the last token. -/
def endIndex (tokens : List Token) : Nat := tokens.findIdx (·.isEnd)

/-- The tokens with an end mark behind them, if the last is none. -/
def withEnd (tokens : List Token) : List Token :=
  if tokens.getLast?.any (·.isEnd) then tokens
  else tokens ++ [.endMark ((tokens.getLast?.map Token.line).getD 1)]

/-- The tokens through the first end mark. -/
def throughEnd (tokens : List Token) : List Token := (withEnd tokens).take (endIndex tokens + 1)

/-- The cursor stands at index `i` of the tokens with their end mark: the tokens from there to the
first end mark are left. -/
structure StandsAt (tokens : List Token) (i : Nat) (c : Cursor) : Prop where
  le : i ≤ endIndex tokens
  rest : c.rest = ((withEnd tokens).take (endIndex tokens)).drop i
  endMark : (withEnd tokens)[endIndex tokens]? = some c.endMark

/-- A move of a cursor: one token further, if there is one, or one more error. -/
inductive Move : Cursor → Cursor → Prop
  | advance {c : Cursor} : c.rest ≠ [] → Move c c.advance
  | record (c : Cursor) (e : GrammarError) : Move c (c.record e)

/-- Any number of moves. -/
def Moves : Cursor → Cursor → Prop := Relation.ReflTransGen Move

/-! ## Places -/

section Places

variable {tokens : List Token} {i : Nat} {c c' : Cursor}

theorem take_withEnd (tokens : List Token) :
    (withEnd tokens).take (endIndex tokens) = tokens.takeWhile (!·.isEnd) := by
  have hwhile : tokens.takeWhile (!·.isEnd) = tokens.take (endIndex tokens) := by
    rw [List.takeWhile_eq_take_findIdx_not]
    simp only [Bool.not_not]
    rfl
  rw [hwhile, withEnd]
  split
  · rfl
  · exact List.take_append_of_le_length List.findIdx_le_length

theorem getElem?_withEnd (tokens : List Token) :
    (withEnd tokens)[endIndex tokens]? = some (start tokens).endMark := by
  change _ = some ((tokens.find? (·.isEnd)).getD _)
  rw [List.find?_eq_getElem?_findIdx]
  change _ = some (tokens[endIndex tokens]?.getD _)
  rcases Nat.lt_or_ge (endIndex tokens) tokens.length with hlt | hge
  · have hleft : (withEnd tokens)[endIndex tokens]? = tokens[endIndex tokens]? := by
      unfold withEnd
      split
      · rfl
      · exact List.getElem?_append_left hlt
    rw [hleft, List.getElem?_eq_getElem hlt]
    rfl
  · -- no end mark is there, so the last token is none and one is put behind it
    have hlen : endIndex tokens = tokens.length := Nat.le_antisymm List.findIdx_le_length hge
    have hnone := List.findIdx_eq_length.1 hlen
    have hlast : ¬ tokens.getLast?.any (·.isEnd) := by
      intro h
      obtain ⟨t, ht, hend⟩ := (Option.any_eq_true _ _).1 h
      rw [hnone t (List.mem_of_getLast? ht)] at hend
      cases hend
    rw [withEnd, if_neg hlast, hlen, List.getElem?_eq_none (Nat.le_refl _)]
    simp

theorem standsAt_start (tokens : List Token) : StandsAt tokens 0 (start tokens) :=
  ⟨Nat.zero_le _, (take_withEnd tokens).symm, getElem?_withEnd tokens⟩

theorem endIndex_lt_length (tokens : List Token) :
    endIndex tokens < (withEnd tokens).length :=
  (List.getElem?_eq_some_iff.1 (getElem?_withEnd tokens)).1

namespace StandsAt

theorem isEnd (h : StandsAt tokens i c) : c.endMark.isEnd := by
  have hmark := h.endMark.symm.trans (getElem?_withEnd tokens)
  rw [Option.some.inj hmark]
  exact isEnd_start tokens

theorem length_rest (h : StandsAt tokens i c) : c.rest.length = endIndex tokens - i := by
  have hlen := endIndex_lt_length tokens
  rw [h.rest, List.length_drop, List.length_take]
  omega

theorem rest_eq_nil_iff (h : StandsAt tokens i c) : c.rest = [] ↔ i = endIndex tokens := by
  have hle := h.le
  rw [← List.length_eq_zero_iff, h.length_rest]
  omega

/-- The tokens in front are those of the list, from the place on. -/
theorem getElem?_rest (h : StandsAt tokens i c) {k : Nat} (hk : i + k < endIndex tokens) :
    c.rest[k]? = (withEnd tokens)[i + k]? := by
  rw [h.rest, List.getElem?_drop, List.getElem?_take_of_lt hk]

/-- The token in front is the one at the place. -/
theorem peek_eq (h : StandsAt tokens i c) : (withEnd tokens)[i]? = some c.peek := by
  rcases Nat.lt_or_eq_of_le h.le with hlt | rfl
  · have hhead := h.getElem?_rest (k := 0) hlt
    have hlen : 0 < c.rest.length := by rw [h.length_rest]; omega
    rw [Nat.add_zero, List.getElem?_eq_getElem hlen] at hhead
    rw [← hhead, peek, List.headD_eq_head?_getD, List.head?_eq_getElem?,
      List.getElem?_eq_getElem hlen]
    rfl
  · rw [h.endMark, peek, h.rest_eq_nil_iff.2 rfl]
    rfl

theorem record (h : StandsAt tokens i c) (e : GrammarError) : StandsAt tokens i (c.record e) :=
  ⟨h.le, h.rest, h.endMark⟩

theorem advance (h : StandsAt tokens i c) (hi : i < endIndex tokens) :
    StandsAt tokens (i + 1) c.advance := by
  refine ⟨hi, ?_, h.endMark⟩
  change c.rest.tail = _
  rw [h.rest, List.tail_drop]

/-- The token behind the one in front is the one at the next place. -/
theorem peekSecond_eq (h : StandsAt tokens i c) (hi : i < endIndex tokens) :
    (withEnd tokens)[i + 1]? = some c.peekSecond :=
  (h.advance hi).peek_eq

/-- A move leads to the same place or to the next. -/
theorem step (h : StandsAt tokens i c) (hmove : Move c c') :
    StandsAt tokens i c' ∨ i < endIndex tokens ∧ StandsAt tokens (i + 1) c' := by
  cases hmove with
  | advance hrest =>
    have hi := Nat.lt_of_le_of_ne h.le fun hi => hrest (h.rest_eq_nil_iff.2 hi)
    exact .inr ⟨hi, h.advance hi⟩
  | record e => exact .inl (h.record e)

/-- Moves lead nowhere but further on in the list, and not behind the end mark. -/
theorem moves (h : StandsAt tokens i c) (hmoves : Moves c c') :
    ∃ j, i ≤ j ∧ StandsAt tokens j c' := by
  induction hmoves with
  | refl => exact ⟨i, Nat.le_refl i, h⟩
  | tail _ hmove ih =>
    obtain ⟨j, hij, hj⟩ := ih
    rcases hj.step hmove with hj | ⟨-, hj⟩
    · exact ⟨j, hij, hj⟩
    · exact ⟨j + 1, Nat.le_succ_of_le hij, hj⟩

end StandsAt

end Places

/-! ## Moves -/

theorem moves_advance (c : Cursor) : Moves c c.advance := by
  by_cases hrest : c.rest = []
  · have hsame : c.advance = c := by
      rw [advance, hrest]
      cases c
      cases hrest
      rfl
    rw [hsame]
    exact .refl
  · exact .single (.advance hrest)

theorem moves_skipFrom (t : Token) (ts : List Token) (endMark : Token)
    (errors : List GrammarError) :
    Moves ⟨t :: ts, endMark, errors⟩ ⟨skipFrom t ts, endMark, errors⟩ := by
  have hfirst : ∀ t ts, Move ⟨t :: ts, endMark, errors⟩ ⟨ts, endMark, errors⟩ :=
    fun t ts => .advance (List.cons_ne_nil t ts)
  induction ts generalizing t with
  | nil => exact .single (hfirst t [])
  | cons t' ts ih =>
    rw [skipFrom]
    split
    · exact .single (hfirst t _)
    · exact .head (hfirst t _) (ih t')

/-- Recording an error and skipping is done by moves. -/
theorem moves_resume (c : Cursor) (e : GrammarError) : Moves c (c.resume e) := by
  obtain ⟨rest, endMark, errors⟩ := c
  refine .head (.record _ e) ?_
  cases rest with
  | nil => exact .refl
  | cons t ts => exact moves_skipFrom t ts endMark (e :: errors)

end Cursor

namespace Reading

variable {α : Type}

/-- Where a reading ends. -/
def cursorOf : EStateM.Result Stop Cursor α → Cursor
  | .ok _ c => c
  | .error _ c => c

/-- The reading gets by moves to where it ends. -/
def ByMoves (r : Reading α) : Prop := ∀ c : Cursor, c.Moves (cursorOf (r c))

theorem byMoves_congruence : Congruence fun r _ => ByMoves r where
  pure _ _ := .refl
  throw _ _ := .refl
  outOfFuel _ _ := .refl
  get hk c := hk c c
  advance c := c.moves_advance
  note _ c := .single (.record c _)
  bind := by
    intro α β r _ k _ hr hk c
    have hr := hr c
    cases hrc : r c with
    | ok a c₁ =>
      rw [hrc] at hr
      rw [bind_ok hrc]
      exact hr.trans (hk a c₁)
    | error stop c₁ =>
      rw [hrc] at hr
      rw [bind_error hrc]
      exact hr
  recovered := by
    intro α r _ hr c
    have hr := hr c
    unfold Reading.recovered
    rcases hrc : r c with ⟨a, c₁⟩ | ⟨e | _, c₁⟩ <;> rw [hrc] at hr
    · exact hr
    · exact hr.trans (c₁.moves_resume e)
    · exact hr
  attempted := by
    intro α r _ hr c
    have hr := hr c
    unfold Reading.attempted
    rcases hrc : r c with ⟨a, c₁⟩ | ⟨e | _, c₁⟩ <;> rw [hrc] at hr
    · dsimp only
      split
      · exact hr
      · exact .refl
    · exact .refl
    · exact hr

/-- All reading is done by moves, whatever the fuel. -/
theorem moves (n : Nat) : RelatesOn (fun r _ => ByMoves r) n n :=
  byMoves_congruence.relatesOn (Nat.le_refl n)

/-! ## Declarations -/

/-- Where a declaration comes to no statement, an error is recorded. -/
theorem declaration_records {n : Nat} {c c' : Cursor} (hc : c.endMark.isEnd)
    (hs : declaration n c = .ok none c') : c.errors.length < c'.errors.length := by
  have hsound := (soundOn n).declaration c hc nofun
  rw [hs] at hsound
  cases hsound with
  | ok hahead hP =>
    refine Nat.lt_of_le_of_ne hahead.errors.length_le fun hlen => ?_
    obtain ⟨s, hs, -⟩ := hP (hahead.errors.eq_of_length hlen).symm
    cases hs

/-- A declaration in front of a token ends behind it, unless its fuel is too little. -/
theorem declaration_ends {tokens : List Token} {i : Nat} {c : Cursor}
    (hc : c.StandsAt tokens i) (hi : i < Cursor.endIndex tokens) (n : Nat) :
    (∃ s c' j, declaration n c = .ok s c' ∧ (s = none → c.errors.length < c'.errors.length) ∧
      i < j ∧ c'.StandsAt tokens j) ∨
    n < 16 * (Cursor.endIndex tokens - i) + 8 ∧ ∃ c', declaration n c = .error .outOfFuel c' := by
  have hrest : c.rest ≠ [] := fun h => Nat.ne_of_lt hi (hc.rest_eq_nil_iff.1 h)
  -- on enough fuel it ends further on
  have hends : ∀ m, 16 * (Cursor.endIndex tokens - i) + 8 ≤ m →
      ∃ s c' j, declaration m c = .ok s c' ∧ (s = none → c.errors.length < c'.errors.length) ∧
        i < j ∧ c'.StandsAt tokens j := by
    intro m hm
    obtain ⟨s, c', hs, -, hlen⟩ :=
      declaration_passes hc.isEnd hrest (n := m) (by rw [hc.length_rest]; exact hm)
    have hmoves := (moves m).declaration c
    rw [hs] at hmoves
    obtain ⟨j, -, (hj : c'.StandsAt tokens j)⟩ := hc.moves hmoves
    rw [hc.length_rest, hj.length_rest] at hlen
    exact ⟨s, c', j, hs, fun hnone => declaration_records hc.isEnd (hnone ▸ hs), by omega, hj⟩
  rcases Nat.lt_or_ge n (16 * (Cursor.endIndex tokens - i) + 8) with hlt | hge
  · rcases (extends_congruence.relatesOn (Nat.le_of_lt hlt)).declaration c with hout | hsame
    · exact .inr ⟨hlt, hout⟩
    · obtain ⟨s, c', j, hs, hj⟩ := hends _ (Nat.le_refl _)
      exact .inl ⟨s, c', j, hsame.symm.trans hs, hj⟩
  · exact .inl (hends n hge)

/-! ## The tokens behind the end mark -/

/-- The reading of all tokens ends, whatever fuel there is beyond that for the tokens. -/
def Settles (r : Nat → Reading α) (tokens : List Token) : Prop :=
  Ended (r (fuelFor tokens) (.start tokens)) ∧
    ∀ n, fuelFor tokens ≤ n → r n (.start tokens) = r (fuelFor tokens) (.start tokens)

/-- A reading that halts on fuel for the tokens and ends in the same way on more settles. -/
theorem Settles.of_halts {r : Nat → Reading α} (hr : ∀ {n m}, n ≤ m → Extends (r n) (r m))
    {d : Nat} (hhalts : ∀ {n m}, 16 * m + 9 ≤ n → Halts Anywhere m d (r n)) (tokens : List Token) :
    Settles r tokens := by
  have hlen : 16 * (Cursor.start tokens).rest.length + 9 ≤ fuelFor tokens := by
    have hlen := (List.takeWhile_prefix (!·.isEnd) (l := tokens)).length_le
    change 16 * (tokens.takeWhile (!·.isEnd)).length + 9 ≤ 16 * (tokens.length + 1)
    omega
  have hended := (hhalts hlen).ended (Cursor.isEnd_start tokens) trivial (Nat.le_refl _)
  exact ⟨hended, fun n hn => (hr hn).eq_of_ended hended⟩

theorem program_settles (tokens : List Token) : Settles program tokens :=
  .of_halts extends_congruence.program program_halts tokens

theorem line_settles (tokens : List Token) : Settles line tokens :=
  .of_halts extends_congruence.line line_halts tokens

theorem assignment_settles (tokens : List Token) : Settles assignment tokens :=
  .of_halts (fun h => (extends_congruence.relatesOn h).assignment)
    (fun h => (haltsOn _).assignment (by omega)) tokens

/-- Readings that settle come to the same where they start from the same cursor. -/
theorem Settles.congr {r : Nat → Reading α} (hr : ∀ tokens, Settles r tokens)
    {first second : List Token} (hstart : Cursor.start first = Cursor.start second) :
    r (fuelFor first) (.start first) = r (fuelFor second) (.start second) := by
  rcases Nat.le_total (fuelFor first) (fuelFor second) with h | h
  · rw [← (hr first).2 _ h, hstart]
  · rw [← (hr second).2 _ h, hstart]

end Reading

/-- The tokens through the first end mark are those in front of it and the mark. -/
theorem Cursor.throughEnd_eq (tokens : List Token) :
    throughEnd tokens = tokens.takeWhile (!·.isEnd) ++ [(start tokens).endMark] := by
  rw [throughEnd, List.take_add_one, take_withEnd, getElem?_withEnd]
  rfl

/-- What stands behind the first end mark makes no difference to where reading starts. -/
theorem Cursor.start_throughEnd (tokens behind : List Token) :
    start (throughEnd tokens ++ behind) = start tokens := by
  have hsplit : throughEnd tokens ++ behind =
      tokens.takeWhile (!·.isEnd) ++ (start tokens).endMark :: behind := by
    rw [throughEnd_eq, List.append_assoc]
    rfl
  have hnot : ∀ t ∈ tokens.takeWhile (!·.isEnd), (!t.isEnd) = true := by
    intro t ht
    have hnot := List.mem_takeWhile_imp ht
    exact hnot
  have hend := isEnd_start tokens
  have hrest : (throughEnd tokens ++ behind).takeWhile (!·.isEnd) =
      tokens.takeWhile (!·.isEnd) := by
    rw [hsplit, List.takeWhile_append_of_pos hnot, List.takeWhile_cons_of_neg (by simp [hend]),
      List.append_nil]
  have hmark : (throughEnd tokens ++ behind).find? (·.isEnd) = some (start tokens).endMark := by
    have hnone : (tokens.takeWhile (!·.isEnd)).find? (·.isEnd) = none :=
      List.find?_eq_none.2 fun t ht => by simpa using hnot t ht
    rw [hsplit, List.find?_append, hnone, Option.none_or, List.find?_cons_of_pos hend]
  change Cursor.mk _ (Option.getD _ _) [] = Cursor.mk _ _ []
  rw [hrest, hmark]
  rfl

theorem Reading.run_congr {α : Type} {r : Nat → Reading α} (hr : ∀ tokens, Settles r tokens)
    {first second : List Token} (hstart : Cursor.start first = Cursor.start second) :
    run r first = run r second := by
  rw [run, run, Settles.congr hr hstart]

theorem Expr.read_congr {first second : List Token}
    (hstart : Cursor.start first = Cursor.start second) : Expr.read first = Expr.read second := by
  rw [Expr.read, Expr.read, Reading.Settles.congr Reading.assignment_settles hstart]

/-- **Reading ends inside its tokens**, whatever they are.

- Each of the three ways to read all tokens ends, and more fuel changes nothing.
- It starts at the first token and gets on by moves, as every reading of the grammar does. A move
  leads to the same place or to the next, and not behind the first end mark; the tokens that a
  cursor looks at are those at its place and at the next.
- A declaration in front of a token ends further on, with a statement or with an error recorded.
- What is read is the same whatever stands behind the first end mark. -/
theorem reading_ends_inside (tokens : List Token) :
    (Reading.Settles Reading.program tokens ∧ Reading.Settles Reading.line tokens ∧
      Reading.Settles Reading.assignment tokens) ∧
    ((Cursor.start tokens).StandsAt tokens 0 ∧
      (∀ n, Reading.ByMoves (Reading.program n) ∧ Reading.ByMoves (Reading.line n) ∧
        (∀ count, Reading.ByMoves (Reading.parameters n count)) ∧
        Reading.RelatesOn (fun r _ => Reading.ByMoves r) n n) ∧
      ∀ i c, Cursor.StandsAt tokens i c →
        (∀ c', c.Move c' → c'.StandsAt tokens i ∨
          i < Cursor.endIndex tokens ∧ c'.StandsAt tokens (i + 1)) ∧
        (∀ c', c.Moves c' → ∃ j, i ≤ j ∧ j ≤ Cursor.endIndex tokens ∧ c'.StandsAt tokens j) ∧
        (Cursor.withEnd tokens)[i]? = some c.peek ∧
        (i < Cursor.endIndex tokens → (Cursor.withEnd tokens)[i + 1]? = some c.peekSecond)) ∧
    (∀ i c, Cursor.StandsAt tokens i c → i < Cursor.endIndex tokens → ∀ n,
      (∃ s c' j, Reading.declaration n c = .ok s c' ∧
        (s = none → c.errors.length < c'.errors.length) ∧ i < j ∧ c'.StandsAt tokens j) ∨
      n < 16 * (Cursor.endIndex tokens - i) + 8 ∧
        ∃ c', Reading.declaration n c = .error .outOfFuel c') ∧
    ∀ behind, Stmt.readAll (Cursor.throughEnd tokens ++ behind) = Stmt.readAll tokens ∧
      Line.read (Cursor.throughEnd tokens ++ behind) = Line.read tokens ∧
      Expr.read (Cursor.throughEnd tokens ++ behind) = Expr.read tokens := by
  refine ⟨⟨Reading.program_settles tokens, Reading.line_settles tokens,
    Reading.assignment_settles tokens⟩, ⟨Cursor.standsAt_start tokens, fun n => ?_, ?_⟩,
    fun i c hc hi n => Reading.declaration_ends hc hi n, fun behind => ?_⟩
  · have h := Reading.byMoves_congruence
    exact ⟨h.program (Nat.le_refl n), h.line (Nat.le_refl n),
      fun count => Reading.RelatesOn.parameters h (Nat.le_refl n) count, Reading.moves n⟩
  · intro i c hc
    refine ⟨fun c' hmove => hc.step hmove, fun c' hmoves => ?_, hc.peek_eq, hc.peekSecond_eq⟩
    obtain ⟨j, hij, hj⟩ := hc.moves hmoves
    exact ⟨j, hij, hj.le, hj⟩
  · have hstart := Cursor.start_throughEnd tokens behind
    exact ⟨Reading.run_congr Reading.program_settles hstart,
      Reading.run_congr Reading.line_settles hstart, Expr.read_congr hstart⟩

end LoxLang
