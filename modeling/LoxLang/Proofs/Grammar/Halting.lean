import LoxLang.Proofs.Grammar.Soundness

/-!
# The fuel of a reading

Between two tokens only a few readings are nested, so sixteen calls for each token are more than are
ever made. A reading halts on so many tokens (`Reading.Halts`) if it does not use up its fuel there,
wherever it stops; it also says how many tokens it has passed at least when it returns a result, so
that what follows has fewer of them left. Each reading has a small constant for the calls it makes
before the next token (`Reading.HaltsOn`), and the fuel that the readers compute covers it
(`Reading.program_halts`, `Reading.line_halts`). A declaration in front of a token always passes at
least one, also where an error stops it (`Reading.HaltsOn.declaration`).
-/

namespace LoxLang

namespace Reading

variable {α β : Type}

/-- No place in particular. -/
def Anywhere (_ : Cursor) : Prop := True

/-- In front of at most `m` tokens, where `p` holds, the reading does not use up its fuel, and at
least `d` of the `m` are behind it when it returns a result. -/
def Halts (p : Cursor → Prop) (m d : Nat) (r : Reading α) : Prop :=
  ∀ c : Cursor, c.endMark.isEnd → p c → c.rest.length ≤ m →
    match r c with
    | .ok _ c' => c'.endMark.isEnd ∧ c'.rest.length + d ≤ m
    | .error (.error _) c' => c'.endMark.isEnd ∧ c'.rest.length ≤ m
    | .error .outOfFuel _ => False

namespace Halts

variable {p q : Cursor → Prop} {m d d' : Nat} {r : Reading α}

theorem mono (h : Halts p m d r) (hd : d' ≤ d) : Halts p m d' r := by
  intro c hc hp hm
  have h := h c hc hp hm
  split at h
  · exact ⟨h.1, by omega⟩
  · exact h
  · exact h

theorem weaken (h : Halts q m d r) (hpq : ∀ c, c.endMark.isEnd → p c → q c) : Halts p m d r :=
  fun c hc hp => h c hc (hpq c hc hp)

/-- A reading that halts everywhere halts where `p` holds. -/
theorem anywhere (h : Halts Anywhere m d r) : Halts p m d r := h.weaken fun _ _ _ => trivial

theorem pure {a : α} : Halts p m 0 (pure a) := fun _ hc _ hm => ⟨hc, hm⟩

theorem throw (e : GrammarError) : Halts p m d (throw (.error e) : Reading α) :=
  fun _ hc _ hm => ⟨hc, hm⟩

/-- One reading after another: the second has fewer tokens in front of it, and what is still to be
passed. -/
theorem bind {k : α → Reading β} (hr : Halts p m d r)
    (hk : ∀ a, d ≤ m → Halts Anywhere (m - d) (d' - d) (k a)) : Halts p m d' (r >>= k) := by
  intro c hc hp hm
  have h := hr c hc hp hm
  change match EStateM.bind r k c with
    | .ok _ c' => c'.endMark.isEnd ∧ c'.rest.length + d' ≤ m
    | .error (.error _) c' => c'.endMark.isEnd ∧ c'.rest.length ≤ m
    | .error .outOfFuel _ => False
  unfold EStateM.bind
  rcases hr : r c with ⟨a, c'⟩ | ⟨_ | _, c'⟩
  · rw [hr] at h
    have hk := hk a (by omega) c' h.1 trivial (by omega)
    dsimp only
    split at hk
    · exact ⟨hk.1, by omega⟩
    · exact ⟨hk.1, by omega⟩
    · exact hk
  · rw [hr] at h
    exact h
  · rw [hr] at h
    exact h

/-- What follows a look at the token in front may rely on it. -/
theorem peek {k : Token → Reading β} (hk : ∀ t, Halts (·.peek = t) m d (k t)) :
    Halts p m d (Reading.peek >>= k) :=
  fun c hc _ => hk c.peek c hc rfl

theorem get {k : Cursor → Reading β} (hk : ∀ c, p c → Halts (· = c) m d (k c)) :
    Halts p m d (MonadState.get >>= k) :=
  fun c hc hp => hk c hp c hc rfl

/-- The token in front is passed. -/
theorem advance {t : Token} (hend : t.kind ≠ .eof) : Halts (·.peek = t) m 1 Reading.advance := by
  intro c hc ht hm
  have hlen := congrArg List.length (Cursor.rest_eq_cons hc ht hend)
  refine ⟨hc, ?_⟩
  change c.rest.tail.length + 1 ≤ m
  rw [List.length_cons] at hlen
  omega

theorem fail (cause : GrammarCause) : Halts p m d (Reading.fail cause : Reading α) :=
  peek fun _ => throw _

theorem note (cause : GrammarCause) : Halts p m 0 (Reading.note cause) :=
  fun _ hc _ hm => ⟨hc, hm⟩

theorem expect {kind : Kind} [kind.IsToken] (cause : GrammarCause) :
    Halts p m 1 (Reading.expect kind cause) := by
  refine peek fun t => ?_
  split
  · next hkind => exact bind (advance (hkind ▸ Kind.IsToken.ne_eof)) fun _ _ => pure
  · exact fail cause

theorem accept {kind : Kind} [kind.IsToken] :
    Halts p m 0 (Reading.accept kind) := by
  refine peek fun t => ?_
  split
  · next hkind => exact bind (advance (hkind ▸ Kind.IsToken.ne_eof)) fun _ _ => pure
  · exact pure

theorem unlessAt (kind : Kind) (h : Halts Anywhere m 0 r) :
    Halts p m 0 (Reading.unlessAt kind r) := by
  refine peek fun t => ?_
  split
  · exact pure
  · rw [map_eq_pure_bind]
    exact bind h.anywhere fun a _ => pure

/-- A reading with its result wrapped. -/
theorem map {f : α → β} (h : Halts p m d r) : Halts p m d (f <$> r) := by
  rw [map_eq_pure_bind]
  exact bind h fun a _ => by rw [Nat.sub_self]; exact pure

end Halts

/-- All readings on the given fuel halt where it is enough for the tokens, and pass a token. -/
structure HaltsOn (n : Nat) : Prop where
  assignment : ∀ {m}, 16 * m + 4 ≤ n → Halts Anywhere m 1 (assignment n)
  operators : ∀ {m} l, 16 * m + 3 ≤ n → Halts Anywhere m 1 (operators n l)
  operatorsAfter : ∀ {m} l left, 16 * m + 1 ≤ n → Halts Anywhere m 0 (operatorsAfter n l left)
  unary : ∀ {m}, 16 * m + 2 ≤ n → Halts Anywhere m 1 (unary n)
  suffixes : ∀ {m} e, 16 * m + 1 ≤ n → Halts Anywhere m 0 (suffixes n e)
  arguments : ∀ {m} count, 16 * m + 5 ≤ n → Halts Anywhere m 1 (arguments n count)
  primary : ∀ {m}, 16 * m + 1 ≤ n → Halts Anywhere m 1 (primary n)
  routine : ∀ {m} role, 16 * m + 2 ≤ n → Halts Anywhere m 1 (routine n role)
  block : ∀ {m}, 16 * m + 9 ≤ n → Halts Anywhere m 1 (block n)
  declaration : ∀ {m}, 16 * m + 8 ≤ n → Halts (·.rest ≠ []) m 1 (declaration n)
  declared : ∀ {m}, 16 * m + 7 ≤ n → Halts Anywhere m 1 (declared n)
  classDeclared : ∀ {m}, 16 * m + 1 ≤ n → Halts Anywhere m 1 (classDeclared n)
  methods : ∀ {m}, 16 * m + 2 ≤ n → Halts Anywhere m 0 (methods n)
  named : ∀ {m} role, 16 * m + 1 ≤ n → Halts Anywhere m 1 (named n role)
  variableDeclared : ∀ {m}, 16 * m + 1 ≤ n → Halts Anywhere m 1 (variableDeclared n)
  expressionStatement : ∀ {m}, 16 * m + 5 ≤ n → Halts Anywhere m 1 (expressionStatement n)
  forStatement : ∀ {m}, 16 * m + 1 ≤ n → Halts Anywhere m 1 (forStatement n)
  statement : ∀ {m}, 16 * m + 6 ≤ n → Halts Anywhere m 1 (statement n)

/-- Skipping passes the token in front. -/
theorem length_skipFaulty_le (ts : List Token) : (skipFaulty ts).length ≤ ts.length - 1 := by
  cases ts with
  | nil => exact Nat.le_refl _
  | cons t ts => exact (skipFrom_suffix t ts).length_le

theorem parameters_halts (n m count : Nat) (h : 16 * m + 1 ≤ n) :
    Halts Anywhere m 1 (parameters n count) := by
  induction n generalizing m count with
  | zero => omega
  | succ n ih =>
    have hrest : Halts Anywhere m 1 (do
        let p ← expect .identifier .parameterName
        if ← accept .comma then return p :: (← parameters n (count + 1)) else return [p]) := by
      refine .bind (.expect _) fun p _ => .bind .accept fun comma _ => ?_
      cases comma with
      | true => exact .bind (ih (m - 1) _ (by omega)) fun ps _ => .pure
      | false => exact .pure
    rw [parameters]
    split
    · exact .bind (.note _) fun _ _ => hrest
    · exact hrest

namespace HaltsOn

variable {n m : Nat}

theorem assignment_succ (ih : HaltsOn n) (h : 16 * m + 4 ≤ n + 1) :
    Halts Anywhere m 1 (Reading.assignment (n + 1)) := by
  refine .bind (ih.operators 0 (by omega)) fun e _ => .peek fun equals => ?_
  split
  · next heq =>
    refine .bind (.advance (by simp [heq])) fun _ _ => ?_
    refine .bind (ih.assignment (by omega)) fun value _ => ?_
    cases e with
    | ref s => exact .pure
    | get object name => exact .pure
    | _ => exact .throw _
  · exact .pure

theorem operators_succ (ih : HaltsOn n) (l : Nat) (h : 16 * m + 3 ≤ n + 1) :
    Halts Anywhere m 1 (Reading.operators (n + 1) l) :=
  .bind (ih.unary (by omega)) fun left _ => ih.operatorsAfter l left (by omega)

theorem operatorsAfter_succ (ih : HaltsOn n) (l : Nat) (left : Expr Unit)
    (h : 16 * m + 1 ≤ n + 1) : Halts Anywhere m 0 (Reading.operatorsAfter (n + 1) l left) := by
  refine .peek fun op => ?_
  split
  · exact .pure
  · next k hk =>
    split
    · refine .bind (.advance fun h => by rw [h] at hk; cases hk) fun _ _ => ?_
      refine .bind (ih.operators (k + 1) (by omega)) fun right _ => ?_
      exact ih.operatorsAfter l _ (by omega)
    · exact .pure

theorem unary_succ (ih : HaltsOn n) (h : 16 * m + 2 ≤ n + 1) :
    Halts Anywhere m 1 (Reading.unary (n + 1)) := by
  have hprefix : ∀ op : Token, op.kind ≠ .eof →
      Halts (·.peek = op) m 1 (do Reading.advance; return Expr.unary op (← Reading.unary n)) :=
    fun op hop => .bind (.advance hop) fun _ _ => .bind (ih.unary (by omega)) fun e _ => .pure
  refine .peek fun op => ?_
  split
  · next hop => exact hprefix op (by simp [hop])
  · next hop => exact hprefix op (by simp [hop])
  · exact .bind (ih.primary (by omega)).anywhere fun e _ => ih.suffixes e (by omega)

theorem suffixes_succ (ih : HaltsOn n) (e : Expr Unit) (h : 16 * m + 1 ≤ n + 1) :
    Halts Anywhere m 0 (Reading.suffixes (n + 1) e) := by
  refine .peek fun t => ?_
  split
  · next ht =>
    refine .bind (.advance (by simp [ht])) fun _ _ => ?_
    refine .bind (.unlessAt _ ((ih.arguments 0 (by omega)).mono (Nat.zero_le _))) fun args _ => ?_
    refine .bind (.expect _) fun paren _ => ih.suffixes _ (by omega)
  · next ht =>
    refine .bind (.advance (by simp [ht])) fun _ _ => ?_
    refine .bind (.expect _) fun name _ => ih.suffixes _ (by omega)
  · exact .pure

theorem arguments_succ (ih : HaltsOn n) (count : Nat) (h : 16 * m + 5 ≤ n + 1) :
    Halts Anywhere m 1 (Reading.arguments (n + 1) count) := by
  have hrest : Halts Anywhere m 1 (do
      let e ← Reading.assignment n
      if ← accept .comma then return e :: (← Reading.arguments n (count + 1)) else return [e]) := by
    refine .bind (ih.assignment (by omega)) fun e _ => .bind .accept fun comma _ => ?_
    cases comma with
    | true => exact .bind (ih.arguments _ (by omega)) fun es _ => .pure
    | false => exact .pure
  rw [Reading.arguments]
  split
  · exact .bind (.note _) fun _ _ => hrest
  · exact hrest

theorem primary_succ (ih : HaltsOn n) (h : 16 * m + 1 ≤ n + 1) :
    Halts Anywhere m 1 (Reading.primary (n + 1)) := by
  refine .peek fun t => ?_
  split
  case h_6 ht =>
    refine .bind (.advance (by simp [ht])) fun _ _ => .bind (.expect _) fun _ _ => ?_
    exact .bind (.expect _) fun method _ => .pure
  case h_9 ht =>
    refine .bind (.advance (by simp [ht])) fun _ _ => .bind (.expect _) fun _ _ => ?_
    exact .bind (ih.routine _ (by omega)) fun r _ => .pure
  case h_10 ht =>
    refine .bind (.advance (by simp [ht])) fun _ _ => ?_
    exact .bind (ih.assignment (by omega)) fun e _ => .bind (.expect _) fun _ _ => .pure
  case h_11 => exact .fail _
  all_goals
    next ht => exact .bind (.advance (by simp [ht])) fun _ _ => .pure

theorem routine_succ (ih : HaltsOn n) (role : Role) (h : 16 * m + 2 ≤ n + 1) :
    Halts Anywhere m 1 (Reading.routine (n + 1) role) := by
  refine .bind (.unlessAt _ ((parameters_halts n m 0 (by omega)).mono (Nat.zero_le _)))
    fun params _ => ?_
  refine .bind (.expect _) fun _ _ => .bind (.expect _) fun _ _ => ?_
  exact .bind (ih.block (by omega)) fun body _ => .pure

theorem block_succ (ih : HaltsOn n) (h : 16 * m + 9 ≤ n + 1) :
    Halts Anywhere m 1 (Reading.block (n + 1)) := by
  refine .peek fun t => ?_
  split
  · next ht => exact .bind (.advance (by simp [ht])) fun _ _ => .pure
  · exact .fail _
  · next hend =>
    have hdeclaration := (ih.declaration (m := m) (by omega)).weaken
      fun c hc (ht : c.peek = t) => by
      rw [Cursor.rest_eq_cons hc ht hend]
      exact List.cons_ne_nil _ _
    exact .bind hdeclaration fun s _ => .bind (ih.block (by omega)) fun ss _ => .pure

/-- A declaration passes a token where it returns a statement, and where it has to skip. -/
theorem declaration_succ (ih : HaltsOn n) (h : 16 * m + 8 ≤ n + 1) :
    Halts (·.rest ≠ []) m 1 (Reading.declaration (n + 1)) := by
  intro c hc hrest hm
  have hpos := List.length_pos_iff.2 hrest
  have h := ih.declared (m := m) (by omega) c hc trivial hm
  unfold Reading.declaration
  rcases hr : Reading.declared n c with ⟨s, c'⟩ | ⟨e | _, c'⟩
  · rw [hr] at h
    exact h
  · rw [hr] at h
    refine ⟨h.1, ?_⟩
    change (skipFaulty c'.rest).length + 1 ≤ m
    have hskip := length_skipFaulty_le c'.rest
    omega
  · rw [hr] at h
    exact h

theorem declared_succ (ih : HaltsOn n) (h : 16 * m + 7 ≤ n + 1) :
    Halts Anywhere m 1 (Reading.declared (n + 1)) := by
  refine .peek fun t => ?_
  split
  · next ht =>
    exact .bind (.advance (by simp [ht])) fun _ _ =>
      (ih.classDeclared (by omega)).mono (Nat.zero_le _)
  · next ht =>
    refine .get fun c hc => ?_
    split
    · have hadvance := (Halts.advance (m := m) (t := t) (by simp [ht])).weaken
        fun c' _ (h : c' = c) => h ▸ hc
      exact .bind hadvance fun _ _ => .bind (ih.named _ (by omega)) fun r _ => .pure
    · exact (ih.statement (by omega)).anywhere
  · next ht =>
    exact .bind (.advance (by simp [ht])) fun _ _ =>
      (ih.variableDeclared (by omega)).mono (Nat.zero_le _)
  · exact (ih.statement (by omega)).anywhere

theorem classDeclared_succ (ih : HaltsOn n) (h : 16 * m + 1 ≤ n + 1) :
    Halts Anywhere m 1 (Reading.classDeclared (n + 1)) := by
  refine .bind (.expect _) fun name _ => .bind .accept fun less _ => ?_
  have hrest : ∀ {k : Nat} (superclass : Option Token), 16 * k + 2 ≤ n → Halts Anywhere k 0 (do
      let _ ← expect .leftBrace .classBrace
      let methods ← Reading.methods n
      let _ ← expect .rightBrace .classEnd
      return Stmt.classDecl name (superclass.map (⟨(), ·⟩)) methods) := by
    intro k superclass hk
    refine .bind (.expect _) fun _ _ => .bind (ih.methods (by omega)) fun ms _ => ?_
    exact .bind (.expect _) fun _ _ => .pure
  cases less with
  | true => exact .bind (.map (.expect _)) fun superclass _ => hrest superclass (by omega)
  | false => exact .bind .pure fun superclass _ => hrest superclass (by omega)

theorem methods_succ (ih : HaltsOn n) (h : 16 * m + 2 ≤ n + 1) :
    Halts Anywhere m 0 (Reading.methods (n + 1)) := by
  refine .peek fun t => ?_
  split
  · exact .pure
  · exact .pure
  · refine .bind (ih.named _ (by omega)).anywhere fun r _ => ?_
    exact .bind (ih.methods (by omega)) fun ms _ => .pure

theorem named_succ (ih : HaltsOn n) (role : Role) (h : 16 * m + 1 ≤ n + 1) :
    Halts Anywhere m 1 (Reading.named (n + 1) role) := by
  refine .bind (.expect _) fun name _ => .bind (.expect _) fun _ _ => ?_
  exact .bind (ih.routine _ (by omega)) fun r _ => .pure

theorem variableDeclared_succ (ih : HaltsOn n) (h : 16 * m + 1 ≤ n + 1) :
    Halts Anywhere m 1 (Reading.variableDeclared (n + 1)) := by
  refine .bind (.expect _) fun name _ => .bind .accept fun equal _ => ?_
  cases equal with
  | true =>
    refine .bind (.map (ih.assignment (by omega))) fun init _ => ?_
    exact .bind (.expect _) fun _ _ => .pure
  | false => exact .bind .pure fun init _ => .bind (.expect _) fun _ _ => .pure

theorem expressionStatement_succ (ih : HaltsOn n) (h : 16 * m + 5 ≤ n + 1) :
    Halts Anywhere m 1 (Reading.expressionStatement (n + 1)) :=
  .bind (ih.assignment (by omega)) fun e _ => .bind (.expect _) fun _ _ => .pure

theorem forStatement_succ (ih : HaltsOn n) (h : 16 * m + 1 ≤ n + 1) :
    Halts Anywhere m 1 (Reading.forStatement (n + 1)) := by
  have hrest : ∀ {k : Nat} (init : Option (Stmt Unit)), 16 * k + 6 ≤ n → Halts Anywhere k 0 (do
      let test ← unlessAt .semicolon (Reading.assignment n)
      let _ ← expect .semicolon .forCondition
      let step ← unlessAt .rightParen (Reading.assignment n)
      let _ ← expect .rightParen .forEnd
      let body ← Reading.statement n
      return Stmt.forLoop init test step body) := by
    intro k init hk
    refine .bind (.unlessAt _ ((ih.assignment (by omega)).mono (Nat.zero_le _))) fun test _ => ?_
    refine .bind (.expect _) fun _ _ => ?_
    refine .bind (.unlessAt _ ((ih.assignment (by omega)).mono (Nat.zero_le _))) fun step _ => ?_
    refine .bind (.expect _) fun _ _ => ?_
    exact .bind (ih.statement (by omega)) fun body _ => .pure
  refine .bind (.expect _) fun _ _ => .peek fun t => ?_
  split
  · next ht =>
    refine .bind (.advance (by simp [ht])) fun _ _ => ?_
    exact .bind .pure fun init _ => hrest init (by omega)
  · next ht =>
    refine .bind (.advance (by simp [ht])) fun _ _ => ?_
    exact .bind (.map (ih.variableDeclared (by omega))) fun init _ => hrest init (by omega)
  · exact .bind (Halts.map (ih.expressionStatement (by omega))).anywhere
      fun init _ => hrest init (by omega)

theorem statement_succ (ih : HaltsOn n) (h : 16 * m + 6 ≤ n + 1) :
    Halts Anywhere m 1 (Reading.statement (n + 1)) := by
  refine .peek fun t => ?_
  split
  · next ht =>
    exact .bind (.advance (by simp [ht])) fun _ _ =>
      (ih.forStatement (by omega)).mono (Nat.zero_le _)
  · next ht =>
    refine .bind (.advance (by simp [ht])) fun _ _ => .bind (.expect _) fun _ _ => ?_
    refine .bind (ih.assignment (by omega)) fun test _ => .bind (.expect _) fun _ _ => ?_
    refine .bind (ih.statement (by omega)) fun yes _ => .bind .accept fun other _ => ?_
    cases other with
    | true => exact .bind (.map (ih.statement (by omega))) fun no _ => .pure
    | false => exact .bind .pure fun no _ => .pure
  · next ht =>
    refine .bind (.advance (by simp [ht])) fun _ _ => .bind (.expect _) fun _ _ => ?_
    refine .bind (ih.assignment (by omega)) fun test _ => .bind (.expect _) fun _ _ => ?_
    exact .bind (ih.statement (by omega)) fun body _ => .pure
  · next ht =>
    refine .bind (.advance (by simp [ht])) fun _ _ => ?_
    refine .bind (.unlessAt _ ((ih.assignment (by omega)).mono (Nat.zero_le _))) fun value _ => ?_
    exact .bind (.expect _) fun _ _ => .pure
  · next ht =>
    refine .bind (.advance (by simp [ht])) fun _ _ => ?_
    exact .bind (ih.block (by omega)) fun body _ => .pure
  · next ht =>
    refine .bind (.advance (by simp [ht])) fun _ _ => ?_
    exact .bind (ih.assignment (by omega)) fun e _ => .bind (.expect _) fun _ _ => .pure
  · exact (ih.expressionStatement (by omega)).anywhere

end HaltsOn

/-- Every reading halts, by induction on the fuel. -/
theorem haltsOn (n : Nat) : HaltsOn n := by
  induction n with
  | zero => constructor <;> intros <;> omega
  | succ n ih =>
    exact ⟨ih.assignment_succ, ih.operators_succ, ih.operatorsAfter_succ, ih.unary_succ,
      ih.suffixes_succ, ih.arguments_succ, ih.primary_succ, ih.routine_succ, ih.block_succ,
      ih.declaration_succ, ih.declared_succ, ih.classDeclared_succ, ih.methods_succ, ih.named_succ,
      ih.variableDeclared_succ, ih.expressionStatement_succ, ih.forStatement_succ,
      ih.statement_succ⟩

/-- A declaration records its errors; it does not stop with one. -/
theorem declaration_ne_error {n : Nat} {c c' : Cursor} {error : GrammarError} :
    declaration n c ≠ .error (.error error) c' := by
  intro h
  cases n with
  | zero => cases h
  | succ n =>
    unfold declaration at h
    split at h <;> cases h

/-- On fuel for its tokens a declaration is passed. -/
theorem declaration_passes {n : Nat} {c : Cursor} (hc : c.endMark.isEnd) (hrest : c.rest ≠ [])
    (hn : 16 * c.rest.length + 8 ≤ n) :
    ∃ s c', declaration n c = .ok s c' ∧ c'.endMark.isEnd ∧ c'.rest.length + 1 ≤ c.rest.length := by
  have h := (haltsOn n).declaration hn c hc hrest (Nat.le_refl _)
  rcases hs : declaration n c with ⟨s, c'⟩ | ⟨e | _, c'⟩
  · rw [hs] at h
    exact ⟨s, c', rfl, h⟩
  · exact absurd hs declaration_ne_error
  · rw [hs] at h
    exact h.elim

/-- A program is read on fuel for its tokens. -/
theorem program_halts {n m : Nat} (h : 16 * m + 9 ≤ n) : Halts Anywhere m 0 (program n) := by
  induction n generalizing m with
  | zero => omega
  | succ n ih =>
    refine .get fun c _ => ?_
    split
    · exact .pure
    · next hrest =>
      have hdeclaration := ((haltsOn n).declaration (m := m) (by omega)).weaken
        fun c' _ (hc' : c' = c) => hc' ▸ fun h => hrest (List.isEmpty_iff.2 h)
      exact .bind hdeclaration fun s _ => .bind (ih (by omega)) fun ss _ => .pure

/-! ## Lines -/

/-- Looking for an expression at the end either finds one that is read without an error, or leaves
the cursor where it is, or uses up the fuel. -/
theorem trailing_cases (n : Nat) (c : Cursor) (hc : c.endMark.isEnd) :
    (∃ e c', trailing? n c = .ok (some e) c' ∧ assignment n c = .ok e c' ∧ c'.rest = [] ∧
      c'.errors = c.errors) ∨
    trailing? n c = .ok none c ∨
    ∃ c', trailing? n c = .error .outOfFuel c' ∧ assignment n c = .error .outOfFuel c' := by
  have h := (soundOn n).assignment c hc nofun
  unfold trailing?
  generalize assignment n c = x at h
  cases h with
  | @ok e c' w hahead =>
    dsimp only
    split
    · next hend =>
      have herrors := (hahead.errors.eq_of_length hend.2.symm).symm
      exact .inl ⟨e, c', rfl, rfl, List.isEmpty_iff.1 hend.1, herrors⟩
    · exact .inr (.inl rfl)
  | error => exact .inr (.inl rfl)
  | outOfFuel => exact .inr (.inr ⟨_, rfl, rfl⟩)

/-- The rest of a line, of which a declaration stands in front. -/
def declarationThenLine (n : Nat) : Reading (Line Unit) := do
  let s ← declaration n
  let more ← line n
  return ⟨s.toList ++ more.statements, more.trailing⟩

theorem line_of_rest_eq_nil {n : Nat} {c : Cursor} (h : c.rest = []) :
    line (n + 1) c = .ok ⟨[], none⟩ c := by
  obtain ⟨rest, e, errors⟩ := c
  cases h
  rfl

theorem line_of_declaration {n : Nat} {c : Cursor} (hrest : c.rest ≠ [])
    (h : atStatement c ∨ trailing? n c = .ok none c) :
    line (n + 1) c = declarationThenLine n c := by
  have hempty : ¬ c.rest.isEmpty := fun h => hrest (List.isEmpty_iff.1 h)
  change (if c.rest.isEmpty then _ else _ : Reading (Line Unit)) c = _
  rw [if_neg hempty]
  split
  · rfl
  · next hat => exact bind_ok (h.resolve_left hat)

theorem line_of_trailing {n : Nat} {c c' : Cursor} (hrest : c.rest ≠ [])
    (hat : ¬ atStatement c) {e : Expr Unit} (h : trailing? n c = .ok (some e) c') :
    line (n + 1) c = .ok ⟨[], some e⟩ c' := by
  have hempty : ¬ c.rest.isEmpty := fun h => hrest (List.isEmpty_iff.1 h)
  change (if c.rest.isEmpty then _ else _ : Reading (Line Unit)) c = _
  rw [if_neg hempty, if_neg hat]
  exact bind_ok h

theorem line_of_trailing_error {n : Nat} {c c' : Cursor} (hrest : c.rest ≠ [])
    (hat : ¬ atStatement c) {stop : Stop} (h : trailing? n c = .error stop c') :
    line (n + 1) c = .error stop c' := by
  have hempty : ¬ c.rest.isEmpty := fun h => hrest (List.isEmpty_iff.1 h)
  change (if c.rest.isEmpty then _ else _ : Reading (Line Unit)) c = _
  rw [if_neg hempty, if_neg hat]
  exact bind_error h

/-- A line is read on fuel for its tokens. -/
theorem line_halts {n m : Nat} (h : 16 * m + 9 ≤ n) : Halts Anywhere m 0 (line n) := by
  induction n generalizing m with
  | zero => omega
  | succ n ih =>
    intro c hc _ hm
    by_cases hrest : c.rest = []
    · rw [line_of_rest_eq_nil hrest]
      exact ⟨hc, hm⟩
    have hdeclaration : Halts (·.rest ≠ []) m 0 (declarationThenLine n) :=
      .bind ((haltsOn n).declaration (by omega)) fun s _ => .bind (ih (by omega)) fun l _ => .pure
    by_cases hat : atStatement c
    · rw [line_of_declaration hrest (.inl hat)]
      exact hdeclaration c hc hrest hm
    have hassignment := (haltsOn n).assignment (m := m) (by omega) c hc trivial hm
    obtain ⟨e, c', htrailing, he, -⟩ | htrailing | ⟨c', -, he⟩ := trailing_cases n c hc
    · rw [line_of_trailing hrest hat htrailing]
      rw [he] at hassignment
      exact ⟨hassignment.1, by omega⟩
    · rw [line_of_declaration hrest (.inr htrailing)]
      exact hdeclaration c hc hrest hm
    · rw [he] at hassignment
      exact hassignment.elim

end Reading

end LoxLang
