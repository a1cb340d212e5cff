import LoxLang.Proofs.Grammar.Position

/-!
# The order of grammar errors

Reading goes forward, so an error that is noticed at the token in front is on no earlier line than
those before it. There is one error that is noticed late: that an assignment has an invalid target
shows at its equals sign, but only behind its value, in which other errors may be recorded. So of
two errors the later one is on an earlier line only if it is about such a target
(`GrammarError.Precedes`).

A reading keeps the errors of its cursor in this order (`Reading.KeepsOrder`), which is shown for
all readings by one induction on the fuel. The errors of a reading of all tokens are therefore in
this order if the tokens are in the order of their lines (`Reading.pairwise_of_run`).
-/

namespace LoxLang

/-- The first error may come before the second: it is on no later line, or the second is about the
target of an assignment. -/
def GrammarError.Precedes (a b : GrammarError) : Prop :=
  a.token.line ≤ b.token.line ∨ b.cause = .assignmentTarget

namespace Cursor

/-- The tokens in front of a cursor are in the order of their lines, the recorded errors are on no
later line than the token in front, and each of them may come before those recorded behind it. -/
structure InOrder (c : Cursor) : Prop where
  tokens : (c.rest ++ [c.endMark]).Pairwise (·.line ≤ ·.line)
  behind : ∀ e ∈ c.errors, e.token.line ≤ c.peek.line
  errors : c.errors.Pairwise fun b a => a.Precedes b

namespace InOrder

variable {c : Cursor} {e : GrammarError}

/-- Wherever a cursor gets by going forward, the token in front is on no earlier line. -/
theorem line_le (h : c.InOrder) {rest : List Token} (hrest : rest <:+ c.rest) :
    c.peek.line ≤ ({ c with rest := rest } : Cursor).peek.line := by
  obtain ⟨before, hbefore⟩ := hrest
  have htokens := h.tokens
  change (c.rest.headD c.endMark).line ≤ (rest.headD c.endMark).line
  rw [← hbefore] at htokens ⊢
  cases before with
  | nil => exact Nat.le_refl _
  | cons t ts =>
    rw [List.cons_append, List.cons_append, List.pairwise_cons] at htokens
    refine htokens.1 _ ?_
    cases rest <;> simp

/-- Tokens may be skipped. -/
theorem forward (h : c.InOrder) {rest : List Token} (hrest : rest <:+ c.rest) :
    ({ c with rest := rest } : Cursor).InOrder :=
  ⟨h.tokens.sublist (hrest.sublist.append_right _),
    fun e he => (h.behind e he).trans (h.line_le hrest), h.errors⟩

theorem record (h : c.InOrder) (hline : e.token.line ≤ c.peek.line)
    (hbefore : ∀ a ∈ c.errors, a.Precedes e) : (c.record e).InOrder :=
  ⟨h.tokens, List.forall_mem_cons.2 ⟨hline, h.behind⟩, List.pairwise_cons.2 ⟨hbefore, h.errors⟩⟩

/-- An error at the token in front may be recorded. -/
theorem record_front (h : c.InOrder) (cause : GrammarCause) :
    (c.record ⟨c.peek, cause⟩).InOrder :=
  h.record (Nat.le_refl _) fun a ha => .inl (h.behind a ha)

end InOrder

end Cursor

namespace Reading

variable {α β : Type}

/-- From a cursor in order whose token in front is on the line `lo` or a later one, the reading gets
forward to one in order, also with the error that stops it. -/
def KeepsOrder (lo : Nat) (r : Reading α) : Prop :=
  ∀ c : Cursor, c.InOrder → lo ≤ c.peek.line →
    match r c with
    | .ok _ c' => c'.InOrder ∧ c.peek.line ≤ c'.peek.line
    | .error (.error e) c' => (c'.record e).InOrder ∧ c.peek.line ≤ c'.peek.line
    | .error .outOfFuel c' => c'.InOrder

namespace KeepsOrder

variable {lo : Nat} {r : Reading α}

theorem pure (a : α) : KeepsOrder lo (pure a) := fun _ hc _ => ⟨hc, Nat.le_refl _⟩

theorem outOfFuel : KeepsOrder lo (Reading.outOfFuel : Reading α) := fun _ hc _ => hc

/-- The second of two readings begins on no earlier line than the first. -/
theorem bind {k : α → Reading β} (hr : KeepsOrder lo r) (hk : ∀ a, KeepsOrder lo (k a)) :
    KeepsOrder lo (r >>= k) := by
  intro c hc hlo
  have h := hr c hc hlo
  rcases hrc : r c with ⟨a, c₁⟩ | ⟨e | _, c₁⟩ <;> rw [hrc] at h
  · have h' := hk a c₁ h.1 (hlo.trans h.2)
    rw [bind_ok hrc]
    split at h'
    · exact ⟨h'.1, h.2.trans h'.2⟩
    · exact ⟨h'.1, h.2.trans h'.2⟩
    · exact h'
  · rw [bind_error hrc]
    exact h
  · rw [bind_error hrc]
    exact h

/-- What follows a look at the token in front begins on its line. -/
theorem peek {k : Token → Reading β} (hk : ∀ t : Token, KeepsOrder t.line (k t)) :
    KeepsOrder lo (Reading.peek >>= k) :=
  fun c hc _ => hk c.peek c hc (Nat.le_refl _)

theorem get {k : Cursor → Reading β} (hk : ∀ c, KeepsOrder lo (k c)) :
    KeepsOrder lo (MonadState.get >>= k) :=
  fun c => hk c c

theorem advance : KeepsOrder lo Reading.advance := fun c hc _ =>
  ⟨hc.forward (List.tail_suffix c.rest), hc.line_le (List.tail_suffix c.rest)⟩

theorem fail (cause : GrammarCause) : KeepsOrder lo (Reading.fail cause : Reading α) :=
  fun _ hc _ => ⟨hc.record_front cause, Nat.le_refl _⟩

theorem note (cause : GrammarCause) : KeepsOrder lo (Reading.note cause) :=
  fun _ hc _ => ⟨hc.record_front cause, Nat.le_refl _⟩

/-- The error about the target of an assignment is on a line that reading has passed. -/
theorem throw_target {equals : Token} (h : equals.line ≤ lo) :
    KeepsOrder lo (throw (.error ⟨equals, .assignmentTarget⟩) : Reading α) :=
  fun _ hc hlo => ⟨hc.record (h.trans hlo) fun _ _ => .inr rfl, Nat.le_refl _⟩

/-! ## Composite steps -/

theorem expect (kind : Kind) (cause : GrammarCause) :
    KeepsOrder lo (Reading.expect kind cause) := by
  refine .peek fun t => ?_
  split
  · exact .bind .advance fun _ => .pure t
  · exact .fail cause

theorem accept (kind : Kind) : KeepsOrder lo (Reading.accept kind) := by
  refine .peek fun t => ?_
  split
  · exact .bind .advance fun _ => .pure true
  · exact .pure false

theorem map (f : α → β) (hr : KeepsOrder lo r) : KeepsOrder lo (f <$> r) := by
  rw [map_eq_pure_bind]
  exact .bind hr fun a => .pure (f a)

theorem unlessAt (kind : Kind) (hr : ∀ {lo}, KeepsOrder lo r) :
    KeepsOrder lo (Reading.unlessAt kind r) := by
  refine .peek fun t => ?_
  split
  · exact .pure none
  · exact .map some hr

/-- Something that is only there behind a token of a kind. -/
theorem optional (kind : Kind) {k : Option α → Reading β} (hr : KeepsOrder lo r)
    (hk : ∀ o, KeepsOrder lo (k o)) : KeepsOrder lo (do
      let o ← if ← Reading.accept kind then some <$> r else Pure.pure none
      k o) := by
  refine .bind (.accept kind) fun b => ?_
  cases b with
  | true => exact .bind (.map some hr) hk
  | false => exact .bind (.pure none) hk

/-- A limited list with commas. -/
theorem listed {count : Nat} {cause : GrammarCause} {rest : Reading (List α)}
    (hr : KeepsOrder lo r) (hrest : KeepsOrder lo rest) : KeepsOrder lo (do
      if mostArguments ≤ count then Reading.note cause
      let x ← r
      if ← Reading.accept .comma then return x :: (← rest) else return [x]) := by
  have hlist : KeepsOrder lo (do
      let x ← r
      if ← Reading.accept .comma then return x :: (← rest) else return [x]) := by
    refine .bind hr fun x => .bind (.accept .comma) fun comma => ?_
    cases comma with
    | true => exact .bind hrest fun xs => .pure _
    | false => exact .pure _
  dsimp only
  split
  · exact .bind (.note cause) fun _ => hlist
  · exact hlist

end KeepsOrder

/-- All readings on the given fuel keep errors in order. -/
structure KeepsOrderOn (n : Nat) : Prop where
  assignment : ∀ {lo}, KeepsOrder lo (assignment n)
  operators : ∀ {lo} l, KeepsOrder lo (operators n l)
  operatorsAfter : ∀ {lo} l left, KeepsOrder lo (operatorsAfter n l left)
  unary : ∀ {lo}, KeepsOrder lo (unary n)
  suffixes : ∀ {lo} e, KeepsOrder lo (suffixes n e)
  arguments : ∀ {lo} count, KeepsOrder lo (arguments n count)
  primary : ∀ {lo}, KeepsOrder lo (primary n)
  routine : ∀ {lo} role, KeepsOrder lo (routine n role)
  block : ∀ {lo}, KeepsOrder lo (block n)
  declaration : ∀ {lo}, KeepsOrder lo (declaration n)
  declared : ∀ {lo}, KeepsOrder lo (declared n)
  classDeclared : ∀ {lo}, KeepsOrder lo (classDeclared n)
  methods : ∀ {lo}, KeepsOrder lo (methods n)
  named : ∀ {lo} role, KeepsOrder lo (named n role)
  variableDeclared : ∀ {lo}, KeepsOrder lo (variableDeclared n)
  expressionStatement : ∀ {lo}, KeepsOrder lo (expressionStatement n)
  forStatement : ∀ {lo}, KeepsOrder lo (forStatement n)
  statement : ∀ {lo}, KeepsOrder lo (statement n)

namespace KeepsOrderOn

variable {n lo : Nat}

/-! ## Expressions -/

/-- The equals sign is in front when the value begins, so its line is passed when the target turns
out to be none. -/
theorem assignment_succ (ih : KeepsOrderOn n) : KeepsOrder lo (Reading.assignment (n + 1)) := by
  refine .bind (ih.operators 0) fun e => .peek fun equals => ?_
  split
  · refine .bind .advance fun _ => .bind ih.assignment fun value => ?_
    cases e with
    | ref s => exact .pure _
    | get object name => exact .pure _
    | _ => exact .throw_target (Nat.le_refl _)
  · exact .pure e

theorem operators_succ (ih : KeepsOrderOn n) (l : Nat) :
    KeepsOrder lo (Reading.operators (n + 1) l) :=
  .bind ih.unary fun left => ih.operatorsAfter l left

theorem operatorsAfter_succ (ih : KeepsOrderOn n) (l : Nat) (left : Expr Unit) :
    KeepsOrder lo (Reading.operatorsAfter (n + 1) l left) := by
  refine .peek fun op => ?_
  split
  · exact .pure left
  · split
    · exact .bind .advance fun _ => .bind (ih.operators _) fun right => ih.operatorsAfter l _
    · exact .pure left

theorem unary_succ (ih : KeepsOrderOn n) : KeepsOrder lo (Reading.unary (n + 1)) := by
  refine .peek fun op => ?_
  split
  · exact .bind .advance fun _ => .bind ih.unary fun e => .pure _
  · exact .bind .advance fun _ => .bind ih.unary fun e => .pure _
  · exact .bind ih.primary fun e => ih.suffixes e

theorem suffixes_succ (ih : KeepsOrderOn n) (e : Expr Unit) :
    KeepsOrder lo (Reading.suffixes (n + 1) e) := by
  refine .peek fun t => ?_
  split
  · refine .bind .advance fun _ => .bind (.unlessAt _ (ih.arguments 0)) fun args => ?_
    exact .bind (.expect _ _) fun paren => ih.suffixes _
  · exact .bind .advance fun _ => .bind (.expect _ _) fun name => ih.suffixes _
  · exact .pure e

theorem primary_succ (ih : KeepsOrderOn n) : KeepsOrder lo (Reading.primary (n + 1)) := by
  refine .peek fun t => ?_
  split
  case h_6 =>
    refine .bind .advance fun _ => .bind (.expect _ _) fun _ => ?_
    exact .bind (.expect _ _) fun method => .pure _
  case h_9 =>
    refine .bind .advance fun _ => .bind (.expect _ _) fun _ => ?_
    exact .bind (ih.routine _) fun r => .pure _
  case h_10 =>
    refine .bind .advance fun _ => .bind ih.assignment fun e => ?_
    exact .bind (.expect _ _) fun _ => .pure _
  case h_11 => exact .fail _
  all_goals exact .bind .advance fun _ => .pure _

/-! ## Bodies -/

theorem parameters (n count : Nat) : KeepsOrder lo (Reading.parameters n count) := by
  induction n generalizing count with
  | zero => exact .outOfFuel
  | succ n ih => exact .listed (.expect _ _) (ih (count + 1))

theorem routine_succ (ih : KeepsOrderOn n) (role : Role) :
    KeepsOrder lo (Reading.routine (n + 1) role) := by
  refine .bind (.unlessAt _ (parameters n 0)) fun params => ?_
  refine .bind (.expect _ _) fun _ => .bind (.expect _ _) fun _ => ?_
  exact .bind ih.block fun body => .pure _

theorem block_succ (ih : KeepsOrderOn n) : KeepsOrder lo (Reading.block (n + 1)) := by
  refine .peek fun t => ?_
  split
  · exact .bind .advance fun _ => .pure []
  · exact .fail _
  · exact .bind ih.declaration fun s => .bind ih.block fun ss => .pure _

theorem named_succ (ih : KeepsOrderOn n) (role : Role) :
    KeepsOrder lo (Reading.named (n + 1) role) := by
  refine .bind (.expect _ _) fun name => .bind (.expect _ _) fun _ => ?_
  exact .bind (ih.routine role) fun r => .pure _

/-! ## Declarations -/

/-- The error that stops a declaration is recorded where the declaration stops, and skipping goes
forward. -/
theorem declaration_succ (ih : KeepsOrderOn n) :
    KeepsOrder lo (Reading.declaration (n + 1)) := by
  intro c hc hlo
  have h := ih.declared c hc hlo
  unfold Reading.declaration
  rcases hr : Reading.declared n c with ⟨s, c'⟩ | ⟨e | _, c'⟩ <;> rw [hr] at h
  · exact h
  · have hskip : skipFaulty c'.rest <:+ (c'.record e).rest := skipFaulty_suffix c'.rest
    exact ⟨h.1.forward hskip, h.2.trans (h.1.line_le hskip)⟩
  · exact h

theorem declared_succ (ih : KeepsOrderOn n) : KeepsOrder lo (Reading.declared (n + 1)) := by
  refine .peek fun t => ?_
  split
  · exact .bind .advance fun _ => ih.classDeclared
  · refine .get fun c => ?_
    split
    · exact .bind .advance fun _ => .bind (ih.named _) fun r => .pure _
    · exact ih.statement
  · exact .bind .advance fun _ => ih.variableDeclared
  · exact ih.statement

theorem classDeclared_succ (ih : KeepsOrderOn n) :
    KeepsOrder lo (Reading.classDeclared (n + 1)) := by
  refine .bind (.expect _ _) fun name => .optional _ (.expect _ _) fun superclass => ?_
  refine .bind (.expect _ _) fun _ => .bind ih.methods fun ms => ?_
  exact .bind (.expect _ _) fun _ => .pure _

theorem methods_succ (ih : KeepsOrderOn n) : KeepsOrder lo (Reading.methods (n + 1)) := by
  refine .peek fun t => ?_
  split
  · exact .pure []
  · exact .pure []
  · exact .bind (ih.named _) fun r => .bind ih.methods fun ms => .pure _

theorem variableDeclared_succ (ih : KeepsOrderOn n) :
    KeepsOrder lo (Reading.variableDeclared (n + 1)) := by
  refine .bind (.expect _ _) fun name => .optional _ ih.assignment fun _ => ?_
  exact .bind (.expect _ _) fun _ => .pure _

/-! ## Statements -/

theorem expressionStatement_succ (ih : KeepsOrderOn n) :
    KeepsOrder lo (Reading.expressionStatement (n + 1)) :=
  .bind ih.assignment fun _ => .bind (.expect _ _) fun _ => .pure _

theorem forStatement_succ (ih : KeepsOrderOn n) :
    KeepsOrder lo (Reading.forStatement (n + 1)) := by
  have hrest : ∀ {lo : Nat} (init : Option (Stmt Unit)), KeepsOrder lo (do
      let test ← Reading.unlessAt .semicolon (Reading.assignment n)
      let _ ← Reading.expect .semicolon .forCondition
      let step ← Reading.unlessAt .rightParen (Reading.assignment n)
      let _ ← Reading.expect .rightParen .forEnd
      let body ← Reading.statement n
      return Stmt.forLoop init test step body) := by
    intro lo init
    refine .bind (.unlessAt _ ih.assignment) fun test => .bind (.expect _ _) fun _ => ?_
    refine .bind (.unlessAt _ ih.assignment) fun step => .bind (.expect _ _) fun _ => ?_
    exact .bind ih.statement fun body => .pure _
  refine .bind (.expect _ _) fun _ => .peek fun t => ?_
  split
  · exact .bind .advance fun _ => .bind (.pure _) hrest
  · exact .bind .advance fun _ => .bind (.map some ih.variableDeclared) hrest
  · exact .bind (.map some ih.expressionStatement) hrest

theorem statement_succ (ih : KeepsOrderOn n) : KeepsOrder lo (Reading.statement (n + 1)) := by
  refine .peek fun t => ?_
  split
  · exact .bind .advance fun _ => ih.forStatement
  · refine .bind .advance fun _ => .bind (.expect _ _) fun _ => ?_
    refine .bind ih.assignment fun test => .bind (.expect _ _) fun _ => ?_
    exact .bind ih.statement fun yes => .optional _ ih.statement fun no => .pure _
  · refine .bind .advance fun _ => .bind (.expect _ _) fun _ => ?_
    refine .bind ih.assignment fun test => .bind (.expect _ _) fun _ => ?_
    exact .bind ih.statement fun body => .pure _
  · refine .bind .advance fun _ => .bind (.unlessAt _ ih.assignment) fun value => ?_
    exact .bind (.expect _ _) fun _ => .pure _
  · exact .bind .advance fun _ => .bind ih.block fun body => .pure _
  · refine .bind .advance fun _ => .bind ih.assignment fun e => ?_
    exact .bind (.expect _ _) fun _ => .pure _
  · exact ih.expressionStatement

end KeepsOrderOn

/-- **Every reading keeps errors in order**, by induction on the fuel. -/
theorem keepsOrderOn (n : Nat) : KeepsOrderOn n := by
  induction n with
  | zero => constructor <;> intros <;> exact .outOfFuel
  | succ n ih =>
    exact ⟨ih.assignment_succ, ih.operators_succ, ih.operatorsAfter_succ, ih.unary_succ,
      ih.suffixes_succ, fun count => .listed ih.assignment (ih.arguments (count + 1)),
      ih.primary_succ, ih.routine_succ, ih.block_succ, ih.declaration_succ, ih.declared_succ,
      ih.classDeclared_succ, ih.methods_succ, ih.named_succ, ih.variableDeclared_succ,
      ih.expressionStatement_succ, ih.forStatement_succ, ih.statement_succ⟩

/-! ## Programs and lines -/

theorem program_keepsOrder (n : Nat) {lo : Nat} : KeepsOrder lo (program n) := by
  induction n with
  | zero => exact .outOfFuel
  | succ n ih =>
    refine .get fun c => ?_
    split
    · exact .pure []
    · exact .bind (keepsOrderOn n).declaration fun s => .bind ih fun ss => .pure _

theorem trailing_keepsOrder (n : Nat) {lo : Nat} : KeepsOrder lo (trailing? n) := by
  intro c hc hlo
  have h := (keepsOrderOn n).assignment c hc hlo
  unfold trailing?
  rcases hr : assignment n c with ⟨e, c'⟩ | ⟨e | _, c'⟩ <;> rw [hr] at h
  · dsimp only
    split_ifs
    · exact h
    · exact ⟨hc, Nat.le_refl _⟩
  · exact ⟨hc, Nat.le_refl _⟩
  · exact h

theorem line_keepsOrder (n : Nat) {lo : Nat} : KeepsOrder lo (line n) := by
  induction n with
  | zero => exact .outOfFuel
  | succ n ih =>
    refine .get fun c => ?_
    split
    · exact .pure _
    · split
      case' isTrue => refine .bind (.pure none) fun e => ?_
      case' isFalse => refine .bind (trailing_keepsOrder n) fun e => ?_
      all_goals
        cases e with
        | some e => exact .pure _
        | none => exact .bind (keepsOrderOn n).declaration fun s => .bind ih fun more => .pure _

/-- The errors of a reading of all tokens are in order if the tokens are. -/
theorem pairwise_of_run {r : Nat → Reading α} (hr : ∀ n, KeepsOrder 0 (r n)) {tokens : List Token}
    {es : List GrammarError}
    (htokens : (Cursor.throughEnd tokens).Pairwise (·.line ≤ ·.line))
    (h : run r tokens = .error es) : es.Pairwise GrammarError.Precedes := by
  have hstart : (Cursor.start tokens).InOrder :=
    ⟨Cursor.throughEnd_eq tokens ▸ htokens, nofun, .nil⟩
  have hrun := hr (fuelFor tokens) _ hstart (Nat.zero_le _)
  unfold run at h
  rcases hread : r (fuelFor tokens) (.start tokens) with ⟨a, c⟩ | ⟨e | _, c⟩ <;>
    rw [hread] at h hrun
  · dsimp only at h
    split at h
    · cases h
    · cases h
      exact List.pairwise_reverse.2 hrun.1.errors
  · cases h
    exact List.pairwise_reverse.2 hrun.1.errors
  · cases h
    exact List.pairwise_reverse.2 hrun.errors

end Reading

end LoxLang
