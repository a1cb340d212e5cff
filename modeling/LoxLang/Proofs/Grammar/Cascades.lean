import Mathlib
import LoxLang.Proofs.Grammar.Interactive
import LoxLang.Proofs.Grammar.Position

/-!
# How many errors there can be

Every error is paid for by a token. The charge of a cursor is the number of tokens it has left and
of errors it has recorded; a token that is passed lowers it, and an error raises it. An error that
stops a declaration is paid for by the token in front, which is skipped. At the end there is none to
skip: there the opening brace of each block that misses its closing one pays, and a comma pays for
the argument too many behind it.

A reading stays within limits (`Reading.Within`) if it takes a charge of at most `m` to one of at
most `m - d`, and if it never stops where an error would raise the charge above `s`. There is a rule
for every step and a fact for every reading; the text of a program does not raise its charge
(`Reading.program_within`), which at the start is the number of tokens in front of the end mark.
-/

namespace LoxLang

namespace Cursor

/-- The tokens that are left and the errors that are recorded. -/
def charge (c : Cursor) : Nat := c.rest.length + c.errors.length

/-- The charge behind one more error, with the token in front skipped if there is one. -/
def faultCharge (c : Cursor) : Nat := (c.rest.length - 1) + (c.errors.length + 1)

/-- All tokens that a cursor knows of are among those given. -/
structure DrawnFrom (tokens : List Token) (c : Cursor) : Prop where
  rest : ∀ t ∈ c.rest, t ∈ tokens
  endMark : c.endMark ∈ tokens
  errors : ∀ e ∈ c.errors, e.token ∈ tokens
  isEnd : c.endMark.isEnd

variable {tokens : List Token} {c : Cursor} {e : GrammarError}

theorem faultCharge_le (c : Cursor) : c.faultCharge ≤ c.charge + 1 := by
  simp only [faultCharge, charge]
  omega

theorem faultCharge_eq (h : c.rest ≠ []) : c.faultCharge = c.charge := by
  have hpos := List.length_pos_iff.2 h
  simp only [faultCharge, charge]
  omega

/-- An error that is recorded and skipped raises the charge no further than was foreseen. -/
theorem charge_resume_le (c : Cursor) (e : GrammarError) : (c.resume e).charge ≤ c.faultCharge := by
  have hskip := Reading.length_skipFaulty_le c.rest
  simp only [charge, faultCharge, resume, List.length_cons]
  omega

theorem charge_advance (h : c.rest ≠ []) : c.advance.charge + 1 = c.charge := by
  have hpos := List.length_pos_iff.2 h
  simp only [charge, advance, List.length_tail]
  omega

theorem faultCharge_advance_le (c : Cursor) : c.advance.faultCharge ≤ c.faultCharge := by
  simp only [faultCharge, advance, List.length_tail]
  omega

theorem charge_record (c : Cursor) (e : GrammarError) : (c.record e).charge = c.charge + 1 := rfl

theorem faultCharge_record (c : Cursor) (e : GrammarError) :
    (c.record e).faultCharge = c.faultCharge + 1 := rfl

namespace DrawnFrom

theorem peek (h : c.DrawnFrom tokens) : c.peek ∈ tokens := by
  unfold Cursor.peek
  cases hrest : c.rest with
  | nil => exact h.endMark
  | cons t ts => exact h.rest t (by simp [hrest])

theorem advance (h : c.DrawnFrom tokens) : c.advance.DrawnFrom tokens :=
  ⟨fun t ht => h.rest t (List.mem_of_mem_tail ht), h.endMark, h.errors, h.isEnd⟩

theorem record (h : c.DrawnFrom tokens) (he : e.token ∈ tokens) : (c.record e).DrawnFrom tokens :=
  ⟨h.rest, h.endMark, List.forall_mem_cons.2 ⟨he, h.errors⟩, h.isEnd⟩

theorem resume (h : c.DrawnFrom tokens) (he : e.token ∈ tokens) : (c.resume e).DrawnFrom tokens :=
  ⟨fun t ht => h.rest t ((skipFaulty_suffix c.rest).subset ht), h.endMark,
    List.forall_mem_cons.2 ⟨he, h.errors⟩, h.isEnd⟩

theorem start (tokens : List Token) : (Cursor.start tokens).DrawnFrom (throughEnd tokens) := by
  refine ⟨fun t ht => ?_, ?_, nofun, isEnd_start tokens⟩
  · rw [throughEnd_eq]
    exact List.mem_append_left _ ht
  · simp [throughEnd_eq]

end DrawnFrom

end Cursor

namespace Reading

variable {α β : Type} {tokens : List Token}

/-- Where `p` holds and the charge is at most `m`, the reading gets on with one of at most `m - d`,
and wherever it stops, an error there leaves a charge of at most `s`. -/
def Within (tokens : List Token) (p : Cursor → Prop) (m s d : Nat) (r : Reading α) : Prop :=
  ∀ c : Cursor, c.DrawnFrom tokens → p c → c.charge ≤ m → c.faultCharge ≤ s →
    match r c with
    | .ok _ c' => c'.DrawnFrom tokens ∧ c'.charge + d ≤ m ∧ c'.faultCharge ≤ s
    | .error (.error e) c' => c'.DrawnFrom tokens ∧ e.token ∈ tokens ∧ c'.faultCharge ≤ s
    | .error .outOfFuel _ => True

namespace Within

variable {p q : Cursor → Prop} {m s d d' : Nat} {r : Reading α}

theorem mono (h : Within tokens p m s d r) (hd : d' ≤ d) : Within tokens p m s d' r := by
  intro c hc hp hm hs
  have h := h c hc hp hm hs
  split at h
  · exact ⟨h.1, by omega, h.2.2⟩
  · exact h
  · trivial

theorem weaken (h : Within tokens q m s d r) (hpq : ∀ c, c.endMark.isEnd → p c → q c) :
    Within tokens p m s d r :=
  fun c hc hp => h c hc (hpq c hc.isEnd hp)

/-- A reading that is within limits everywhere is so where `p` holds. -/
theorem anywhere (h : Within tokens Anywhere m s d r) : Within tokens p m s d r :=
  h.weaken fun _ _ _ => trivial

theorem pure {a : α} : Within tokens p m s 0 (pure a) := fun _ hc _ hm hs => ⟨hc, hm, hs⟩

theorem outOfFuel : Within tokens p m s d (Reading.outOfFuel : Reading α) :=
  fun _ _ _ _ _ => trivial

theorem throw {e : GrammarError} (he : e.token ∈ tokens) :
    Within tokens p m s d (throw (.error e) : Reading α) :=
  fun _ hc _ _ hs => ⟨hc, he, hs⟩

/-- One reading after another: the first lowers the charge that the second starts with. -/
theorem bind {k : α → Reading β} (hr : Within tokens p m s d r)
    (hk : ∀ a, d ≤ m → Within tokens Anywhere (m - d) s (d' - d) (k a)) :
    Within tokens p m s d' (r >>= k) := by
  intro c hc hp hm hs
  have h := hr c hc hp hm hs
  rcases hrc : r c with ⟨a, c'⟩ | ⟨e | _, c'⟩ <;> rw [hrc] at h
  · rw [bind_ok hrc]
    have hk := hk a (by omega) c' h.1 trivial (by omega) h.2.2
    split at hk
    · exact ⟨hk.1, by omega, hk.2.2⟩
    · exact hk
    · trivial
  · rw [bind_error hrc]
    exact h
  · rw [bind_error hrc]
    trivial

/-- What follows a look at the token in front may rely on it. -/
theorem peek {k : Token → Reading β} (hk : ∀ t ∈ tokens, Within tokens (·.peek = t) m s d (k t)) :
    Within tokens p m s d (Reading.peek >>= k) :=
  fun c hc _ => hk c.peek hc.peek c hc rfl

theorem get {k : Cursor → Reading β} (hk : ∀ c, p c → Within tokens (· = c) m s d (k c)) :
    Within tokens p m s d (MonadState.get >>= k) :=
  fun c hc hp => hk c hp c hc rfl

/-- The token in front pays. -/
theorem advance {t : Token} (hend : t.kind ≠ .eof) :
    Within tokens (·.peek = t) m s 1 Reading.advance := by
  intro c hc ht hm hs
  have hrest : c.rest ≠ [] := by
    rw [Cursor.rest_eq_cons hc.isEnd ht hend]
    exact List.cons_ne_nil _ _
  have hcharge := c.charge_advance hrest
  exact ⟨hc.advance, by show c.advance.charge + 1 ≤ m; omega, (c.faultCharge_advance_le).trans hs⟩

theorem fail (cause : GrammarCause) : Within tokens p m s d (Reading.fail cause : Reading α) :=
  peek fun _ ht => throw ht

/-- An error that does not stop the reading has to be paid for beforehand. -/
theorem noted (cause : GrammarCause) (hms : m + 2 ≤ s)
    (hr : Within tokens Anywhere (m + 1) s (d + 1) r) :
    Within tokens Anywhere m s d (Reading.note cause >>= fun _ => r) := by
  intro c hc _ hm _
  have hfault := c.faultCharge_le
  have h := hr (c.record ⟨c.peek, cause⟩) (hc.record hc.peek) trivial
    (by rw [Cursor.charge_record]; omega) (by rw [Cursor.faultCharge_record]; omega)
  show match r (c.record ⟨c.peek, cause⟩) with
    | .ok _ c' => c'.DrawnFrom tokens ∧ c'.charge + d ≤ m ∧ c'.faultCharge ≤ s
    | .error (.error e) c' => c'.DrawnFrom tokens ∧ e.token ∈ tokens ∧ c'.faultCharge ≤ s
    | .error .outOfFuel _ => True
  split at h
  · exact ⟨h.1, by omega, h.2.2⟩
  · exact h
  · trivial

theorem expect {kind : Kind} [kind.IsToken] (cause : GrammarCause) :
    Within tokens p m s 1 (Reading.expect kind cause) := by
  refine peek fun t _ => ?_
  split
  · next hkind => exact bind (advance (hkind ▸ Kind.IsToken.ne_eof)) fun _ _ => pure
  · exact fail cause

/-- A token that may stand in front pays for what follows if it does. -/
theorem acceptThen {kind : Kind} [kind.IsToken] {k : Bool → Reading β}
    (hyes : 1 ≤ m → Within tokens Anywhere (m - 1) s (d - 1) (k true))
    (hno : Within tokens Anywhere m s d (k false)) :
    Within tokens p m s d (Reading.accept kind >>= k) := by
  rw [Reading.accept, bind_assoc]
  refine peek fun t _ => ?_
  split
  · next hkind =>
    rw [bind_assoc]
    exact bind (advance (hkind ▸ Kind.IsToken.ne_eof)) fun _ hm => by
      rw [pure_bind]
      exact hyes hm
  · rw [pure_bind]
    exact hno.anywhere

theorem accept {kind : Kind} [kind.IsToken] :
    Within tokens p m s 0 (Reading.accept kind) := by
  rw [← bind_pure (Reading.accept kind)]
  exact acceptThen (fun _ => pure.mono (Nat.zero_le _)) pure

theorem unlessAt (kind : Kind) (h : Within tokens Anywhere m s 0 r) :
    Within tokens p m s 0 (Reading.unlessAt kind r) := by
  refine peek fun t _ => ?_
  split
  · exact pure
  · rw [map_eq_pure_bind]
    exact bind h.anywhere fun a _ => pure

/-- A reading with its result wrapped. -/
theorem map {f : α → β} (h : Within tokens p m s d r) : Within tokens p m s d (f <$> r) := by
  rw [map_eq_pure_bind]
  exact bind h fun a _ => by rw [Nat.sub_self]; exact pure

end Within

/-- A list of which `count` members are read pays with its next token, unless there are already as
many as allowed; then the error about the next one has to be paid for beforehand. -/
structure Lists (tokens : List Token) (count : Nat) (r : Reading α) : Prop where
  few : count < mostArguments → ∀ {m s}, m ≤ s → Within tokens Anywhere m s 1 r
  many : ∀ {m s}, m + 2 ≤ s → Within tokens Anywhere m s 0 r

theorem Lists.outOfFuel {count : Nat} : Lists tokens count (Reading.outOfFuel : Reading α) :=
  ⟨fun _ _ _ _ => .outOfFuel, fun _ => .outOfFuel⟩

/-- A comma pays for the error about the member behind it. -/
theorem Lists.step {count : Nat} {cause : GrammarCause} {item : Reading α}
    {more : Reading (List α)} (hitem : ∀ {m s}, m ≤ s → Within tokens Anywhere m s 1 item)
    (hmore : Lists tokens (count + 1) more) :
    Lists tokens count (do
      if mostArguments ≤ count then Reading.note cause
      let x ← item
      if ← Reading.accept .comma then return x :: (← more) else return [x]) := by
  have hrest : ∀ {m s}, m ≤ s → Within tokens Anywhere m s 1 (do
      let x ← item
      if ← Reading.accept .comma then return x :: (← more) else return [x]) := by
    intro m s h
    refine .bind (hitem h) fun x hm => .acceptThen (fun hm' => ?_) .pure
    exact .bind (hmore.many (by omega)) fun xs _ => .pure
  constructor
  · intro hcount m s h
    rw [if_neg (by omega)]
    exact hrest h
  · intro m s h
    split
    · exact .noted _ h (hrest (by omega))
    · exact (hrest (by omega)).mono (Nat.zero_le 1)

/-- All readings on the given fuel stay within limits. Those that begin with a token pay with it. A
block has to be paid for beforehand: it can fail behind a declaration that failed at the end. -/
structure WithinOn (tokens : List Token) (n : Nat) : Prop where
  assignment : ∀ {m s}, m ≤ s → Within tokens Anywhere m s 1 (assignment n)
  operators : ∀ {m s} l, m ≤ s → Within tokens Anywhere m s 1 (operators n l)
  operatorsAfter : ∀ {m s} l left, m ≤ s → Within tokens Anywhere m s 0 (operatorsAfter n l left)
  unary : ∀ {m s}, m ≤ s → Within tokens Anywhere m s 1 (unary n)
  suffixes : ∀ {m s} e, m ≤ s → Within tokens Anywhere m s 0 (suffixes n e)
  arguments : ∀ count, Lists tokens count (arguments n count)
  primary : ∀ {m s}, m ≤ s → Within tokens Anywhere m s 1 (primary n)
  routine : ∀ {m s} role, m ≤ s → Within tokens Anywhere m s 1 (routine n role)
  block : ∀ {m s}, m + 1 ≤ s → Within tokens Anywhere m s 1 (block n)
  declaration : ∀ {m s}, m + 1 ≤ s → Within tokens (·.rest ≠ []) m s 0 (declaration n)
  declared : ∀ {m s}, m ≤ s → Within tokens Anywhere m s 1 (declared n)
  classDeclared : ∀ {m s}, m ≤ s → Within tokens Anywhere m s 1 (classDeclared n)
  methods : ∀ {m s}, m ≤ s → Within tokens Anywhere m s 0 (methods n)
  named : ∀ {m s} role, m ≤ s → Within tokens Anywhere m s 1 (named n role)
  variableDeclared : ∀ {m s}, m ≤ s → Within tokens Anywhere m s 1 (variableDeclared n)
  expressionStatement : ∀ {m s}, m ≤ s → Within tokens Anywhere m s 1 (expressionStatement n)
  forStatement : ∀ {m s}, m ≤ s → Within tokens Anywhere m s 1 (forStatement n)
  statement : ∀ {m s}, m ≤ s → Within tokens Anywhere m s 1 (statement n)

variable {n m s : Nat}

theorem parameters_lists (n count : Nat) : Lists tokens count (parameters n count) := by
  induction n generalizing count with
  | zero => exact .outOfFuel
  | succ n ih => exact .step (fun _ => .expect _) (ih (count + 1))

namespace WithinOn

theorem assignment_succ (ih : WithinOn tokens n) (h : m ≤ s) :
    Within tokens Anywhere m s 1 (Reading.assignment (n + 1)) := by
  refine .bind (ih.operators 0 h) fun e _ => .peek fun equals hequals => ?_
  split
  · next heq =>
    refine .bind (.advance (by simp [heq])) fun _ _ => ?_
    refine .bind (ih.assignment (by omega)) fun value _ => ?_
    cases e with
    | ref s => exact .pure
    | get object name => exact .pure
    | _ => exact .throw hequals
  · exact .pure

theorem operators_succ (ih : WithinOn tokens n) (l : Nat) (h : m ≤ s) :
    Within tokens Anywhere m s 1 (Reading.operators (n + 1) l) :=
  .bind (ih.unary h) fun left _ => ih.operatorsAfter l left (by omega)

theorem operatorsAfter_succ (ih : WithinOn tokens n) (l : Nat) (left : Expr Unit) (h : m ≤ s) :
    Within tokens Anywhere m s 0 (Reading.operatorsAfter (n + 1) l left) := by
  refine .peek fun op _ => ?_
  split
  · exact .pure
  · next k hk =>
    split
    · refine .bind (.advance fun h => by rw [h] at hk; cases hk) fun _ _ => ?_
      refine .bind (ih.operators (k + 1) (by omega)) fun right _ => ?_
      exact ih.operatorsAfter l _ (by omega)
    · exact .pure

theorem unary_succ (ih : WithinOn tokens n) (h : m ≤ s) :
    Within tokens Anywhere m s 1 (Reading.unary (n + 1)) := by
  have hprefix : ∀ op : Token, op.kind ≠ .eof → Within tokens (·.peek = op) m s 1 (do
      Reading.advance
      return Expr.unary op (← Reading.unary n)) := fun op hop =>
    .bind (.advance hop) fun _ _ => .bind (ih.unary (by omega)) fun e _ => .pure
  refine .peek fun op _ => ?_
  split
  · next hop => exact hprefix op (by simp [hop])
  · next hop => exact hprefix op (by simp [hop])
  · exact .bind (ih.primary h).anywhere fun e _ => ih.suffixes e (by omega)

theorem suffixes_succ (ih : WithinOn tokens n) (e : Expr Unit) (h : m ≤ s) :
    Within tokens Anywhere m s 0 (Reading.suffixes (n + 1) e) := by
  refine .peek fun t _ => ?_
  split
  · next ht =>
    refine .bind (.advance (by simp [ht])) fun _ _ => ?_
    have harguments := ((ih.arguments 0).few (by decide) (Nat.le_trans (Nat.sub_le m 1) h)).mono
      (Nat.zero_le 1)
    refine .bind (.unlessAt _ harguments) fun args _ => ?_
    exact .bind (.expect _) fun paren _ => ih.suffixes _ (by omega)
  · next ht =>
    refine .bind (.advance (by simp [ht])) fun _ _ => ?_
    exact .bind (.expect _) fun name _ => ih.suffixes _ (by omega)
  · exact .pure

theorem primary_succ (ih : WithinOn tokens n) (h : m ≤ s) :
    Within tokens Anywhere m s 1 (Reading.primary (n + 1)) := by
  refine .peek fun t _ => ?_
  split
  case h_6 ht =>
    refine .bind (.advance (by simp [ht])) fun _ _ => .bind (.expect _) fun _ _ => ?_
    exact .bind (.expect _) fun method _ => .pure
  case h_9 ht =>
    refine .bind (.advance (by simp [ht])) fun _ _ => .bind (.expect _) fun _ _ => ?_
    exact .bind (ih.routine _ (by omega)) fun r _ => .pure
  case h_10 ht =>
    refine .bind (.advance (by simp [ht])) fun _ _ => ?_
    exact .bind (ih.assignment (by omega)) fun e _ => .bind (.expect _) fun _ _ => .pure
  case h_11 => exact .fail _
  all_goals
    next ht => exact .bind (.advance (by simp [ht])) fun _ _ => .pure

theorem routine_succ (ih : WithinOn tokens n) (role : Role) (h : m ≤ s) :
    Within tokens Anywhere m s 1 (Reading.routine (n + 1) role) := by
  have hparameters : Within tokens Anywhere m s 0 (parameters n 0) :=
    ((parameters_lists n 0).few (by decide) h).mono (Nat.zero_le 1)
  refine .bind (.unlessAt _ hparameters) fun params _ => ?_
  refine .bind (.expect _) fun _ _ => .bind (.expect _) fun _ _ => ?_
  exact .bind (ih.block (by omega)) fun body _ => .pure

theorem block_succ (ih : WithinOn tokens n) (h : m + 1 ≤ s) :
    Within tokens Anywhere m s 1 (Reading.block (n + 1)) := by
  refine .peek fun t _ => ?_
  split
  · next ht => exact .bind (.advance (by simp [ht])) fun _ _ => .pure
  · exact .fail _
  · next hend =>
    have hdeclaration := (ih.declaration h).weaken fun c hc (ht : c.peek = t) => by
      rw [Cursor.rest_eq_cons hc ht hend]
      exact List.cons_ne_nil _ _
    exact .bind hdeclaration fun s _ => .bind (ih.block (by omega)) fun ss _ => .pure

/-- A declaration in front of a token does not raise the charge: an error that stops it there is
paid for by a token that it has passed, or by the one that is skipped. -/
theorem declaration_succ (ih : WithinOn tokens n) (h : m + 1 ≤ s) :
    Within tokens (·.rest ≠ []) m s 0 (Reading.declaration (n + 1)) := by
  intro c hc hrest hm _
  have hdeclared := ih.declared (Nat.le_refl m) c hc trivial hm (c.faultCharge_eq hrest ▸ hm)
  unfold Reading.declaration
  rcases hr : Reading.declared n c with ⟨s, c'⟩ | ⟨e | _, c'⟩ <;> rw [hr] at hdeclared
  · exact ⟨hdeclared.1, Nat.le_of_succ_le hdeclared.2.1, by omega⟩
  · obtain ⟨hc', he, hfault⟩ := hdeclared
    have hresume := c'.charge_resume_le e
    have hfault' := (c'.resume e).faultCharge_le
    exact ⟨hc'.resume he, by omega, by omega⟩
  · trivial

theorem declared_succ (ih : WithinOn tokens n) (h : m ≤ s) :
    Within tokens Anywhere m s 1 (Reading.declared (n + 1)) := by
  refine .peek fun t _ => ?_
  split
  · next ht =>
    exact .bind (.advance (by simp [ht])) fun _ _ =>
      (ih.classDeclared (by omega)).mono (Nat.zero_le _)
  · next ht =>
    refine .get fun c hc => ?_
    split
    · have hadvance : Within tokens (· = c) m s 1 Reading.advance :=
        (Within.advance (t := t) (by simp [ht])).weaken fun c' _ hc' => hc' ▸ hc
      exact .bind hadvance fun _ _ => .bind (ih.named _ (by omega)) fun r _ => .pure
    · exact (ih.statement h).anywhere
  · next ht =>
    exact .bind (.advance (by simp [ht])) fun _ _ =>
      (ih.variableDeclared (by omega)).mono (Nat.zero_le _)
  · exact (ih.statement h).anywhere

theorem classDeclared_succ (ih : WithinOn tokens n) (h : m ≤ s) :
    Within tokens Anywhere m s 1 (Reading.classDeclared (n + 1)) := by
  refine .bind (.expect _) fun name _ => .bind .accept fun less _ => ?_
  have hrest : ∀ {k : Nat} (superclass : Option Token), k ≤ s → Within tokens Anywhere k s 0 (do
      let _ ← expect .leftBrace .classBrace
      let methods ← Reading.methods n
      let _ ← expect .rightBrace .classEnd
      return Stmt.classDecl name (superclass.map (⟨(), ·⟩)) methods) := by
    intro k superclass hk
    refine .bind (.expect _) fun _ _ => .bind (ih.methods (by omega)) fun ms _ => ?_
    exact .bind (.expect _) fun _ _ => .pure
  cases less with
  | true => exact .bind (.map (.expect _)) fun superclass _ => hrest superclass (by omega)
  | false => exact .bind .pure fun superclass _ => hrest superclass (by omega)

theorem methods_succ (ih : WithinOn tokens n) (h : m ≤ s) :
    Within tokens Anywhere m s 0 (Reading.methods (n + 1)) := by
  refine .peek fun t _ => ?_
  split
  · exact .pure
  · exact .pure
  · refine .bind (ih.named _ h).anywhere fun r _ => ?_
    exact .bind (ih.methods (by omega)) fun ms _ => .pure

theorem named_succ (ih : WithinOn tokens n) (role : Role) (h : m ≤ s) :
    Within tokens Anywhere m s 1 (Reading.named (n + 1) role) := by
  refine .bind (.expect _) fun name _ => .bind (.expect _) fun _ _ => ?_
  exact .bind (ih.routine _ (by omega)) fun r _ => .pure

theorem variableDeclared_succ (ih : WithinOn tokens n) (h : m ≤ s) :
    Within tokens Anywhere m s 1 (Reading.variableDeclared (n + 1)) := by
  refine .bind (.expect _) fun name _ => .bind .accept fun equal _ => ?_
  cases equal with
  | true =>
    refine .bind (.map (ih.assignment (by omega))) fun init _ => ?_
    exact .bind (.expect _) fun _ _ => .pure
  | false => exact .bind .pure fun init _ => .bind (.expect _) fun _ _ => .pure

theorem expressionStatement_succ (ih : WithinOn tokens n) (h : m ≤ s) :
    Within tokens Anywhere m s 1 (Reading.expressionStatement (n + 1)) :=
  .bind (ih.assignment h) fun _ _ => .bind (.expect _) fun _ _ => .pure

theorem forStatement_succ (ih : WithinOn tokens n) (h : m ≤ s) :
    Within tokens Anywhere m s 1 (Reading.forStatement (n + 1)) := by
  have hexpression : ∀ {k : Nat}, k ≤ s → Within tokens Anywhere k s 0 (Reading.assignment n) :=
    fun hk => (ih.assignment hk).mono (Nat.zero_le 1)
  have hrest : ∀ {k : Nat} (init : Option (Stmt Unit)), k ≤ s → Within tokens Anywhere k s 0 (do
      let test ← unlessAt .semicolon (Reading.assignment n)
      let _ ← expect .semicolon .forCondition
      let step ← unlessAt .rightParen (Reading.assignment n)
      let _ ← expect .rightParen .forEnd
      let body ← Reading.statement n
      return Stmt.forLoop init test step body) := by
    intro k init hk
    refine .bind (.unlessAt _ (hexpression hk)) fun test _ => .bind (.expect _) fun _ _ => ?_
    refine .bind (.unlessAt _ (hexpression (by omega))) fun step _ => ?_
    exact .bind (.expect _) fun _ _ => .bind (ih.statement (by omega)) fun body _ => .pure
  refine .bind (.expect _) fun _ _ => .peek fun t _ => ?_
  split
  · next ht =>
    refine .bind (.advance (by simp [ht])) fun _ _ => ?_
    exact .bind .pure fun init _ => hrest init (by omega)
  · next ht =>
    refine .bind (.advance (by simp [ht])) fun _ _ => ?_
    exact .bind (.map (ih.variableDeclared (by omega))) fun init _ => hrest init (by omega)
  · exact .bind (Within.map (ih.expressionStatement (by omega))).anywhere
      fun init _ => hrest init (by omega)

theorem statement_succ (ih : WithinOn tokens n) (h : m ≤ s) :
    Within tokens Anywhere m s 1 (Reading.statement (n + 1)) := by
  refine .peek fun t _ => ?_
  split
  · next ht =>
    exact .bind (.advance (by simp [ht])) fun _ _ =>
      (ih.forStatement (by omega)).mono (Nat.zero_le _)
  · next ht =>
    refine .bind (.advance (by simp [ht])) fun _ _ => .bind (.expect _) fun _ _ => ?_
    refine .bind (ih.assignment (by omega)) fun test _ => .bind (.expect _) fun _ _ => ?_
    refine .bind (ih.statement (by omega)) fun yes _ => .bind .accept fun other _ => ?_
    cases other with
    | true => exact .bind (.map (ih.statement (by omega))) fun no _ => .pure
    | false => exact .bind .pure fun no _ => .pure
  · next ht =>
    refine .bind (.advance (by simp [ht])) fun _ _ => .bind (.expect _) fun _ _ => ?_
    refine .bind (ih.assignment (by omega)) fun test _ => .bind (.expect _) fun _ _ => ?_
    exact .bind (ih.statement (by omega)) fun body _ => .pure
  · next ht =>
    refine .bind (.advance (by simp [ht])) fun _ _ => ?_
    refine .bind (.unlessAt _ ((ih.assignment (by omega)).mono (Nat.zero_le _))) fun value _ => ?_
    exact .bind (.expect _) fun _ _ => .pure
  · next ht =>
    refine .bind (.advance (by simp [ht])) fun _ _ => ?_
    exact .bind (ih.block (by omega)) fun body _ => .pure
  · next ht =>
    refine .bind (.advance (by simp [ht])) fun _ _ => ?_
    exact .bind (ih.assignment (by omega)) fun e _ => .bind (.expect _) fun _ _ => .pure
  · exact (ih.expressionStatement h).anywhere

end WithinOn

/-- Every reading stays within limits, by induction on the fuel. -/
theorem withinOn (tokens : List Token) (n : Nat) : WithinOn tokens n := by
  induction n with
  | zero => constructor <;> intros <;> exact .outOfFuel
  | succ n ih =>
    exact ⟨ih.assignment_succ, ih.operators_succ, ih.operatorsAfter_succ, ih.unary_succ,
      ih.suffixes_succ, fun count => .step ih.assignment (ih.arguments (count + 1)),
      ih.primary_succ, ih.routine_succ, ih.block_succ, ih.declaration_succ, ih.declared_succ,
      ih.classDeclared_succ, ih.methods_succ, ih.named_succ, ih.variableDeclared_succ,
      ih.expressionStatement_succ, ih.forStatement_succ, ih.statement_succ⟩

/-- The text of a program does not raise the charge. -/
theorem program_within (h : m + 1 ≤ s) : Within tokens Anywhere m s 0 (program n) := by
  induction n with
  | zero => exact .outOfFuel
  | succ n ih =>
    refine .get fun c _ => ?_
    split
    · exact .pure
    · next hrest =>
      have hdeclaration := ((withinOn tokens n).declaration h).weaken
        fun c' _ (hc' : c' = c) => hc' ▸ fun h => hrest (List.isEmpty_iff.2 h)
      exact .bind hdeclaration fun s _ => .bind ih fun ss _ => .pure

end Reading

/-- The errors of a program are fewer than the tokens through the first end mark, and noticed at
some of these. -/
theorem Stmt.errors_of_readAll {tokens : List Token} {es : List GrammarError}
    (h : Stmt.readAll tokens = .error es) :
    es.length < (Cursor.throughEnd tokens).length ∧
      ∀ e ∈ es, e.token ∈ Cursor.throughEnd tokens := by
  obtain ⟨ss, c, hread, -⟩ := Reading.program_reads tokens
  let start := Cursor.start tokens
  have hprogram : Reading.Within (Cursor.throughEnd tokens) Reading.Anywhere start.charge
      (start.charge + 1) 0 (Reading.program (Reading.fuelFor tokens)) :=
    Reading.program_within (Nat.le_refl _)
  have hwithin := hprogram start (.start tokens) trivial (Nat.le_refl _) start.faultCharge_le
  rw [hread] at hwithin
  obtain ⟨hc, hcharge, -⟩ := hwithin
  have hes : es = c.errors.reverse := by
    rw [Stmt.readAll, Reading.run, hread] at h
    dsimp only at h
    split at h
    · cases h
    · cases h
      rfl
  have hlength : (Cursor.throughEnd tokens).length = start.charge + 1 := by
    rw [Cursor.throughEnd_eq, List.length_append]
    rfl
  subst hes
  refine ⟨?_, fun e he => hc.errors e (List.mem_reverse.1 he)⟩
  rw [hlength, List.length_reverse]
  simp only [Cursor.charge] at hcharge ⊢
  omega

/-- The errors of a line begin those of the program with the same tokens. -/
theorem Line.readAll_of_read_eq_error {tokens : List Token} {es : List GrammarError}
    (h : Line.read tokens = .error es) : ∃ more, Stmt.readAll tokens = .error (es ++ more) := by
  obtain ⟨l, c, -, hline, hprogram⟩ := readAll_of_line tokens
  rw [hline] at h
  split at h
  · cases h
  · next hc =>
    cases h
    rw [hprogram]
    cases l.trailing with
    | none => exact ⟨[], by rw [if_neg hc, List.append_nil]⟩
    | some e => exact ⟨_, rfl⟩

/-- **Cascades of errors are bounded and well placed.** Whatever the tokens are, a program and a
line come to fewer errors than there are tokens through the first end mark, and every error tells
the line and the place of one of these. -/
theorem errors_paid_for_by_tokens {tokens : List Token} {es : List GrammarError}
    (h : Stmt.readAll tokens = .error es ∨ Line.read tokens = .error es) :
    es.length < (Cursor.throughEnd tokens).length ∧
      ∀ e ∈ es, ∃ t ∈ Cursor.throughEnd tokens, e.token = t ∧ e.diagnostic.line? = some t.line ∧
        e.diagnostic.text = t.report e.cause.message := by
  have herrors : es.length < (Cursor.throughEnd tokens).length ∧
      ∀ e ∈ es, e.token ∈ Cursor.throughEnd tokens := by
    rcases h with h | h
    · exact Stmt.errors_of_readAll h
    · obtain ⟨more, hmore⟩ := Line.readAll_of_read_eq_error h
      obtain ⟨hlength, hplaced⟩ := Stmt.errors_of_readAll hmore
      rw [List.length_append] at hlength
      exact ⟨by omega, fun e he => hplaced e (List.mem_append_left _ he)⟩
  exact ⟨herrors.1, fun e he => ⟨e.token, herrors.2 e he, rfl, rfl, e.text_diagnostic⟩⟩

/-- Four braces that are never closed make up four errors, one for each. -/
theorem errors_of_open_blocks :
    let brace : Token := ⟨.leftBrace, "\x7b", 1⟩
    let missed : GrammarError := ⟨.endMark 1, .blockEnd⟩
    Stmt.readAll [brace, brace, brace, brace] = .error [missed, missed, missed, missed] ∧
      4 < (Cursor.throughEnd [brace, brace, brace, brace]).length := by
  intro brace missed
  have hread : Stmt.readAll [brace, brace, brace, brace] =
      .error [missed, missed, missed, missed] := by cbv
  exact ⟨hread, (errors_paid_for_by_tokens (.inl hread)).1⟩

end LoxLang
