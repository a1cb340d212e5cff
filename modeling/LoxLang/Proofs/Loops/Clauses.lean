import LoxLang.Proofs.Grammar.Soundness
import LoxLang.Proofs.Loops.Syntax

/-!
# The clauses of a `for` loop

A `for` loop is written `for (init test; step) body`. `ForLoop.ReadAt` says which loop stands at a
cursor: each of its parts is what is read at its own place, and the places follow each other. What
is read at the word `for` is the tree of a loop that stands there (`Reading.exists_readAt`), and the
tree of no other loop is read there (`Reading.gives_of_readAt`). The grammar has this loop
(`Reading.written_of_readAt`).
-/

namespace LoxLang

/-- The reading gives `a` where the cursor is `c`, and leaves it at `c'`. This is a predicate of the
reading, so the reading can be split into cases under it. -/
def Reading.Gives {α : Type} (r : Reading α) (c : Cursor) (a : α) (c' : Cursor) : Prop :=
  r c = .ok a c'

namespace ForLoop

open Reading (assignment expressionStatement statement variableDeclared)

/-- What stands in front of the condition: a semicolon alone, or else a variable or an expression,
each with its semicolon. -/
inductive InitAt (n : Nat) (c : Cursor) : Option (Stmt Unit) → Cursor → Prop
  | leftOut : c.peek.kind = .semicolon → InitAt n c none c.advance
  | var {s : Stmt Unit} {c' : Cursor} : c.peek.kind = .kwVar →
      (variableDeclared n).Gives c.advance s c' → InitAt n c (some s) c'
  | expression {s : Stmt Unit} {c' : Cursor} : c.peek.kind ≠ .semicolon → c.peek.kind ≠ .kwVar →
      (expressionStatement n).Gives c s c' → InitAt n c (some s) c'

/-- An expression, or nothing where the token that ends the clause stands in front. -/
inductive ClauseAt (n : Nat) (close : Kind) (c : Cursor) : Option (Expr Unit) → Cursor → Prop
  | leftOut : c.peek.kind = close → ClauseAt n close c none c
  | given {e : Expr Unit} {c' : Cursor} : c.peek.kind ≠ close → (assignment n).Gives c e c' →
      ClauseAt n close c (some e) c'

/-- The loop stands at `c`, and its last token in front of `c'`. Its parts are read on two units of
fuel less than the loop itself. -/
inductive ReadAt : Nat → Cursor → ForLoop Unit → Cursor → Prop
  | intro {n : Nat} {c c₁ c₂ c₃ c' : Cursor} {init : Option (Stmt Unit)}
      {test step : Option (Expr Unit)} {body : Stmt Unit} :
      c.peek.kind = .kwFor → c.advance.peek.kind = .leftParen →
      InitAt n c.advance.advance init c₁ →
      ClauseAt n .semicolon c₁ test c₂ → c₂.peek.kind = .semicolon →
      ClauseAt n .rightParen c₂.advance step c₃ → c₃.peek.kind = .rightParen →
      (statement n).Gives c₃.advance body c' →
      ReadAt (n + 2) c ⟨init, test, step, body⟩ c'

end ForLoop

namespace Reading

open ForLoop (InitAt ClauseAt ReadAt)

variable {α β : Type} {n : Nat} {c c' : Cursor}

/-! ## What a sequence gives -/

theorem Gives.unique {r : Reading α} {a a' : α} {c'' : Cursor} (h : r.Gives c a c')
    (h' : r.Gives c a' c'') : c' = c'' ∧ a = a' := by
  cases h.symm.trans h'
  exact ⟨rfl, rfl⟩

theorem gives_bind {r : Reading α} {k : α → Reading β} {b : β} :
    (r >>= k).Gives c b c' ↔ ∃ a c₁, r.Gives c a c₁ ∧ (k a).Gives c₁ b c' :=
  ⟨of_bind_ok, fun ⟨_, _, hr, hk⟩ => (bind_ok hr).trans hk⟩

theorem gives_pure {a b : α} : (pure a : Reading α).Gives c b c' ↔ a = b ∧ c = c' := by
  constructor
  · intro h
    cases h
    exact ⟨rfl, rfl⟩
  · rintro ⟨rfl, rfl⟩
    rfl

theorem gives_peek_bind {k : Token → Reading β} {b : β} :
    (peek >>= k).Gives c b c' ↔ (k c.peek).Gives c b c' :=
  .rfl

theorem gives_advance_bind {k : Unit → Reading β} {b : β} :
    (advance >>= k).Gives c b c' ↔ (k ()).Gives c.advance b c' :=
  .rfl

theorem gives_some {r : Reading α} {o : Option α} :
    (some <$> r).Gives c o c' ↔ ∃ a, r.Gives c a c' ∧ some a = o := by
  rw [map_eq_pure_bind, gives_bind]
  constructor
  · rintro ⟨a, c₁, ha, h⟩
    obtain ⟨ho, rfl⟩ := gives_pure.1 h
    exact ⟨a, ha, ho⟩
  · rintro ⟨a, ha, h⟩
    exact ⟨a, c', ha, gives_pure.2 ⟨h, rfl⟩⟩

theorem gives_expect {kind : Kind} {cause : GrammarCause} {t : Token} :
    (expect kind cause).Gives c t c' ↔ c.peek.kind = kind ∧ c.peek = t ∧ c.advance = c' := by
  rw [expect, gives_peek_bind]
  split
  · next hkind => rw [gives_advance_bind, gives_pure, and_iff_right hkind]
  · next hkind => exact iff_of_false (fun h => by cases h) fun h => hkind h.1

theorem gives_unlessAt {close : Kind} {o : Option (Expr Unit)} :
    (unlessAt close (assignment n)).Gives c o c' ↔ ClauseAt n close c o c' := by
  rw [unlessAt, gives_peek_bind]
  constructor
  · intro h
    split at h
    · next hclose =>
      cases h
      exact .leftOut hclose
    · next hclose =>
      obtain ⟨e, he, rfl⟩ := gives_some.1 h
      exact .given hclose he
  · intro h
    cases h with
    | leftOut hclose =>
      rw [if_pos hclose]
      rfl
    | given hclose he =>
      rw [if_neg hclose]
      exact gives_some.2 ⟨_, he, rfl⟩

theorem gives_statement_of_for {s : Stmt Unit} (hfor : c.peek.kind = .kwFor) :
    (statement (n + 1)).Gives c s c' ↔ (forStatement n).Gives c.advance s c' := by
  rw [statement, gives_peek_bind, hfor, gives_advance_bind]

/-! ## The tree of the loop that stands there -/

/-- Where a loop stands, its tree is read. -/
theorem gives_of_readAt {loop : ForLoop Unit} (h : ReadAt n c loop c') :
    (statement n).Gives c loop.stmt c' := by
  obtain ⟨hfor, hparen, hinit, htest, hsemi, hstep, hend, hbody⟩ := h
  rename_i c₁ c₂ c₃ init test step body
  rw [gives_statement_of_for hfor, forStatement, gives_bind]
  refine ⟨_, _, gives_expect.2 ⟨hparen, rfl, rfl⟩, gives_peek_bind.2 ?_⟩
  -- the reader goes on in the same way behind all three ways to begin
  extract_lets rest
  have hrest : (rest init).Gives c₁ (ForLoop.stmt ⟨init, test, step, body⟩) c' := by
    simp only [rest, gives_bind, gives_expect, gives_unlessAt, gives_pure]
    exact ⟨_, _, htest, _, _, ⟨hsemi, rfl, rfl⟩, _, _, hstep, _, _, ⟨hend, rfl, rfl⟩,
      _, _, hbody, rfl, rfl⟩
  cases hinit with
  | leftOut hsemi =>
    rw [hsemi]
    exact hrest
  | var hvar hs =>
    rw [hvar, gives_advance_bind]
    exact gives_bind.2 ⟨_, _, gives_some.2 ⟨_, hs, rfl⟩, hrest⟩
  | expression hsemi hvar hs =>
    split
    · contradiction
    · contradiction
    · exact gives_bind.2 ⟨_, _, gives_some.2 ⟨_, hs, rfl⟩, hrest⟩

/-- **A statement that is read at the word `for` is the tree of a loop that stands there.** -/
theorem exists_readAt {s : Stmt Unit} (hfor : c.peek.kind = .kwFor)
    (h : (statement n).Gives c s c') : ∃ loop, ReadAt n c loop c' ∧ s = loop.stmt := by
  cases n with
  | zero => cases h
  | succ n =>
    rw [gives_statement_of_for hfor] at h
    cases n with
    | zero => cases h
    | succ n =>
      rw [forStatement, gives_bind] at h
      obtain ⟨_, _, ht, h⟩ := h
      obtain ⟨hparen, -, rfl⟩ := gives_expect.1 ht
      rw [gives_peek_bind] at h
      extract_lets rest at h
      have hinit : ∃ init c₁, InitAt n c.advance.advance init c₁ ∧
          (rest init).Gives c₁ s c' := by
        split at h
        · next hsemi => exact ⟨none, _, .leftOut hsemi, h⟩
        · next hvar =>
          obtain ⟨init, c₁, hinit, h⟩ := gives_bind.1 (gives_advance_bind.1 h)
          obtain ⟨s, hs, rfl⟩ := gives_some.1 hinit
          exact ⟨some s, c₁, .var hvar hs, h⟩
        · next hsemi hvar =>
          obtain ⟨init, c₁, hinit, h⟩ := gives_bind.1 h
          obtain ⟨s, hs, rfl⟩ := gives_some.1 hinit
          exact ⟨some s, c₁, .expression hsemi hvar hs, h⟩
      obtain ⟨init, c₁, hinit, hrest⟩ := hinit
      simp only [rest, gives_bind, gives_expect, gives_unlessAt, gives_pure] at hrest
      obtain ⟨test, c₂, htest, _, _, ⟨hsemi, rfl, rfl⟩, step, c₃, hstep, _, _, ⟨hend, rfl, rfl⟩,
        body, _, hbody, rfl, rfl⟩ := hrest
      exact ⟨_, .intro hfor hparen hinit htest hsemi hstep hend hbody, rfl⟩

/-! ## Loops that the grammar has -/

/-- What a reading gives has the property, whatever errors it has recorded. -/
def Ensures (P : α → Prop) (r : Reading α) : Prop := ∀ c a c', r.Gives c a c' → P a

namespace Ensures

variable {P : α → Prop} {Q : β → Prop} {r : Reading α} {k : α → Reading β}

theorem pure {a : α} (h : P a) : Ensures P (pure a : Reading α) := by
  intro c b c' hb
  cases hb
  exact h

theorem outOfFuel : Ensures P Reading.outOfFuel := by
  intro c a c' h
  cases h

theorem bind (hr : Ensures P r) (hk : ∀ a, P a → Ensures Q (k a)) : Ensures Q (r >>= k) := by
  intro c b c' hb
  obtain ⟨a, c₁, ha, hb⟩ := gives_bind.1 hb
  exact hk a (hr c a c₁ ha) c₁ b c' hb

/-- What stands in front of the last part does not matter. -/
theorem behind (hk : ∀ a, Ensures Q (k a)) : Ensures Q (r >>= k) :=
  bind (P := fun _ => True) (fun _ _ _ _ => trivial) fun a _ => hk a

theorem some (hr : Ensures P r) : Ensures (fun o => ∀ a ∈ o, P a) (Option.some <$> r) := by
  rw [map_eq_pure_bind]
  refine bind hr fun a ha => pure fun b hb => ?_
  cases hb
  exact ha

end Ensures

theorem ensures_variableDeclared (n : Nat) :
    Ensures (fun s => ∃ name value, s = .var name value) (variableDeclared n) := by
  cases n with
  | zero => exact .outOfFuel
  | succ n =>
    refine .behind fun name => .behind fun b => ?_
    split <;> exact .behind fun value => .behind fun _ => .pure ⟨name, value, rfl⟩

theorem ensures_expressionStatement (n : Nat) :
    Ensures (fun s => ∃ e, s = .expression e) (expressionStatement n) := by
  cases n with
  | zero => exact .outOfFuel
  | succ n => exact .behind fun e => .behind fun _ => .pure ⟨e, rfl⟩

/-- A loop declares nothing around it if its body does not. -/
theorem ensures_forStatement (h : Ensures (·.declared = []) (statement n)) :
    Ensures (·.declared = []) (forStatement (n + 1)) := by
  refine .behind fun _ => .behind fun t => ?_
  extract_lets rest
  have hrest : ∀ init, Ensures (·.declared = []) (rest init) := fun init =>
    .behind fun test => .behind fun _ => .behind fun step => .behind fun _ =>
      .bind h fun body hbody => .pure (SoundOn.declared_forLoop init test step hbody)
  split
  · exact .behind fun _ => .behind hrest
  · exact .behind fun _ => .behind hrest
  · exact .behind hrest

/-- A statement declares nothing around it. -/
theorem ensures_statement (n : Nat) : Ensures (·.declared = []) (statement n) := by
  -- a loop is read on two units of fuel less than the statement that it is
  induction n using Nat.strongRecOn with
  | ind n ih =>
    cases n with
    | zero => exact .outOfFuel
    | succ n =>
      have hn := ih n (Nat.lt_succ_self n)
      refine .behind fun t => ?_
      split
      · refine .behind fun _ => ?_
        cases n with
        | zero => exact .outOfFuel
        | succ n => exact ensures_forStatement (ih n (by omega))
      · refine .behind fun _ => .behind fun _ => .behind fun test => .behind fun _ => ?_
        refine .bind hn fun yes hyes => .behind fun b => ?_
        split
        · refine .bind hn.some fun no hno => .pure ?_
          cases no with
          | none => exact hyes
          | some no => exact List.append_eq_nil_iff.2 ⟨hyes, hno no rfl⟩
        · exact .bind (.pure (P := (· = none)) rfl) fun no hno => .pure (hno ▸ hyes)
      · refine .behind fun _ => .behind fun _ => .behind fun test => .behind fun _ => ?_
        exact .bind hn fun body hbody => .pure hbody
      · exact .behind fun _ => .behind fun value => .behind fun _ => .pure rfl
      · exact .behind fun _ => .behind fun body => .pure rfl
      · exact .behind fun _ => .behind fun e => .behind fun _ => .pure rfl
      · intro c s c' hs
        obtain ⟨e, rfl⟩ := ensures_expressionStatement n c s c' hs
        rfl

/-- The grammar has every loop that is read. -/
theorem written_of_readAt {loop : ForLoop Unit} (h : ReadAt n c loop c') : loop.Written := by
  obtain ⟨-, -, hinit, -, -, -, -, hbody⟩ := h
  refine ⟨fun s hs => ?_, ensures_statement _ _ _ _ hbody⟩
  cases hinit with
  | leftOut => cases hs
  | var _ h =>
    cases hs
    exact .inl (ensures_variableDeclared _ _ _ _ h)
  | expression _ _ h =>
    cases hs
    exact .inr (ensures_expressionStatement _ _ _ _ h)

end Reading

end LoxLang
