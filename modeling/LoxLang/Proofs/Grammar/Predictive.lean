import LoxLang.Proofs.Grammar.FirstError
import LoxLang.Proofs.Grammar.Position

/-!
# Predictive readings

All readings are predictive for the languages of the relaxed grammar (`Reading.predictsOn`), by
induction on the fuel, with one lemma for each reading. An expression ends in front of tokens that
go on with none. Two readings have to know more of what comes behind. Operators stop at a tighter
level in between: what comes behind may begin with an operator, but only if it goes on with its
right operand (`Absorbs`). And a statement may stop in front of an `else` that belongs to a
conditional around it: what comes behind may begin with `else`, but only if it goes on with a
statement (`Elsey`), so it makes no difference that the inner conditional takes it.
-/

open scoped Computability

namespace LoxLang

/-- Behind an operand: no suffix, and operators only with what operators have behind them. -/
structure Absorbs (K : Language Token) : Prop where
  endsCall : Fronts Kind.EndsCall K
  operand : ∀ {op w k}, op :: w ∈ K → op.kind.level? = some k → w ∈ Symbol.unary.language * K

/-- Behind a statement: an `else` only with a statement and what comes behind that one. -/
def Elsey (K : Language Token) : Prop :=
  ∀ w ∈ K, frontKind w = .kwElse → w ∈ only .kwElse * Symbol.statement.language * K

theorem le_kstar_mul (L K : Language Token) : K ≤ L∗ * K := by
  conv_lhs => rw [← one_mul K]
  exact mul_le_mul' one_le_kstar le_rfl

/-- An operation begins with its operator. -/
theorem fronts_operation (l : Nat) :
    Fronts (fun kind => ∃ k, kind.level? = some k ∧ l ≤ k) (operation l) := by
  rintro _ ⟨_, ⟨t, rfl, ht⟩, v, -, rfl⟩
  exact ht

theorem fronts_operation_mul (l : Nat) (K : Language Token) :
    Fronts (fun kind => ∃ k, kind.level? = some k ∧ l ≤ k) (operation l * K) :=
  (fronts_operation l).mul (fun ⟨_, h, _⟩ => nomatch h) K

/-- Operations may come in between. -/
theorem Absorbs.kstar_mul {K : Language Token} (h : Absorbs K) (l : Nat) :
    Absorbs ((operation l)∗ * K) where
  endsCall := by
    rw [kstar_mul_eq]
    refine h.endsCall.add ((fronts_operation_mul l _).mono ?_)
    rintro kind ⟨k, hk, -⟩
    exact Kind.endsCall_of_level hk
  operand := by
    intro op w k hw hop
    rw [kstar_mul_eq] at hw
    rcases hw with hw | ⟨_, ⟨_, ⟨t, rfl, -⟩, u, hu, rfl⟩, v, hv, heq⟩
    · exact mul_le_mul' le_rfl (le_kstar_mul _ K) (h.operand hw hop)
    · cases heq
      exact ⟨u, hu, v, hv, rfl⟩

/-- An operator, its right operand and further operations are operations. -/
theorem operator_mul_le {l k : Nat} (h : l ≤ k) : oneOf (fun kind => kind.level? = some k) *
    (Symbol.unary.language * (operation (k + 1))∗ * (operation l)∗) ≤ (operation l)∗ := by
  have hone : oneOf (fun kind => kind.level? = some k) * Symbol.unary.language ≤ operation l :=
    mul_le_mul' (fun _ ⟨t, hw, ht⟩ => ⟨t, hw, k, ht, h⟩) le_rfl
  have htight : operation (k + 1) ≤ operation l :=
    mul_le_mul' (fun _ ⟨t, hw, j, ht, hj⟩ => ⟨t, hw, j, ht, by omega⟩) le_rfl
  calc oneOf (fun kind => kind.level? = some k) *
        (Symbol.unary.language * (operation (k + 1))∗ * (operation l)∗)
      = oneOf (fun kind => kind.level? = some k) * Symbol.unary.language *
        ((operation (k + 1))∗ * (operation l)∗) := by simp only [mul_assoc]
    _ ≤ operation l * ((operation l)∗ * (operation l)∗) :=
      mul_le_mul' hone (mul_le_mul' (kstar_mono htight) le_rfl)
    _ ≤ (operation l)∗ := by
      rw [kstar_mul_kstar]
      exact mul_kstar_le_kstar

/-- What goes on with an operator goes on with its right operand. -/
theorem Absorbs.operator_mem {K : Language Token} (h : Absorbs K) {l k : Nat} {w : List Token}
    (hw : w ∈ (operation l)∗ * K) (hop : (frontKind w).level? = some k) :
    w ∈ oneOf (fun kind => kind.level? = some k) *
      (Symbol.unary.language * (operation (k + 1))∗ * (operation l)∗) * K := by
  cases w with
  | nil => cases hop
  | cons op w =>
    have hrest := (h.kstar_mul l).operand hw hop
    have hle : Symbol.unary.language * ((operation l)∗ * K) ≤
        Symbol.unary.language * (operation (k + 1))∗ * (operation l)∗ * K := by
      simp only [mul_assoc]
      exact mul_le_mul' le_rfl (le_kstar_mul _ _)
    rw [mul_assoc]
    exact ⟨[op], ⟨op, rfl, hop⟩, w, hle hrest, rfl⟩

/-- A statement may come behind an `else` in between. -/
theorem Elsey.optional_mul {K : Language Token} (h : Elsey K) :
    Elsey ((1 + only .kwElse * Symbol.statement.language) * K) := by
  intro w hw hfront
  have hle : only .kwElse * Symbol.statement.language * K ≤
      only .kwElse * Symbol.statement.language *
        ((1 + only .kwElse * Symbol.statement.language) * K) := by
    refine mul_le_mul' le_rfl ?_
    rw [add_mul, one_mul]
    exact le_self_add
  rw [add_mul, one_mul] at hw
  rcases hw with hw | hw
  · exact hle (h w hw hfront)
  · exact hle hw

/-- Where no word begins with `else`, nothing has to be known of one. -/
theorem Elsey.of_fronts {S : Kind → Prop} {K : Language Token} (h : Fronts S K)
    (hS : ¬ S .kwElse) : Elsey K :=
  fun w hw hfront => absurd (hfront ▸ h w hw) hS

namespace Reading

/-- A list with commas between its entries, up to a closing parenthesis. -/
theorem listed {α : Type} {L : Language Token} [Filled L] {A : Tails} {count : Nat}
    {cause : GrammarCause} (hcause : cause.IsRelaxed) {item : Reading α} {more : Reading (List α)}
    (hitem : Predicts A L Anywhere item)
    (hA : ∀ K, Fronts (fun kind => kind = .comma ∨ kind = .rightParen) K → A K)
    (hmore : Predicts (Fronts (· = .rightParen)) (L * (only .comma * L)∗) Anywhere more) :
    Predicts (Fronts (· = .rightParen)) (L * (only .comma * L)∗) Anywhere (do
      if mostArguments ≤ count then Reading.note cause
      let x ← item
      if ← Reading.accept .comma then return x :: (← more) else return [x]) := by
  have hrest : Predicts (Fronts (· = .rightParen)) (L * (only .comma * L)∗) Anywhere (do
      let x ← item
      if ← Reading.accept .comma then return x :: (← more) else return [x]) := by
    have hstar : (only .comma * L)∗ = 1 + only .comma * (L * (only .comma * L)∗) := by
      conv_lhs => rw [← Language.one_add_self_mul_kstar_eq_kstar, mul_assoc]
    refine .bind hitem (C := Fronts (· = .rightParen)) (fun x => ?_) fun K hK => ⟨hA _ ?_, hK⟩
    · rw [hstar]
      refine .accept hmore.last .pure fun K hK w hw hfront => ?_
      rw [one_mul] at hw
      cases (hK w hw).symm.trans hfront
    · rw [hstar, add_mul, one_mul]
      exact .add (hK.mono fun _ => .inr) (.only_mul_mul (.inl rfl) _ K)
  dsimp only
  split
  · exact .note hcause hrest
  · exact hrest

theorem parameters_predicts (n count : Nat) :
    Predicts (Fronts (· = .rightParen)) Symbol.parameters.language Anywhere
      (Reading.parameters n count) := by
  rw [Symbol.language_eq_equation]
  induction n generalizing count with
  | zero => exact .outOfFuel
  | succ n ih =>
    refine listed (A := Always) ?_ (.expect _) (fun _ _ => trivial) (ih (count + 1))
    trivial

/-- All readings on the given fuel are predictive for what they read. -/
structure PredictsOn (n : Nat) : Prop where
  assignment : Predicts (Fronts Kind.EndsExpression) Symbol.assignment.language Anywhere
    (assignment n)
  operators : ∀ l, Predicts Absorbs (Symbol.unary.language * (operation l)∗) Anywhere
    (operators n l)
  operatorsAfter : ∀ l left, Predicts Absorbs (operation l)∗ Anywhere (operatorsAfter n l left)
  unary : Predicts (Fronts Kind.EndsCall) Symbol.unary.language Anywhere (unary n)
  suffixes : ∀ e, Predicts (Fronts Kind.EndsCall) Rhs.suffix.language∗ Anywhere (suffixes n e)
  arguments : ∀ count, Predicts (Fronts (· = .rightParen)) Symbol.arguments.language Anywhere
    (arguments n count)
  primary : Predicts Always Symbol.primary.language Anywhere (primary n)
  routine : ∀ role, Predicts Always ((1 + Symbol.parameters.language) *
    (only .rightParen * Symbol.block.language)) Anywhere (routine n role)
  block : Predicts Always Symbol.block.behind Anywhere (block n)
  declaration : Predicts Elsey Symbol.declaration.language Anywhere (declaration n)
  declared : Predicts Elsey Symbol.declaration.language Anywhere (declared n)
  classDeclared : Predicts Always Symbol.classDecl.behind Anywhere (classDeclared n)
  methods : Predicts (Fronts (· = .rightBrace)) Symbol.function.language∗ Anywhere (methods n)
  named : ∀ role, Predicts Always Symbol.function.language Anywhere (named n role)
  variableDeclared : Predicts Always Symbol.varDecl.behind Anywhere (variableDeclared n)
  expressionStatement : Predicts Always Symbol.exprStmt.language Anywhere (expressionStatement n)
  forStatement : Predicts Elsey Symbol.forStmt.behind Anywhere (forStatement n)
  statement : Predicts Elsey Symbol.statement.language Anywhere (statement n)

namespace PredictsOn

variable {n : Nat}

/-! ## Expressions -/

theorem assignment_succ (ih : PredictsOn n) :
    Predicts (Fronts Kind.EndsExpression) Symbol.assignment.language Anywhere
      (Reading.assignment (n + 1)) := by
  have hequal : ¬ Kind.EndsExpression .equal := fun h => h.2 rfl
  have hvalue : ∀ M K : Language Token, Fronts (· = .equal) (only .equal * M * K) :=
    .self_mul _
  rw [Symbol.language_eq_equation]
  change Predicts _ ((Symbol.ofLevel 0).language * _) _ _
  rw [Symbol.language_ofLevel (Nat.zero_le 6)]
  refine .bind (ih.operators 0) (C := Fronts Kind.EndsExpression)
    (fun e => .peek fun equals => ?_) fun K hK => ⟨?_, hK⟩
  · split
    · next ht =>
      refine .select (.advanceThen ht nofun ?_) ⟨fun _ => .inr, fun K hK w hw hfront => ?_⟩
      · rw [← mul_one Symbol.assignment.language]
        refine .bind ih.assignment (C := Always) (fun value => ?_)
          fun K hK => ⟨(one_mul K).symm ▸ hK, trivial⟩
        split
        · exact .pure
        · exact .pure
        · exact .throw trivial
      · rw [add_mul, one_mul] at hw
        exact hK.skip hw fun h => hequal (ht ▸ hfront ▸ h)
    · next ht =>
      refine .select .pure ⟨fun _ => .inl, fun K hK w hw hfront => ?_⟩
      rw [add_mul] at hw
      exact (hvalue _ K).skip_right hw fun h => ht (hfront.symm.trans h)
  · rw [add_mul, one_mul]
    refine ⟨?_, ?_⟩
    · refine Fronts.add (fun w hw => (hK w hw).1.1) ((hvalue _ K).mono ?_)
      rintro _ rfl
      exact ⟨nofun, nofun⟩
    · rintro op w k (hw | hw) hop
      · exact absurd ((hK _ hw).1.2 _ hop) (Nat.not_lt_zero _)
      · have hop' : op.kind = .equal := hvalue _ K _ hw
        rw [hop'] at hop
        cases hop

theorem operators_succ (ih : PredictsOn n) (l : Nat) :
    Predicts Absorbs (Symbol.unary.language * (operation l)∗) Anywhere
      (Reading.operators (n + 1) l) :=
  .bind ih.unary (fun left => ih.operatorsAfter l left) fun _ hK => ⟨(hK.kstar_mul l).endsCall, hK⟩

theorem operatorsAfter_succ (ih : PredictsOn n) (l : Nat) (left : Expr Unit) :
    Predicts Absorbs (operation l)∗ Anywhere (Reading.operatorsAfter (n + 1) l left) := by
  have hdone : ∀ op : Token, (∀ k, op.kind.level? = some k → ¬ l ≤ k) →
      Predicts Absorbs (operation l)∗ (·.peek = op) (pure left) := by
    intro op hop
    refine .select .pure ⟨one_le_kstar, fun K hK w hw hfront => ?_⟩
    rw [kstar_mul_eq] at hw
    rw [one_mul]
    exact (fronts_operation_mul l _).skip_right hw fun ⟨k, hk, hlk⟩ => hop k (hfront ▸ hk) hlk
  refine .peek fun op => ?_
  split
  · next hop => exact hdone op fun k hk => by rw [hop] at hk; cases hk
  · next k hop =>
    split
    · next hlk =>
      -- the right operand takes the tighter operators behind it, and what is left are operations
      refine .select (L := oneOf (fun kind => kind.level? = some k) *
        (Symbol.unary.language * (operation (k + 1))∗ * (operation l)∗)) ?_
        ⟨?_, fun K hK w hw hfront => ?_⟩
      · have hend : op.kind ≠ .eof := fun h => by rw [h] at hop; cases hop
        refine .bind (B := Always) (.advance hend hop) (fun _ => ?_) fun K hK => ⟨trivial, hK⟩
        exact .bind (ih.operators (k + 1)) (fun right => ih.operatorsAfter l _)
          fun K hK => ⟨hK.kstar_mul l, hK⟩
      · exact operator_mul_le hlk
      · exact hK.operator_mem hw (hfront ▸ hop)
    · next hlk =>
      refine hdone op fun k' hk' => ?_
      cases hop.symm.trans hk'
      exact hlk

theorem unary_succ (ih : PredictsOn n) :
    Predicts (Fronts Kind.EndsCall) Symbol.unary.language Anywhere (Reading.unary (n + 1)) := by
  have hcall : ∀ K, Fronts (fun kind => kind.opensOperand = true) (Symbol.call.language * K) := by
    intro K
    rw [Symbol.language_eq_equation]
    exact ((Opening.primary.mul _).mul K).fronts
  have hsign : ∀ (M : Language Token) (kind : Kind),
      Fronts (· = kind) (only kind * Symbol.unary.language * M) :=
    fun M kind => .self_mul kind _ M
  refine .peek fun op => ?_
  split
  · next hop =>
    refine .select (.advanceThen hop nofun ih.unary.last) ⟨?_, fun K _ w hw hfront => ?_⟩
    · conv_rhs => rw [Symbol.language_unary]
      exact le_self_add
    · rw [Symbol.language_unary, add_mul, add_mul] at hw
      rw [hop] at hfront
      refine Fronts.skip_right (S := (· ≠ .bang)) (.add ?_ ?_) hw (not_not.2 hfront)
      · exact (hsign K .minus).mono fun _ h => h ▸ nofun
      · exact (hcall K).mono fun _ h => Kind.ne_of_opens h rfl
  · next hop =>
    refine .select (.advanceThen hop nofun ih.unary.last) ⟨?_, fun K _ w hw hfront => ?_⟩
    · conv_rhs => rw [Symbol.language_unary]
      exact le_add_left le_self_add
    · rw [Symbol.language_unary, add_mul, add_mul] at hw
      rw [hop] at hfront
      have hw := (hsign K .bang).skip hw fun h => nomatch hfront.symm.trans h
      refine (hcall K).skip_right hw fun h => ?_
      rw [hfront] at h
      cases h
  · next hbang hminus =>
    refine .select (L := Symbol.call.language) ?_ ⟨?_, fun K _ w hw hfront => ?_⟩
    · rw [Symbol.language_eq_equation]
      exact .bind (B := Always) ih.primary.anywhere (fun e => ih.suffixes e)
        fun K hK => ⟨trivial, hK⟩
    · conv_rhs => rw [Symbol.language_unary]
      exact le_add_left (le_add_left le_rfl)
    · rw [Symbol.language_unary, add_mul, add_mul] at hw
      have hw := (hsign K .bang).skip hw fun h => hbang (hfront.symm.trans h)
      exact (hsign K .minus).skip hw fun h => hminus (hfront.symm.trans h)

theorem suffixes_succ (ih : PredictsOn n) (e : Expr Unit) :
    Predicts (Fronts Kind.EndsCall) Rhs.suffix.language∗ Anywhere
      (Reading.suffixes (n + 1) e) := by
  have hsuffixes : ∀ K : Language Token, Rhs.suffix.language∗ * K = K +
      (only .leftParen * ((1 + Symbol.arguments.language) * (only .rightParen *
        (Rhs.suffix.language∗ * K))) +
      only .dot * (only .identifier * (Rhs.suffix.language∗ * K))) := by
    intro K
    refine (kstar_mul_eq _ K).trans ?_
    generalize Rhs.suffix.language∗ * K = M
    rw [Rhs.language_suffix]
    simp only [add_mul, mul_assoc]
  have hle : Rhs.suffix.language∗ = _ := (mul_one _).symm.trans (hsuffixes 1)
  rw [mul_one] at hle
  refine .peek fun t => ?_
  split
  · next ht =>
    refine .select (.advanceThen (L := (1 + Symbol.arguments.language) * (only .rightParen *
      Rhs.suffix.language∗)) ht nofun ?_) ⟨?_, fun K hK w hw hfront => ?_⟩
    · refine .bind (.unlessAt (ih.arguments 0) Opening.arguments.fronts nofun nofun)
        (C := Fronts Kind.EndsCall) (fun args => ?_) fun K hK => ⟨?_, hK⟩
      · exact .expectThen fun paren => ih.suffixes _
      · exact ⟨.self_mul _ _ K, .self_mul _ _ K⟩
    · conv_rhs => rw [hle]
      exact le_add_left le_self_add
    · rw [hsuffixes] at hw
      rw [ht] at hfront
      have hw := hK.skip hw fun h => (hfront ▸ h).1 rfl
      simpa only [mul_assoc] using (Fronts.self .dot _).skip_right hw
        fun h => nomatch hfront.symm.trans h
  · next ht =>
    refine .select (.advanceThen (L := only .identifier * Rhs.suffix.language∗) ht nofun ?_)
      ⟨?_, fun K hK w hw hfront => ?_⟩
    · exact .expectThen fun name => ih.suffixes _
    · conv_rhs => rw [hle]
      exact le_add_left le_add_self
    · rw [hsuffixes] at hw
      rw [ht] at hfront
      have hw := hK.skip hw fun h => (hfront ▸ h).2 rfl
      simpa only [mul_assoc] using (Fronts.self .leftParen _).skip hw
        fun h => nomatch hfront.symm.trans h
  · next hparen hdot =>
    refine .select .pure ⟨one_le_kstar, fun K hK w hw hfront => ?_⟩
    rw [hsuffixes] at hw
    rw [one_mul]
    refine Fronts.skip_right (S := fun kind => kind = .leftParen ∨ kind = .dot) (.add ?_ ?_) hw ?_
    · exact .only_mul (.inl rfl) _
    · exact .only_mul (.inr rfl) _
    · rw [hfront]
      exact not_or.2 ⟨hparen, hdot⟩

theorem arguments_succ (ih : PredictsOn n) (count : Nat) :
    Predicts (Fronts (· = .rightParen)) Symbol.arguments.language Anywhere
      (Reading.arguments (n + 1) count) := by
  have hmore := ih.arguments (count + 1)
  rw [Symbol.language_eq_equation, Symbol.equation, Symbol.language_expression] at hmore ⊢
  refine listed ?_ ih.assignment (fun K hK => hK.mono ?_) hmore
  · trivial
  rintro _ (rfl | rfl)
  · exact Kind.endsExpression_comma
  · exact Kind.endsExpression_rightParen

/-- The token in front selects the operand. -/
theorem selects_operand (A : Tails) (kind : Kind) :
    Selects A kind kind.operand Symbol.primary.language := by
  refine ⟨fun w hw => Symbol.mem_primary_iff.2 ((kind.fronts_operand w hw).symm ▸ hw), ?_⟩
  rintro K _ _ ⟨u, hu, v, hv, rfl⟩ hfront
  have hopens : frontKind u ≠ .eof := fun h => by
    have hu := Opening.primary.fronts u hu
    rw [h] at hu
    cases hu
  rw [show (fun x1 x2 => x1 ++ x2) u v = u ++ v from rfl, frontKind_append hopens] at hfront
  exact ⟨u, hfront ▸ Symbol.mem_primary_iff.1 hu, v, hv, rfl⟩

theorem primary_succ (ih : PredictsOn n) :
    Predicts Always Symbol.primary.language Anywhere (Reading.primary (n + 1)) := by
  have hselects : ∀ {t : Token} {kind : Kind} {r : Reading (Expr Unit)}, t.kind = kind →
      Predicts Always kind.operand (·.peek = t) r →
      Predicts Always Symbol.primary.language (·.peek = t) r := by
    rintro t _ r rfl h
    exact h.select (selects_operand Always t.kind)
  have hliteral : ∀ {t : Token} {kind : Kind} {e : Expr Unit}, t.kind = kind → kind ≠ .eof →
      kind.operand = only kind →
      Predicts Always Symbol.primary.language (·.peek = t) (do Reading.advance; return e) := by
    intro t kind e ht hend hkind
    refine hselects ht ?_
    rw [hkind]
    exact .last (.advance (ht ▸ hend) ht)
  refine .peek fun t => ?_
  split
  · next ht => exact hliteral ht nofun rfl
  · next ht => exact hliteral ht nofun rfl
  · next ht => exact hliteral ht nofun rfl
  · next ht => exact hliteral ht nofun rfl
  · next ht => exact hliteral ht nofun rfl
  · next ht =>
    exact hselects ht (.advanceThen ht nofun (.expectThen fun _ => .last (.expect _)))
  · next ht => exact hliteral ht nofun rfl
  · next ht => exact hliteral ht nofun rfl
  · next ht =>
    exact hselects ht (.advanceThen ht nofun (.expectThen fun _ => (ih.routine _).last))
  · next ht =>
    refine hselects ht (.advanceThen ht nofun ?_)
    rw [Symbol.language_expression]
    refine .bind ih.assignment (C := Always) (fun e => .last (.expect _))
      fun K _ => ⟨?_, trivial⟩
    exact (Fronts.self _ K).mono fun _ h => h ▸ Kind.endsExpression_rightParen
  · refine .fail _ fun K _ w hw hfront => ?_
    have hopens := (Opening.primary.mul K).fronts w hw
    rw [hfront] at hopens
    cases hkind : t.kind <;> simp_all [Kind.opensOperand]

/-! ## Statements and declarations -/

theorem routine_succ (ih : PredictsOn n) (role : Role) :
    Predicts Always ((1 + Symbol.parameters.language) *
      (only .rightParen * Symbol.block.language)) Anywhere (Reading.routine (n + 1) role) := by
  rw [Symbol.language_eq_mul (s := .block) rfl]
  refine .bind (.unlessAt (parameters_predicts n 0) (Symbol.fronts_first rfl) nofun nofun)
    (C := Always) (fun params => .expectThen fun _ => .expectThen fun _ => ih.block.last)
    fun K _ => ⟨⟨?_, ?_⟩, trivial⟩
  · exact .self_mul _ _ K
  · exact .self_mul _ _ K

theorem block_succ (ih : PredictsOn n) :
    Predicts Always Symbol.block.behind Anywhere (Reading.block (n + 1)) := by
  have hfronts := Symbol.fronts_declaration
  have hblock := Symbol.behind_eq (s := .block) rfl
  have hmul : ∀ K : Language Token, Symbol.block.behind * K = only .rightBrace * K +
      Symbol.declaration.language * (Symbol.block.behind * K) := by
    intro K
    rw [hblock, mul_assoc]
    exact kstar_mul_eq _ _
  have hsplit : Symbol.block.behind = _ := (mul_one _).symm.trans (hmul 1)
  rw [mul_one, mul_one] at hsplit
  refine .peek fun t => ?_
  split
  · next ht =>
    refine .select (L := only .rightBrace) (.last (.advance (by simp [ht]) ht))
      ⟨?_, fun K _ w hw hfront => ?_⟩
    · conv_rhs => rw [hsplit]
      exact le_self_add
    · rw [hmul] at hw
      refine (hfronts.mul nofun _).skip_right hw fun h => ?_
      rw [hfront, ht] at h
      cases h
  · next ht =>
    refine .fail _ fun K _ w hw hfront => ?_
    rw [hmul] at hw
    rw [ht] at hfront
    rcases hw with hw | hw
    · cases (Fronts.self _ K w hw).symm.trans hfront
    · have h := hfronts.mul nofun _ w hw
      rw [hfront] at h
      cases h
  · next hbrace heof =>
    refine .select (L := Symbol.declaration.language * Symbol.block.behind) ?_
      ⟨?_, fun K _ w hw hfront => ?_⟩
    · refine .bind (B := Elsey) ih.declaration.anywhere (fun s => ih.block.last)
        fun K _ => ⟨?_, trivial⟩
      rw [hmul]
      refine .of_fronts (S := (· ≠ .kwElse)) (.add ?_ ?_) (not_not.2 rfl)
      · exact .only_mul nofun K
      · exact (hfronts.mul nofun _).mono fun _ h => Kind.ne_of_opens h rfl
    · conv_rhs => rw [hsplit]
      exact le_add_self
    · rw [hmul, ← mul_assoc] at hw
      exact (Fronts.self _ K).skip hw fun h => hbrace (hfront.symm.trans h)

theorem methods_succ (ih : PredictsOn n) :
    Predicts (Fronts (· = .rightBrace)) Symbol.function.language∗ Anywhere
      (Reading.methods (n + 1)) := by
  have hfronts : ∀ K, Fronts (· = .identifier) (Symbol.function.language * K) :=
    Symbol.fronts_first_mul rfl
  have hdone : ∀ {t : Token}, t.kind ≠ .identifier →
      Predicts (Fronts (· = .rightBrace)) Symbol.function.language∗ (·.peek = t)
        (return [] : Reading (List (Method Unit))) := by
    intro t ht
    refine .select .pure ⟨one_le_kstar, fun K _ w hw hfront => ?_⟩
    rw [kstar_mul_eq] at hw
    rw [one_mul]
    exact (hfronts _).skip_right hw fun h => ht (hfront.symm.trans h)
  refine .peek fun t => ?_
  split
  · next ht => exact hdone (by rw [ht]; nofun)
  · next ht => exact hdone (by rw [ht]; nofun)
  · next hbrace _ =>
    refine .select (L := Symbol.function.language * Symbol.function.language∗) ?_
      ⟨mul_kstar_le_kstar, fun K hK w hw hfront => ?_⟩
    · exact .bind (B := Always) (ih.named .method).anywhere (fun _ => ih.methods.last)
        fun K hK => ⟨trivial, hK⟩
    · rw [kstar_mul_eq, ← mul_assoc] at hw
      exact hK.skip hw fun h => hbrace (hfront.symm.trans h)

theorem named_succ (ih : PredictsOn n) (role : Role) :
    Predicts Always Symbol.function.language Anywhere (Reading.named (n + 1) role) := by
  rw [Symbol.language_eq_equation]
  exact .expectThen fun _ => .expectThen fun _ => (ih.routine role).last

theorem classDeclared_succ (ih : PredictsOn n) :
    Predicts Always Symbol.classDecl.behind Anywhere (Reading.classDeclared (n + 1)) := by
  rw [Symbol.behind_eq rfl]
  refine .expectThen fun name => .optional (B := Always) (C := Always) (.expect _)
    (fun superclass => ?_) (fun K hK => ⟨trivial, hK⟩) fun K _ w hw hfront => ?_
  · refine .expectThen fun _ => .bind ih.methods (C := Always) (fun ms => .last (.expect _))
      fun K hK => ⟨?_, trivial⟩
    exact .self _ K
  · cases (Fronts.self_mul .leftBrace _ K w hw).symm.trans hfront

theorem variableDeclared_succ (ih : PredictsOn n) :
    Predicts Always Symbol.varDecl.behind Anywhere (Reading.variableDeclared (n + 1)) := by
  rw [Symbol.behind_eq rfl, Symbol.language_expression]
  refine .expectThen fun name => .optional (C := Always) ih.assignment
    (fun init => .last (.expect _)) (fun K hK => ⟨?_, trivial⟩) fun K _ w hw hfront => ?_
  · exact (Fronts.self _ K).mono fun _ h => h ▸ Kind.endsExpression_semicolon
  · cases (Fronts.self .semicolon K w hw).symm.trans hfront

theorem expressionStatement_succ (ih : PredictsOn n) :
    Predicts Always Symbol.exprStmt.language Anywhere (Reading.expressionStatement (n + 1)) := by
  rw [Symbol.language_eq_equation, Symbol.equation, Symbol.language_expression]
  refine .bind ih.assignment (C := Always) (fun e => .last (.expect _)) fun K _ => ⟨?_, trivial⟩
  exact (Fronts.self _ K).mono fun _ h => h ▸ Kind.endsExpression_semicolon

/-- The keyword or bracket in front selects the statement. -/
theorem selects_statement (A : Tails) {s : Symbol} {kind : Kind} (hs : s.first? = some kind)
    (hplain : kind.opensPlain) (hexpression : kind.opensExpression = false) :
    Selects A kind s.language Symbol.statement.language := by
  constructor
  · rw [Symbol.language_eq_equation .statement]
    intro w hw
    simp only [Symbol.equation]
    cases s <;> cases hs <;> tauto
  · intro K _ w hw hfront
    rcases Symbol.statement_cases hw with hw | ⟨-, s', hs', hw⟩
    · have hopens := (Opening.exprStmt.mul K).fronts w hw
      rw [hfront, hexpression] at hopens
      cases hopens
    · rw [hfront] at hs'
      have hname : kind ≠ .identifier := by
        rintro rfl
        cases hexpression
      cases Symbol.eq_of_first hs hs' hname
      exact hw

/-- The part of a `for` loop in front of its first semicolon. -/
theorem forInit (ih : PredictsOn n) {M : Language Token} [Filled M]
    {k : Option (Stmt Unit) → Reading (Stmt Unit)}
    (hk : ∀ init, Predicts Elsey M Anywhere (k init)) :
    Predicts Elsey ((Symbol.varDecl.language + (Symbol.exprStmt.language + only .semicolon)) * M)
      Anywhere (do
        let init ← match (← peek).kind with
          | .semicolon => advance; pure none
          | .kwVar => advance; some <$> Reading.variableDeclared n
          | _ => some <$> Reading.expressionStatement n
        k init) := by
  have hvar : ∀ K, Fronts (· = .kwVar) (Symbol.varDecl.language * M * K) := fun K =>
    mul_assoc Symbol.varDecl.language M K ▸ Symbol.fronts_first_mul rfl _
  have hexpr : ∀ K, Fronts (fun kind => kind.opensExpression = true)
      (Symbol.exprStmt.language * M * K) := fun K =>
    ((Opening.exprStmt.mul M).mul K).fronts
  rw [add_mul, add_mul]
  refine .peek fun t => ?_
  dsimp only
  split
  · next ht =>
    refine .select (L := only .semicolon * M) (.advanceThen ht nofun (hk none))
      ⟨le_add_left le_add_self, fun K _ w hw hfront => ?_⟩
    rw [ht] at hfront
    rw [add_mul, add_mul] at hw
    refine (hexpr K).skip ((hvar K).skip hw ?_) ?_
    · rw [hfront]; nofun
    · rw [hfront]; nofun
  · next ht =>
    refine .select (L := Symbol.varDecl.language * M) ?_
      ⟨le_self_add, fun K _ w hw hfront => ?_⟩
    · rw [Symbol.language_eq_mul (s := .varDecl) rfl, mul_assoc]
      exact .advanceThen ht nofun
        (.bind (B := Always) ih.variableDeclared.map hk fun K hK => ⟨trivial, hK⟩)
    · rw [ht] at hfront
      rw [add_mul, add_mul] at hw
      refine Fronts.skip_right (S := (· ≠ .kwVar)) (.add ?_ ?_) hw (not_not.2 hfront)
      · exact (hexpr K).mono fun _ h => Kind.ne_of_opens h rfl
      · exact .only_mul_mul nofun M K
  · next hsemicolon hkwVar =>
    refine .select (L := Symbol.exprStmt.language * M)
      (.bind (B := Always) ih.expressionStatement.anywhere.map hk fun K hK => ⟨trivial, hK⟩)
      ⟨le_add_left le_self_add, fun K _ w hw hfront => ?_⟩
    rw [add_mul, add_mul] at hw
    refine (Fronts.self_mul _ M K).skip_right ((hvar K).skip hw ?_) ?_
    · exact fun h => hkwVar (hfront.symm.trans h)
    · exact fun h => hsemicolon (hfront.symm.trans h)

theorem forStatement_succ (ih : PredictsOn n) :
    Predicts Elsey Symbol.forStmt.behind Anywhere (Reading.forStatement (n + 1)) := by
  have hends : ∀ {kind : Kind} {M : Language Token}, kind.EndsExpression → ∀ K, Elsey K →
      (Fronts Kind.EndsExpression (only kind * M * K) ∧ Fronts (· = kind) (only kind * M * K)) ∧
        Elsey K :=
    fun hkind K hK => ⟨⟨.only_mul_mul hkind _ K, .self_mul _ _ K⟩, hK⟩
  rw [Symbol.behind_eq rfl, Symbol.language_expression]
  refine .expectThen fun _ => forInit ih fun init => ?_
  refine .bind (.unlessAt ih.assignment Opening.assignment.fronts nofun nofun)
    (fun test => .expectThen fun _ => ?_) (hends Kind.endsExpression_semicolon)
  refine .bind (.unlessAt ih.assignment Opening.assignment.fronts nofun nofun)
    (fun step => .expectThen fun _ => ?_) (hends Kind.endsExpression_rightParen)
  exact ih.statement.last

theorem statement_succ (ih : PredictsOn n) :
    Predicts Elsey Symbol.statement.language Anywhere (Reading.statement (n + 1)) := by
  have hends : ∀ {kind : Kind} {M : Language Token}, kind.EndsExpression → ∀ K, Elsey K →
      Fronts Kind.EndsExpression (only kind * M * K) ∧ Elsey K :=
    fun hkind K hK => ⟨.only_mul_mul hkind _ K, hK⟩
  have hselect : ∀ {t : Token} {s : Symbol} {kind : Kind} {M : Language Token}
      {k : Unit → Reading (Stmt Unit)} [Filled M], t.kind = kind → s.first? = some kind →
      kind.opensPlain → kind.opensExpression = false → s.equation = only kind * M →
      Predicts Elsey M Anywhere (k ()) →
      Predicts Elsey Symbol.statement.language (·.peek = t) (Reading.advance >>= k) := by
    intro t s kind M k _ ht hs hplain hexpr heq h
    refine .select (L := s.language) ?_ (ht ▸ selects_statement Elsey hs hplain hexpr)
    rw [Symbol.language_eq_equation, heq]
    exact .advanceThen ht (by rintro rfl; cases hplain) h
  refine .peek fun t => ?_
  split
  · next ht =>
    have hbehind := Symbol.behind_eq (s := .forStmt) rfl
    exact hselect ht (s := .forStmt) rfl rfl rfl rfl (hbehind ▸ ih.forStatement)
  · next ht =>
    refine hselect ht (s := .ifStmt) rfl rfl rfl rfl ?_
    rw [Symbol.language_expression]
    refine .expectThen fun _ => .bind ih.assignment (fun test => .expectThen fun _ => ?_)
      (hends Kind.endsExpression_rightParen)
    -- an `else` that may come behind this conditional is read as one of its own
    refine .bind ih.statement (C := Elsey) (fun yes => ?_) fun K hK => ⟨hK.optional_mul, hK⟩
    rw [← mul_one (1 + _)]
    refine .optional (C := Always) ih.statement (fun no => .pure) (fun K hK => ⟨?_, trivial⟩)
      fun K hK w hw hfront => ?_
    · rwa [one_mul]
    · rw [one_mul] at hw
      rw [mul_one]
      exact hK w hw hfront
  · next ht =>
    refine hselect ht (s := .whileStmt) rfl rfl rfl rfl ?_
    rw [Symbol.language_expression]
    exact .expectThen fun _ => .bind ih.assignment
      (fun test => .expectThen fun _ => ih.statement.last) (hends Kind.endsExpression_rightParen)
  · next ht =>
    refine hselect ht (s := .returnStmt) rfl rfl rfl rfl ?_
    rw [Symbol.language_expression]
    refine .bind (.unlessAt ih.assignment Opening.assignment.fronts nofun nofun) (C := Always)
      (fun value => .last (.expect _)) fun K _ => ⟨⟨?_, .self _ K⟩, trivial⟩
    exact .only_mul Kind.endsExpression_semicolon K
  · next ht =>
    have hbehind := Symbol.behind_eq (s := .block) rfl
    exact hselect ht (s := .block) rfl rfl rfl rfl (hbehind ▸ ih.block.last.mono fun _ _ => trivial)
  · next ht =>
    refine hselect ht (s := .printStmt) rfl rfl rfl rfl ?_
    rw [Symbol.language_expression]
    exact .bind ih.assignment (C := Always) (fun value => .last (.expect _))
      fun K _ => ⟨.only_mul Kind.endsExpression_semicolon K, trivial⟩
  · refine .select (ih.expressionStatement.anywhere.mono fun _ _ => trivial)
      ⟨le_self_add.trans (Symbol.language_eq_equation .statement).ge, fun K _ w hw hfront => ?_⟩
    have hplain := (Opening.statement.mul K).fronts w hw
    rcases Symbol.statement_cases hw with hw | ⟨hexpression, -⟩
    · exact hw
    · rw [hfront] at hplain hexpression
      unfold Kind.opensPlain at hplain
      split at hplain
      all_goals first
        | contradiction
        | cases hexpression.symm.trans hplain

theorem statement_le_declaration : Symbol.statement.language ≤ Symbol.declaration.language := by
  rw [Symbol.language_eq_equation .declaration]
  exact le_add_left (le_add_left le_add_self)

theorem elsey_one : Elsey 1 := by
  rintro _ rfl ⟨⟩

/-- In front of a name, the word `fun` opens a declaration. -/
theorem functionDeclared (ih : PredictsOn n) {t : Token} (ht : t.kind = .kwFun) :
    Predicts Elsey Symbol.declaration.language
      (fun c => c.peek = t ∧ frontKind c.rest.tail = .identifier) (do
        Reading.advance
        let (name, params, body) ← Reading.named n .function
        return Stmt.function name params body) := by
  refine .selectSecond (L := Symbol.funDecl.language) (S := (· = .identifier)) ?_ ?_ ?_ ?_ ?_
  · rw [Symbol.language_eq_equation]
    exact .advanceThen ht nofun ((ih.named .function).last.mono fun _ _ => trivial)
  · rw [Symbol.language_eq_equation .declaration]
    exact le_add_left le_self_add
  · intro K _ t' w hw ht' hsecond
    rcases Symbol.declaration_cases hw with ⟨h, -⟩ | ⟨-, h⟩ | ⟨h, -⟩ | ⟨-, h⟩
    · cases (ht'.trans ht).symm.trans h
    · exact h
    · cases (ht'.trans ht).symm.trans h
    · obtain ⟨_, _, ⟨⟩, -, hfun⟩ := Opening.statement.mul K _ h
      obtain ⟨p, u, rfl, hp⟩ := hfun (ht'.trans ht)
      cases hsecond.symm.trans hp
  · intro h
    cases Symbol.fronts_first (s := .funDecl) rfl _ h
  · obtain ⟨w, hw⟩ : Filled Symbol.funDecl.language := inferInstance
    exact ⟨1, elsey_one, w, (mul_one Symbol.funDecl.language).symm ▸ hw,
      (Symbol.fronts_first rfl w hw).trans ht.symm⟩

/-- Where no name follows, the word `fun` opens a statement. -/
theorem functionStatement (ih : PredictsOn n) {t : Token} (ht : t.kind = .kwFun) :
    Predicts Elsey Symbol.declaration.language
      (fun c => c.peek = t ∧ frontKind c.rest.tail ≠ .identifier) (Reading.statement n) := by
  refine .selectSecond (L := Symbol.statement.language) (S := (· ≠ .identifier))
    ih.statement.anywhere statement_le_declaration ?_ ?_ ?_
  · intro K _ t' w hw ht' hsecond
    rcases Symbol.declaration_cases hw with ⟨h, -⟩ | ⟨-, h⟩ | ⟨h, -⟩ | ⟨-, h⟩
    · cases (ht'.trans ht).symm.trans h
    · rw [Symbol.language_eq_equation, Symbol.equation, mul_assoc] at h
      obtain ⟨_, ⟨_, rfl, -⟩, v, hv, ⟨⟩⟩ := h
      exact absurd (Symbol.fronts_first_mul rfl K _ hv) hsecond
    · cases (ht'.trans ht).symm.trans h
    · exact h
  · intro h
    cases Opening.statement.fronts _ h
  · obtain ⟨w, hw, hfront⟩ := Symbol.exists_statement_fun
    exact ⟨1, elsey_one, w, (mul_one Symbol.statement.language).symm ▸ hw, hfront.trans ht.symm⟩

theorem declared_succ (ih : PredictsOn n) :
    Predicts Elsey Symbol.declaration.language Anywhere (Reading.declared (n + 1)) := by
  have hequation := Symbol.language_eq_equation .declaration
  refine .peek fun t => ?_
  split
  · next ht =>
    refine .select (L := Symbol.classDecl.language) ?_ ⟨?_, fun K _ w hw hfront => ?_⟩
    · rw [Symbol.language_eq_mul (s := .classDecl) rfl]
      exact .advanceThen ht nofun (ih.classDeclared.mono fun _ _ => trivial)
    · rw [hequation]
      exact le_self_add
    · rw [ht] at hfront
      rcases Symbol.declaration_cases hw with ⟨-, h⟩ | ⟨h, -⟩ | ⟨h, -⟩ | ⟨h, -⟩
      · exact h
      · cases hfront.symm.trans h
      · cases hfront.symm.trans h
      · exact absurd hfront (Kind.ne_of_opens h rfl)
  · next ht => exact .ifSecond (ih.functionDeclared ht) (ih.functionStatement ht)
  · next ht =>
    refine .select (L := Symbol.varDecl.language) ?_ ⟨?_, fun K _ w hw hfront => ?_⟩
    · rw [Symbol.language_eq_mul (s := .varDecl) rfl]
      exact .advanceThen ht nofun (ih.variableDeclared.mono fun _ _ => trivial)
    · rw [hequation]
      exact le_add_left (le_add_left le_self_add)
    · rw [ht] at hfront
      rcases Symbol.declaration_cases hw with ⟨h, -⟩ | ⟨h, -⟩ | ⟨-, h⟩ | ⟨h, -⟩
      · cases hfront.symm.trans h
      · cases hfront.symm.trans h
      · exact h
      · exact absurd hfront (Kind.ne_of_opens h rfl)
  · next hclass hfun hvar =>
    refine .select ih.statement.anywhere ⟨statement_le_declaration, fun K _ w hw hfront => ?_⟩
    rcases Symbol.declaration_cases hw with ⟨h, -⟩ | ⟨h, -⟩ | ⟨h, -⟩ | ⟨-, h⟩
    · exact absurd (hfront.symm.trans h) hclass
    · exact absurd (hfront.symm.trans h) hfun
    · exact absurd (hfront.symm.trans h) hvar
    · exact h

end PredictsOn

/-- **All readings are predictive for what they read**, on any fuel. -/
theorem predictsOn (n : Nat) : PredictsOn n := by
  induction n with
  | zero =>
    exact ⟨.outOfFuel, fun _ => .outOfFuel, fun _ _ => .outOfFuel, .outOfFuel, fun _ => .outOfFuel,
      fun _ => .outOfFuel, .outOfFuel, fun _ => .outOfFuel, .outOfFuel, .outOfFuel, .outOfFuel,
      .outOfFuel, .outOfFuel, fun _ => .outOfFuel, .outOfFuel, .outOfFuel, .outOfFuel, .outOfFuel⟩
  | succ n ih =>
    exact ⟨ih.assignment_succ, ih.operators_succ, ih.operatorsAfter_succ, ih.unary_succ,
      ih.suffixes_succ, ih.arguments_succ, ih.primary_succ, ih.routine_succ, ih.block_succ,
      .declaration ih.declared, ih.declared_succ, ih.classDeclared_succ, ih.methods_succ,
      ih.named_succ, ih.variableDeclared_succ, ih.expressionStatement_succ, ih.forStatement_succ,
      ih.statement_succ⟩

end Reading

end LoxLang
