import LoxLang.Proofs.Grammar.Carries

/-!
# Every reading is carried

The readings of the grammar read the same on other lines, in front of other tokens and on more fuel
(`Reading.carriesOn`, by induction on the fuel). What may stand at the end instead of the end mark
is what may stand behind the construct: nothing that continues an expression (`Kind.EndsExpression`)
behind an expression, no `else` behind a statement, and anything behind a closing token.
-/

namespace LoxLang

/-- The joined operands on other lines. -/
theorem Expr.reline_join {σ : Type} (f : Nat → Nat) (op : Token) (left right : Expr σ) :
    (Expr.join op left right).reline f =
      .join (op.reline f) (left.reline f) (right.reline f) := by
  unfold join
  rw [Token.kind_reline]
  split <;> rfl

theorem Stmt.reline_forLoop {σ : Type} (f : Nat → Nat) (init : Option (Stmt σ))
    (test step : Option (Expr σ)) (body : Stmt σ) :
    (Stmt.forLoop init test step body).reline f =
      .forLoop (init.map (Stmt.reline f)) (test.map (Expr.reline f)) (step.map (Expr.reline f))
        (body.reline f) := by
  cases init <;> cases test <;> cases step <;> rfl

theorem Stmt.relineAll_toList_append {σ : Type} (f : Nat → Nat) (s : Option (Stmt σ))
    (ss : List (Stmt σ)) :
    Stmt.relineAll f (s.toList ++ ss) = (s.map (Stmt.reline f)).toList ++ Stmt.relineAll f ss := by
  cases s <;> rfl

namespace Reading

/-! ## Readings that need a token -/

theorem not_derives_assignment_nil : ¬ Derives (.sym .assignment) [] := by
  intro h
  obtain ⟨t, u, hnil, -⟩ := h.begins_assignment
  cases hnil

theorem needs_assignment (n : Nat) : Needs (assignment n) :=
  (soundOn n).assignment.needs fun _ h => not_derives_assignment_nil h.1

theorem needs_arguments (n count : Nat) : Needs (arguments n count) :=
  ((soundOn n).arguments count).needs fun _ h => by
    obtain ⟨u, v, hnil, hu, -⟩ := Derives.seq_iff.1 h.2.1
    rw [(List.append_eq_nil_iff.1 hnil.symm).1] at hu
    exact not_derives_assignment_nil (Derives.sym_iff.1 hu)

theorem needs_parameters (n count : Nat) : Needs (parameters n count) :=
  (SoundOn.parameters n count).needs fun _ h => by
    obtain ⟨t, u, hnil, -⟩ := Derives.token_seq_iff.1 h.2.1
    cases hnil

theorem needs_block (n : Nat) : Needs (block n) :=
  (soundOn n).block.needs fun _ h => by
    obtain ⟨u, v, hnil, -, hv⟩ := Derives.seq_iff.1 h.1
    obtain ⟨t, rfl, -⟩ := Derives.token_iff.1 hv
    cases u <;> cases hnil

theorem needs_primary (n : Nat) : Needs (primary n) :=
  (soundOn n).primary.needs fun _ h => by
    obtain ⟨t, u, hnil, -⟩ := h.1.begins_primary
    cases hnil

/-- The word `fun` alone is no statement. -/
theorem statement_fun_alone {n : Nat} {t : Token} (ht : t.kind = .kwFun) {c c' : Cursor}
    {s : Stmt Unit} (hc : c.endMark.isEnd) (hrest : c.rest = [t]) (hs : statement n c = .ok s c') :
    c'.errors ≠ c.errors := by
  intro he
  have h := (soundOn n).statement c hc nofun
  rw [hs] at h
  cases h with
  | ok hahead hw =>
    obtain ⟨t', u, rfl, -, hfun⟩ := (hw he).1.begins_statement
    have hcons := hahead.rest
    rw [hrest] at hcons
    obtain ⟨rfl, hnil⟩ := List.cons.inj hcons
    obtain ⟨t', u', rfl, -⟩ := hfun ht
    cases hnil

theorem needs_expressionStatement (n : Nat) : Needs (expressionStatement n) :=
  (soundOn n).expressionStatement.needs fun _ h => by
    obtain ⟨u, v, hnil, -, hv⟩ := Derives.seq_iff.1 (Derives.sym_iff.1 h.1)
    obtain ⟨t, rfl, -⟩ := Derives.token_iff.1 hv
    cases u <;> cases hnil

theorem needs_statement (n : Nat) : Needs (statement n) :=
  (soundOn n).statement.needs fun _ h => by
    obtain ⟨t, u, hnil, -⟩ := h.1.begins_statement
    cases hnil

/-- Everything that is read on the fuel `n` is read on the fuel `m`, on other lines and in front of
other tokens. -/
structure CarriesOn (f : Nat → Nat) (n m : Nat) : Prop where
  assignment : Carries Kind.EndsExpression f AnyPlaces (Expr.reline f) (assignment n) (assignment m)
  operators : ∀ l, Carries (Kind.EndsChain l) f AnyPlaces (Expr.reline f) (operators n l)
    (operators m l)
  operatorsAfter : ∀ l left, Carries (Kind.EndsChain l) f AnyPlaces (Expr.reline f)
    (operatorsAfter n l left) (operatorsAfter m l (left.reline f))
  unary : Carries Kind.EndsCall f AnyPlaces (Expr.reline f) (unary n) (unary m)
  suffixes : ∀ e, Carries Kind.EndsCall f AnyPlaces (Expr.reline f) (suffixes n e)
    (suffixes m (e.reline f))
  arguments : ∀ count, Carries (fun kind => kind.EndsExpression ∧ kind ≠ .comma) f AnyPlaces
    (Expr.relineAll f) (arguments n count) (arguments m count)
  primary : Carries Any f AnyPlaces (Expr.reline f) (primary n) (primary m)
  routine : ∀ role, Carries Any f AnyPlaces
    (fun r => (r.1.map (Token.reline f), Stmt.relineAll f r.2)) (routine n role) (routine m role)
  block : Carries Any f AnyPlaces (Stmt.relineAll f) (block n) (block m)
  declaration : Carries (· ≠ .kwElse) f AnyPlaces (Option.map (Stmt.reline f)) (declaration n)
    (declaration m)
  declared : Carries (· ≠ .kwElse) f AnyPlaces (Stmt.reline f) (declared n) (declared m)
  classDeclared : Carries Any f AnyPlaces (Stmt.reline f) (classDeclared n) (classDeclared m)
  methods : Carries (fun kind => kind = .rightBrace ∨ kind = .eof) f AnyPlaces (Method.relineAll f)
    (methods n) (methods m)
  named : ∀ role, Carries Any f AnyPlaces
    (fun r => (r.1.reline f, r.2.1.map (Token.reline f), Stmt.relineAll f r.2.2)) (named n role)
    (named m role)
  variableDeclared : Carries Any f AnyPlaces (Stmt.reline f) (variableDeclared n)
    (variableDeclared m)
  expressionStatement : Carries Any f AnyPlaces (Stmt.reline f) (expressionStatement n)
    (expressionStatement m)
  forStatement : Carries (· ≠ .kwElse) f AnyPlaces (Stmt.reline f) (forStatement n)
    (forStatement m)
  statement : Carries (· ≠ .kwElse) f AnyPlaces (Stmt.reline f) (statement n) (statement m)

namespace CarriesOn

variable {f : Nat → Nat} {n m : Nat}

theorem assignment_succ (ih : CarriesOn f n m) :
    Carries Kind.EndsExpression f AnyPlaces (Expr.reline f) (Reading.assignment (n + 1))
      (Reading.assignment (m + 1)) := by
  refine .bindOf (ih.operators 0) (fun e => .peek (fun equals => ?_) fun t t' ht ht' => ?_)
    (.inl fun _ h => h.1)
  · rw [Token.kind_reline]
    split
    · next heq =>
      refine .bind (.advance (by simp [heq])) fun _ => .bind ih.assignment fun value => ?_
      cases e with
      | ref s => exact .pure (Expr.assign s value)
      | get object name => exact .pure (Expr.set object name value)
      | _ => exact .throw _
    · exact .pure e
  · rw [if_neg (by simp [ht]), if_neg ht'.2]
    exact .pure e

theorem operators_succ (ih : CarriesOn f n m) (l : Nat) :
    Carries (Kind.EndsChain l) f AnyPlaces (Expr.reline f) (Reading.operators (n + 1) l)
      (Reading.operators (m + 1) l) :=
  .bindOf ih.unary (fun left => ih.operatorsAfter l left) (.inl fun _ h => h.1)

theorem operatorsAfter_succ (ih : CarriesOn f n m) (l : Nat) (left : Expr Unit) :
    Carries (Kind.EndsChain l) f AnyPlaces (Expr.reline f) (Reading.operatorsAfter (n + 1) l left)
      (Reading.operatorsAfter (m + 1) l (left.reline f)) := by
  refine .peek (fun op => ?_) fun t t' ht ht' => ?_
  · rw [Token.kind_reline]
    cases hk : op.kind.level? with
    | none => exact .pure left
    | some k =>
      dsimp only
      split
      · next hl =>
        refine .bind (.advance fun h => by rw [h] at hk; cases hk) fun _ => ?_
        refine .bindOf (ih.operators (k + 1)) (fun right => ?_)
          (.inl fun _ h => ⟨h.1, fun j hj => Nat.lt_succ_of_lt (Nat.lt_of_lt_of_le (h.2 j hj) hl)⟩)
        rw [← Expr.reline_join]
        exact ih.operatorsAfter l _
      · exact .pure left
  · rw [ht]
    cases hk : t'.kind.level? with
    | none => exact .pure left
    | some k =>
      dsimp only
      rw [if_neg (Nat.not_le.2 (ht'.2 k hk))]
      exact .pure left

theorem unary_succ (ih : CarriesOn f n m) :
    Carries Kind.EndsCall f AnyPlaces (Expr.reline f) (Reading.unary (n + 1))
      (Reading.unary (m + 1)) := by
  have hcall : Carries Kind.EndsCall f AnyPlaces (Expr.reline f)
      (do let e ← Reading.primary n; Reading.suffixes n e)
      (do let e ← Reading.primary m; Reading.suffixes m e) :=
    .bindOf ih.primary (fun e => ih.suffixes e) (.inl fun _ _ => trivial)
  have hprefix : ∀ op : Token, op.kind ≠ .eof →
      Carries Kind.EndsCall f (fun c c' => c.peek = op ∧ c'.peek = op.reline f) (Expr.reline f)
        (do Reading.advance; return Expr.unary op (← Reading.unary n))
        (do Reading.advance; return Expr.unary (op.reline f) (← Reading.unary m)) :=
    fun op hop => .bind (.advance hop) fun _ => .bind ih.unary fun e => .pure (Expr.unary op e)
  refine .peek (fun op => ?_) fun t t' ht ht' => ?_
  · rw [Token.kind_reline]
    split
    · next hop => exact hprefix op (by simp [hop])
    · next hop => exact hprefix op (by simp [hop])
    · exact hcall.anywhere
  · rw [ht]
    exact .needs hcall.sound ((needs_primary n).bind ih.primary.sound (soundOn n).suffixes)

theorem suffixes_succ (ih : CarriesOn f n m) (e : Expr Unit) :
    Carries Kind.EndsCall f AnyPlaces (Expr.reline f) (Reading.suffixes (n + 1) e)
      (Reading.suffixes (m + 1) (e.reline f)) := by
  refine .peek (fun t => ?_) fun t t' ht ht' => ?_
  · rw [Token.kind_reline]
    split
    · next ht =>
      refine .bind (.advance (by simp [ht])) fun _ => ?_
      refine .bindOf (.unlessAt (ih.arguments 0) (needs_arguments n 0)) (fun args => ?_)
        (.inr fun _ => needs_expect)
      refine .bind (.expect _) fun paren => ?_
      cases args <;> exact ih.suffixes _
    · next ht =>
      refine .bind (.advance (by simp [ht])) fun _ => ?_
      exact .bind (.expect _) fun name => ih.suffixes (.get e name)
    · exact .pure e
  · rw [ht]
    dsimp only
    split
    · next h => exact absurd h ht'.1
    · next h => exact absurd h ht'.2
    · exact .pure e

theorem arguments_succ (ih : CarriesOn f n m) (count : Nat) :
    Carries (fun kind => kind.EndsExpression ∧ kind ≠ .comma) f AnyPlaces (Expr.relineAll f)
      (Reading.arguments (n + 1) count) (Reading.arguments (m + 1) count) := by
  have hrest : Carries (fun kind => kind.EndsExpression ∧ kind ≠ .comma) f AnyPlaces
      (Expr.relineAll f)
      (do
        let e ← Reading.assignment n
        if ← accept .comma then return e :: (← Reading.arguments n (count + 1)) else return [e])
      (do
        let e ← Reading.assignment m
        if ← accept .comma then return e :: (← Reading.arguments m (count + 1))
        else return [e]) := by
    refine .bindOf ih.assignment (fun e => ?_) (.inl fun _ h => h.1)
    refine .bind (.accept fun _ (h : Kind.EndsExpression _ ∧ _) => h.2) fun comma => ?_
    cases comma with
    | true => exact .bind (ih.arguments _) fun es => .pure (e :: es)
    | false => exact .pure [e]
  rw [Reading.arguments, Reading.arguments]
  split
  · exact .noted hrest.sound
  · exact hrest

theorem primary_succ (ih : CarriesOn f n m) :
    Carries Any f AnyPlaces (Expr.reline f) (Reading.primary (n + 1))
      (Reading.primary (m + 1)) := by
  have hliteral : ∀ (t : Token) (v : Literal), t.kind ≠ .eof →
      Carries Any f (fun c c' => c.peek = t ∧ c'.peek = t.reline f) (Expr.reline f)
        (do Reading.advance; return (.literal v : Expr Unit))
        (do Reading.advance; return (.literal v : Expr Unit)) :=
    fun t v ht => .bind (.advance ht) fun _ => .pure (Expr.literal v)
  refine .peek (fun t => ?_) fun t t' ht _ => ?_
  · rw [Token.kind_reline]
    split
    · next ht => exact hliteral t _ (by simp [ht])
    · next ht => exact hliteral t _ (by simp [ht])
    · next ht => exact hliteral t _ (by simp [ht])
    · next ht => exact hliteral t _ (by simp [ht])
    · next ht => exact hliteral t _ (by simp [ht])
    · next ht =>
      refine .bind (.advance (by simp [ht])) fun _ => .bind (.expect _) fun _ => ?_
      exact .bind (.expect _) fun method => .pure (Expr.super ⟨(), t⟩ method)
    · next ht =>
      exact .bind (.advance (by simp [ht])) fun _ => .pure (Expr.this ⟨(), t⟩)
    · next ht =>
      exact .bind (.advance (by simp [ht])) fun _ => .pure (Expr.ref ⟨(), t⟩)
    · next ht =>
      refine .bind (.advance (by simp [ht])) fun _ => .bind (.expect _) fun _ => ?_
      exact .bind (ih.routine .function) fun r => .pure (Expr.lambda r.1 r.2)
    · next ht =>
      refine .bind (.advance (by simp [ht])) fun _ => ?_
      refine .bindOf ih.assignment (fun e => ?_) (.inr fun _ => needs_expect)
      exact .bind (.expect _) fun _ => .pure (Expr.group e)
    · exact .fail _
  · rw [ht]
    exact .fail _

/-! ## Bodies -/

theorem parameters (hnm : n ≤ m) (count : Nat) :
    Carries (· ≠ .comma) f AnyPlaces (List.map (Token.reline f)) (Reading.parameters n count)
      (Reading.parameters m count) := by
  induction n generalizing m count with
  | zero => exact .outOfFuel
  | succ n ih =>
    obtain ⟨m, rfl⟩ := Nat.exists_eq_succ_of_ne_zero (Nat.ne_zero_of_lt hnm)
    have hrest : Carries (· ≠ .comma) f AnyPlaces (List.map (Token.reline f))
        (do
          let p ← Reading.expect .identifier .parameterName
          if ← accept .comma then return p :: (← Reading.parameters n (count + 1)) else return [p])
        (do
          let p ← Reading.expect .identifier .parameterName
          if ← accept .comma then return p :: (← Reading.parameters m (count + 1))
          else return [p]) := by
      refine .bind (.expect _) fun p => .bind (.accept fun _ h => h) fun comma => ?_
      cases comma with
      | true => exact .bind (ih (Nat.le_of_succ_le_succ hnm) _) fun ps => .pure (p :: ps)
      | false => exact .pure [p]
    rw [Reading.parameters, Reading.parameters]
    split
    · exact .noted hrest.sound
    · exact hrest

theorem routine_succ (hnm : n ≤ m) (ih : CarriesOn f n m) (role : Role) :
    Carries Any f AnyPlaces (fun r => (r.1.map (Token.reline f), Stmt.relineAll f r.2))
      (Reading.routine (n + 1) role) (Reading.routine (m + 1) role) := by
  refine .bindOf (.unlessAt (parameters hnm 0) (needs_parameters n 0)) (fun params => ?_)
    (.inr fun _ => needs_expect)
  refine .bind (.expect _) fun _ => .bind (.expect _) fun _ => .bind ih.block fun body => ?_
  cases params with
  | none => exact .pure ([], body)
  | some params => exact .pure (params, body)

theorem block_succ (ih : CarriesOn f n m) :
    Carries Any f AnyPlaces (Stmt.relineAll f) (Reading.block (n + 1)) (Reading.block (m + 1)) := by
  refine .peek (fun t => ?_) fun t t' ht _ => ?_
  · rw [Token.kind_reline]
    split
    · next ht => exact .bind (.advance (by simp [ht])) fun _ => .pure []
    · exact .fail _
    · refine .bindOf ih.declaration.anywhere (fun s => ?_)
        (.inr fun s => (needs_block n).bind ih.block.sound fun ss => .pure (P := fun _ _ => True)
          trivial)
      refine .bind ih.block fun ss => ?_
      rw [← Stmt.relineAll_toList_append]
      exact .pure _
  · rw [ht]
    exact .fail _

theorem named_succ (ih : CarriesOn f n m) (role : Role) :
    Carries Any f AnyPlaces
      (fun r => (r.1.reline f, r.2.1.map (Token.reline f), Stmt.relineAll f r.2.2))
      (Reading.named (n + 1) role) (Reading.named (m + 1) role) :=
  .bind (.expect _) fun name => .bind (.expect _) fun _ => .bind (ih.routine role) fun r =>
    .pure (name, r)

/-! ## Declarations -/

theorem declaration_succ (ih : CarriesOn f n m) :
    Carries (· ≠ .kwElse) f AnyPlaces (Option.map (Stmt.reline f)) (Reading.declaration (n + 1))
      (Reading.declaration (m + 1)) := by
  refine ⟨(soundOn (n + 1)).declaration.mono fun _ _ _ => trivial, ?_⟩
  intro c c' d s hc hd hp hs he hend
  have hstep := ih.declared.sound c hc nofun
  unfold Reading.declaration at hs ⊢
  rcases hread : Reading.declared n c with ⟨s₁, c₁⟩ | ⟨e | _, c₁⟩ <;> rw [hread] at hs
  · cases hs
    rw [ih.declared.carry hc hd hp hread he hend]
    rfl
  · -- the error is recorded, and it is never taken back
    rw [hread] at hstep
    cases hs
    cases hstep with
    | error hahead =>
      have hlen := hahead.errors.length_le
      rw [← he] at hlen
      exact absurd hlen (Nat.not_succ_le_self _)
  · cases hs

theorem declared_succ (ih : CarriesOn f n m) :
    Carries (· ≠ .kwElse) f AnyPlaces (Stmt.reline f) (Reading.declared (n + 1))
      (Reading.declared (m + 1)) := by
  refine .peek (fun t => ?_) fun t t' ht _ => ?_
  · rw [Token.kind_reline]
    split
    · next ht =>
      exact .bind (.advance (by simp [ht])) fun _ => ih.classDeclared.mono fun _ _ => trivial
    · next ht =>
      refine .peekSecond ?_ ih.statement (by simp [ht]) ?_
      · refine .bind (.advance (by simp [ht])) fun _ => ?_
        refine .bindOf (ih.named .function) (fun r => ?_) (.inl fun _ _ => trivial)
        exact .pure (Stmt.function r.1 r.2.1 r.2.2)
      · exact statement_fun_alone ht
    · next ht =>
      exact .bind (.advance (by simp [ht])) fun _ => ih.variableDeclared.mono fun _ _ => trivial
    · exact ih.statement.anywhere
  · rw [ht]
    exact .needs ih.statement.sound (needs_statement n)

theorem classDeclared_succ (ih : CarriesOn f n m) :
    Carries Any f AnyPlaces (Stmt.reline f) (Reading.classDeclared (n + 1))
      (Reading.classDeclared (m + 1)) := by
  refine .bind (.expect _) fun name => ?_
  refine .optional (.expect (F := Any) _) (fun superclass => ?_) (.inr fun _ => needs_expect)
  refine .bind (.expect _) fun _ => ?_
  refine .bindOf ih.methods (fun ms => ?_) (.inr fun _ => needs_expect)
  refine .bind (.expect _) fun _ => ?_
  cases superclass with
  | none => exact .pure (Stmt.classDecl name none ms)
  | some s => exact .pure (Stmt.classDecl name (some ⟨(), s⟩) ms)

theorem methods_succ (ih : CarriesOn f n m) :
    Carries (fun kind => kind = .rightBrace ∨ kind = .eof) f AnyPlaces (Method.relineAll f)
      (Reading.methods (n + 1)) (Reading.methods (m + 1)) := by
  refine .peek (fun t => ?_) fun t t' ht ht' => ?_
  · rw [Token.kind_reline]
    split
    · exact .pure []
    · exact .pure []
    · refine .bindOf (ih.named .method).anywhere (fun r => ?_) (.inl fun _ _ => trivial)
      exact .bind ih.methods fun ms => .pure (Method.mk r.1 r.2.1 r.2.2 :: ms)
  · rw [ht]
    rcases ht' with ht' | ht' <;> rw [ht'] <;> exact .pure []

theorem variableDeclared_succ (ih : CarriesOn f n m) :
    Carries Any f AnyPlaces (Stmt.reline f) (Reading.variableDeclared (n + 1))
      (Reading.variableDeclared (m + 1)) := by
  refine .bind (.expect _) fun name => ?_
  refine .optional ih.assignment (fun init => ?_) (.inr fun _ => needs_expect)
  refine .bind (.expect _) fun _ => ?_
  cases init with
  | none => exact .pure (Stmt.var name none)
  | some e => exact .pure (Stmt.var name (some e))

/-! ## Statements -/

theorem expressionStatement_succ (ih : CarriesOn f n m) :
    Carries Any f AnyPlaces (Stmt.reline f) (Reading.expressionStatement (n + 1))
      (Reading.expressionStatement (m + 1)) :=
  .bindOf ih.assignment (fun e => .bind (.expect _) fun _ => .pure (Stmt.expression e))
    (.inr fun _ => needs_expect)

theorem forStatement_succ (ih : CarriesOn f n m) :
    Carries (· ≠ .kwElse) f AnyPlaces (Stmt.reline f) (Reading.forStatement (n + 1))
      (Reading.forStatement (m + 1)) := by
  have hrest : ∀ init : Option (Stmt Unit), Carries (· ≠ .kwElse) f AnyPlaces (Stmt.reline f)
      (do
        let test ← Reading.unlessAt .semicolon (Reading.assignment n)
        let _ ← Reading.expect .semicolon .forCondition
        let step ← Reading.unlessAt .rightParen (Reading.assignment n)
        let _ ← Reading.expect .rightParen .forEnd
        let body ← Reading.statement n
        return Stmt.forLoop init test step body)
      (do
        let test ← Reading.unlessAt .semicolon (Reading.assignment m)
        let _ ← Reading.expect .semicolon .forCondition
        let step ← Reading.unlessAt .rightParen (Reading.assignment m)
        let _ ← Reading.expect .rightParen .forEnd
        let body ← Reading.statement m
        return Stmt.forLoop (init.map (Stmt.reline f)) test step body) := by
    intro init
    refine .bindOf (.unlessAt ih.assignment (needs_assignment n)) (fun test => ?_)
      (.inr fun _ => needs_expect)
    refine .bind (.expect _) fun _ => ?_
    refine .bindOf (.unlessAt ih.assignment (needs_assignment n)) (fun step => ?_)
      (.inr fun _ => needs_expect)
    refine .bind (.expect _) fun _ => .bind ih.statement fun body => ?_
    rw [← Stmt.reline_forLoop]
    exact .pure _
  refine .bind (.expect _) fun _ => .peek (fun t => ?_) fun t t' ht _ => ?_
  · rw [Token.kind_reline]
    split
    · next ht =>
      refine .bind (.advance (by simp [ht])) fun _ => ?_
      exact .bind (.pure (g := Option.map (Stmt.reline f)) none) hrest
    · next ht =>
      refine .bind (.advance (by simp [ht])) fun _ => ?_
      exact .bindOf (.map ih.variableDeclared) hrest (.inl fun _ _ => trivial)
    · exact .bindOf (Carries.map ih.expressionStatement).anywhere hrest (.inl fun _ _ => trivial)
  · rw [ht]
    have hinit := Carries.map ih.expressionStatement
    exact .needs (hinit.sound.bind fun o => (hrest o).sound.mono fun _ _ _ _ _ => trivial)
      (((needs_expressionStatement n).map ih.expressionStatement.sound).bind hinit.sound
        fun o => (hrest o).sound)

theorem statement_succ (ih : CarriesOn f n m) :
    Carries (· ≠ .kwElse) f AnyPlaces (Stmt.reline f) (Reading.statement (n + 1))
      (Reading.statement (m + 1)) := by
  refine .peek (fun t => ?_) fun t t' ht _ => ?_
  · rw [Token.kind_reline]
    split
    · next ht => exact .bind (.advance (by simp [ht])) fun _ => ih.forStatement
    · next ht =>
      refine .bind (.advance (by simp [ht])) fun _ => .bind (.expect _) fun _ => ?_
      refine .bindOf ih.assignment (fun test => ?_) (.inr fun _ => needs_expect)
      refine .bind (.expect _) fun _ => .bind ih.statement fun yes => ?_
      refine .optional ih.statement (fun no => ?_) (.inl fun _ h => ⟨h, h⟩)
      cases no with
      | none => exact .pure (Stmt.cond test yes none)
      | some no => exact .pure (Stmt.cond test yes (some no))
    · next ht =>
      refine .bind (.advance (by simp [ht])) fun _ => .bind (.expect _) fun _ => ?_
      refine .bindOf ih.assignment (fun test => ?_) (.inr fun _ => needs_expect)
      refine .bind (.expect _) fun _ => ?_
      exact .bind ih.statement fun body => .pure (Stmt.loop test body)
    · next ht =>
      refine .bind (.advance (by simp [ht])) fun _ => ?_
      refine .bindOf (.unlessAt ih.assignment (needs_assignment n)) (fun value => ?_)
        (.inr fun _ => needs_expect)
      refine .bind (.expect _) fun _ => ?_
      cases value with
      | none => exact .pure (Stmt.ret t none)
      | some e => exact .pure (Stmt.ret t (some e))
    · next ht =>
      refine .bind (.advance (by simp [ht])) fun _ => ?_
      exact .bindOf ih.block (fun body => .pure (Stmt.block body)) (.inl fun _ _ => trivial)
    · next ht =>
      refine .bind (.advance (by simp [ht])) fun _ => ?_
      refine .bindOf ih.assignment (fun e => ?_) (.inr fun _ => needs_expect)
      exact .bind (.expect _) fun _ => .pure (Stmt.print e)
    · exact (ih.expressionStatement.mono fun _ _ => trivial).anywhere
  · rw [ht]
    exact .needs ih.expressionStatement.sound (needs_expressionStatement n)

end CarriesOn

/-- **Every reading is carried**, by induction on the fuel. -/
theorem carriesOn (f : Nat → Nat) {n m : Nat} (h : n ≤ m) : CarriesOn f n m := by
  induction n generalizing m with
  | zero =>
    exact ⟨.outOfFuel, fun _ => .outOfFuel, fun _ _ => .outOfFuel, .outOfFuel, fun _ => .outOfFuel,
      fun _ => .outOfFuel, .outOfFuel, fun _ => .outOfFuel, .outOfFuel, .outOfFuel, .outOfFuel,
      .outOfFuel, .outOfFuel, fun _ => .outOfFuel, .outOfFuel, .outOfFuel, .outOfFuel, .outOfFuel⟩
  | succ n ih =>
    obtain ⟨m, rfl⟩ := Nat.exists_eq_succ_of_ne_zero (Nat.ne_zero_of_lt h)
    have hnm := Nat.le_of_succ_le_succ h
    have ih := ih hnm
    exact ⟨ih.assignment_succ, ih.operators_succ, ih.operatorsAfter_succ, ih.unary_succ,
      ih.suffixes_succ, ih.arguments_succ, ih.primary_succ, ih.routine_succ hnm, ih.block_succ,
      ih.declaration_succ, ih.declared_succ, ih.classDeclared_succ, ih.methods_succ, ih.named_succ,
      ih.variableDeclared_succ, ih.expressionStatement_succ, ih.forStatement_succ,
      ih.statement_succ⟩

end Reading

end LoxLang
