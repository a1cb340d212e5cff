import LoxLang.Proofs.Grammar.ReadBack

/-!
# Trees in normal form are read back

What is written down from the words of a tree in normal form is read as that tree, by induction on
the tree (`Expr.Ordered.readsBack`). Together with the words of what is read, this makes reading and
writing down inverse to each other (`reading_inverts_writing`).
-/

namespace LoxLang

open Reading Written

/-! ## Bodies -/

/-- The readings of statements and of declarations return the statement from its words, the one of
statements only if it declares nothing. -/
structure Stmt.ReadsBack (s : Stmt Unit) : Prop where
  begins : ∀ w, Written s.words w → ∃ t u, w = t :: u ∧ t.kind.opensDeclaration
  statement : s.declared = [] →
    Returns 2 (Kind.EndsStatement s.isOpen) Reading.statement s.words s
  declared : Returns 3 (· ≠ .kwElse) Reading.declared s.words s

namespace Stmt.ReadsBack

variable {s : Stmt Unit}

theorem declaration (h : s.ReadsBack) :
    Returns 4 (· ≠ .kwElse) Reading.declaration s.words (some s) := by
  intro w hw
  refine .succ fun n hn c hc hp => ?_
  obtain ⟨_, hs, rfl⟩ := h.declared w hw n hn c hc hp
  refine ⟨_, ?_, rfl⟩
  unfold Reading.declaration
  rw [hs]

/-- The statements of a body are read one after the other up to the brace behind them. -/
theorem block {F : Kind → Prop} {ss : List (Stmt Unit)} (hss : ∀ s ∈ ss, s.ReadsBack) :
    Returns 1 F Reading.block (Stmt.wordsAll ss ++ [.plain .rightBrace]) ss := by
  induction ss with
  | nil =>
    intro w hw
    obtain ⟨r, u, rfl, hr, hu⟩ := plain_iff.1 hw
    rw [nil_iff.1 hu]
    refine .succ fun n _ => .peek ?_
    simp only [hr]
    exact .advance (.pure rfl)
  | cons s ss ih =>
    obtain ⟨hs, hss⟩ := List.forall_mem_cons.1 hss
    intro w hw
    rw [Stmt.wordsAll, List.append_assoc] at hw
    obtain ⟨u, v, rfl, hu, hv⟩ := append_iff.1 hw
    have hnext : Follows (· ≠ .kwElse) v F := by
      cases ss with
      | nil =>
        obtain ⟨r, u, rfl, hr, -⟩ := plain_iff.1 hv
        exact .cons hr (by simp)
      | cons s' ss =>
        rw [Stmt.wordsAll, List.append_assoc] at hv
        obtain ⟨u', v, rfl, hu', -⟩ := append_iff.1 hv
        obtain ⟨t, u', rfl, ht⟩ := (hss s' List.mem_cons_self).begins u' hu'
        exact Kind.ne_of_opens ht rfl
    refine .succ fun n hn => ?_
    rw [List.length_append] at hn
    have hfirst := hs.declaration u hu n
    have hmore := ih hss v hv n
    obtain ⟨t, u, rfl, ht⟩ := hs.begins u hu
    have hpos := hv.length_eq
    simp only [List.length_append, List.length_cons] at hpos hn hfirst
    refine .peek ?_
    split
    · next h => exact absurd h (Kind.ne_of_opens ht rfl)
    · next h => exact absurd h (Kind.ne_of_opens ht rfl)
    · refine .bind (hfirst (by omega)) hnext ?_
      rintro _ rfl
      refine .last (hmore (by omega)) ?_
      rintro _ rfl
      exact .pure rfl

end Stmt.ReadsBack

/-- Parameters and a body are read. -/
theorem Reading.returns_routine {F : Kind → Prop} {params : List Token} {body : List (Stmt Unit)}
    (role : Role) (hparams : OrderedParams params) (hbody : ∀ s ∈ body, s.ReadsBack) :
    Returns 1 F (Reading.routine · role) (routineWords params body) (params, body) := by
  have hlist : ∀ w, Written (paramWords params) w → AcceptsOn 1 (· = .rightParen)
      (fun n => Reading.unlessAt .rightParen (Reading.parameters n 0)) w (·.getD [] = params) := by
    obtain ⟨hlen, hkind⟩ : params.length ≤ mostArguments ∧ _ := hparams
    refine Returns.listed? (fun p => [.kept p]) rfl (fun _ _ => rfl) ?_ ?_
    · intro p hp w hw
      obtain ⟨u, rfl, -⟩ := kept_iff.1 hw
      exact ⟨p, u, rfl, by rw [hkind p hp]; nofun⟩
    · rintro p ps rfl
      rw [List.length_cons] at hlen
      refine .listed (G := Any) (r := Reading.parameters) (fun p => [.kept p])
        (List.flatMap fun p => [.plain .comma, .kept p]) rfl (fun _ _ => rfl) (fun _ _ => rfl)
        trivial trivial ?_ ?_
      · intro q hq w hw n _
        obtain ⟨u, rfl, hu⟩ := kept_iff.1 hw
        rw [nil_iff.1 hu]
        exact .token (hkind q hq)
      · omega
  intro w hw
  obtain ⟨p, _, rfl, hp, hw⟩ := append_iff.1 hw
  obtain ⟨r, _, rfl, hr, hw⟩ := plain_iff.1 hw
  obtain ⟨l, b, rfl, hl, hb⟩ := plain_iff.1 hw
  refine .succ fun n hn => ?_
  simp only [List.length_append, List.length_cons] at hn
  refine .bind (hlist p hp n (by omega)) (.cons hr rfl) ?_
  rintro _ rfl
  refine .expect hr (.expect hl (.last (Stmt.ReadsBack.block hbody b hb n (by omega)) ?_))
  rintro _ rfl
  exact .pure rfl

/-- A name, and parameters and a body behind it, are read. -/
theorem Reading.returns_named {F : Kind → Prop} {name : Token} {params : List Token}
    {body : List (Stmt Unit)} (role : Role) (hname : name.kind = .identifier)
    (hparams : OrderedParams params) (hbody : ∀ s ∈ body, s.ReadsBack) :
    Returns 1 F (Reading.named · role)
      (.kept name :: .plain .leftParen :: routineWords params body) (name, params, body) := by
  intro w hw
  obtain ⟨_, rfl, hu⟩ := kept_iff.1 hw
  obtain ⟨l, u, rfl, hl, hu⟩ := plain_iff.1 hu
  refine .succ fun n hn => .expect hname (.expect hl ?_)
  simp only [List.length_cons] at hn
  refine .last (Reading.returns_routine role hparams hbody u hu n (by omega)) ?_
  rintro _ rfl
  exact .pure rfl

namespace Stmt.ReadsBack

variable {s : Stmt Unit} {e : Expr Unit}

/-! ## Statements -/

/-- A statement is also read where a declaration may stand. -/
theorem of_statement (hbegins : ∀ w, Written s.words w → Begins Kind.opensPlain w)
    (h : Returns 2 (Kind.EndsStatement s.isOpen) Reading.statement s.words s) : s.ReadsBack where
  begins w hw := by
    obtain ⟨t, u, rfl, ht, -⟩ := hbegins w hw
    exact ⟨t, u, rfl, Kind.opensDeclaration_of_plain ht⟩
  statement _ := h
  declared w hw := by
    refine .succ fun n hn => ?_
    have hread := (h w hw n hn).mono fun _ (hk : _ ≠ Kind.kwElse) _ => hk
    obtain ⟨t, u, rfl, ht, hfun⟩ := hbegins w hw
    refine .peek ?_
    split
    · next h => exact absurd h (Kind.ne_of_opens ht rfl)
    · next h =>
      obtain ⟨t', u, rfl, ht'⟩ := hfun h
      refine .peekSecond (fun hname => ?_) fun _ => hread
      rw [ht'] at hname
      cases hname
    · next h => exact absurd h (Kind.ne_of_opens ht rfl)
    · exact hread

theorem expression (he : e.ReadsBack) : (Stmt.expression e).ReadsBack := by
  refine of_statement (fun w hw => ?_) fun w hw => ?_
  · obtain ⟨u, v, rfl, hu, -⟩ := append_iff.1 hw
    exact ((he.begins u hu).mono fun _ => Kind.opensPlain_of_expression).append v
  · obtain ⟨u, _, rfl, hu, hw⟩ := append_iff.1 hw
    obtain ⟨semicolon, _, rfl, hsemicolon, hw⟩ := plain_iff.1 hw
    rw [nil_iff.1 hw]
    have hread : AcceptsOn 1 (Kind.EndsStatement false) Reading.expressionStatement
        (u ++ [semicolon]) (· = Stmt.expression e) := by
      refine .succ fun n hn => ?_
      rw [List.length_append, List.length_singleton] at hn
      refine .bind (he.assignment u hu n (by omega)) ?_ fun a ha => ?_
      · exact .cons hsemicolon Kind.endsExpression_semicolon
      · exact .expect hsemicolon (.pure (congrArg Stmt.expression ha))
    refine .succ fun n hn => ?_
    have hread := hread n hn
    obtain ⟨t, u, rfl, ht, -⟩ := he.begins u hu
    refine .peek ?_
    split
    case h_7 => exact hread
    all_goals next h => exact absurd h (Kind.ne_of_opens ht rfl)

theorem print (he : e.ReadsBack) : (Stmt.print e).ReadsBack := by
  refine of_statement (fun _ => begins_plain rfl nofun) fun w hw => ?_
  simp only [Stmt.words, append_iff, plain_iff, nil_iff] at hw
  obtain ⟨t, _, rfl, ht, u, _, rfl, hu, semicolon, _, rfl, hsemicolon, rfl⟩ := hw
  refine .succ fun n hn => .peek ?_
  simp only [ht]
  simp only [List.length_append, List.length_cons, List.length_nil] at hn
  refine .advance (.bind (he.assignment u hu n (by omega)) ?_ fun a ha => ?_)
  · exact .cons hsemicolon Kind.endsExpression_semicolon
  · exact .expect hsemicolon (.pure (congrArg Stmt.print ha))

theorem ret {keyword : Token} {value : Option (Expr Unit)} (hkeyword : keyword.kind = .kwReturn)
    (hvalue : ∀ e ∈ value, e.ReadsBack) : (Stmt.ret keyword value).ReadsBack := by
  have hbegins : ∀ w, Written (Stmt.ret keyword value).words w → Begins Kind.opensPlain w := by
    intro w hw
    cases value with
    | none => exact begins_kept hkeyword rfl nofun hw
    | some e => exact begins_kept hkeyword rfl nofun hw
  refine of_statement hbegins fun w hw => .succ fun n hn => ?_
  cases value with
  | none =>
    simp only [Stmt.words, kept_iff, plain_iff, nil_iff] at hw
    obtain ⟨_, rfl, semicolon, _, rfl, hsemicolon, rfl⟩ := hw
    refine .peek ?_
    simp only [hkeyword]
    exact .advance (.bind (.unlessAtNone (Q := (· = none)) rfl) (.cons hsemicolon rfl) fun a ha =>
      .expect hsemicolon (.pure (congrArg (Stmt.ret keyword) ha)))
  | some e =>
    have he := hvalue e rfl
    simp only [Stmt.words, kept_iff, append_iff, plain_iff, nil_iff] at hw
    obtain ⟨_, rfl, u, _, rfl, hu, semicolon, _, rfl, hsemicolon, rfl⟩ := hw
    simp only [List.length_append, List.length_cons, List.length_nil] at hn
    have hread := he.assignment u hu n (by omega)
    obtain ⟨t, u, rfl, ht, -⟩ := he.begins u hu
    refine .peek ?_
    simp only [hkeyword]
    refine .advance (.bind (.unlessAtSome (Q := (· = some e)) (Kind.ne_of_opens ht rfl) hread
      fun a ha => congrArg some ha) ?_ fun a ha => ?_)
    · exact .cons hsemicolon Kind.endsExpression_semicolon
    · exact .expect hsemicolon (.pure (congrArg (Stmt.ret keyword) ha))

/-- A block of statements. -/
theorem braced {ss : List (Stmt Unit)} (hss : ∀ s ∈ ss, s.ReadsBack) :
    (Stmt.block ss).ReadsBack := by
  refine of_statement (fun _ => begins_plain rfl nofun) fun w hw => ?_
  obtain ⟨t, u, rfl, ht, hu⟩ := plain_iff.1 hw
  refine .succ fun n hn => .peek ?_
  simp only [ht]
  rw [List.length_cons] at hn
  exact .advance (.last (block hss u hu n (by omega)) fun a ha => .pure (congrArg Stmt.block ha))

theorem loop {body : Stmt Unit} (he : e.ReadsBack) (hbody : body.ReadsBack)
    (hdeclared : body.declared = []) : (Stmt.loop e body).ReadsBack := by
  refine of_statement (fun _ => begins_plain rfl nofun) fun w hw => ?_
  simp only [Stmt.words, append_iff, plain_iff] at hw
  obtain ⟨t, _, rfl, ht, l, _, rfl, hl, u, _, rfl, hu, r, v, rfl, hr, hv⟩ := hw
  refine .succ fun n hn => .peek ?_
  simp only [ht]
  simp only [List.length_append, List.length_cons] at hn
  refine .advance (.expect hl (.bind (he.assignment u hu n (by omega)) ?_ fun a ha =>
    .expect hr (.last (hbody.statement hdeclared v hv n (by omega)) fun b hb => ?_)))
  · exact .cons hr Kind.endsExpression_rightParen
  · exact .pure (congrArg₂ Stmt.loop ha hb)

/-- A condition without `else`, behind which there must be none. -/
theorem cond {yes : Stmt Unit} (he : e.ReadsBack) (hyes : yes.ReadsBack)
    (hdeclared : yes.declared = []) : (Stmt.cond e yes none).ReadsBack := by
  refine of_statement (fun _ => begins_plain rfl nofun) fun w hw => ?_
  simp only [Stmt.words, append_iff, plain_iff] at hw
  obtain ⟨t, _, rfl, ht, l, _, rfl, hl, u, _, rfl, hu, r, v, rfl, hr, hv⟩ := hw
  refine .succ fun n hn => .peek ?_
  simp only [ht]
  simp only [List.length_append, List.length_cons] at hn
  have hread := (hyes.statement hdeclared v hv n (by omega)).mono
    fun _ (hk : Kind.EndsStatement true _) _ => hk rfl
  refine .advance (.expect hl (.bind (he.assignment u hu n (by omega)) ?_ ?_))
  · exact .cons hr Kind.endsExpression_rightParen
  · rintro _ rfl
    refine .expect hr (.last hread ?_)
    rintro _ rfl
    exact .acceptNone (fun _ hk => hk rfl) (.pure rfl)

/-- A condition with `else`, which would belong to the first statement if that were open. -/
theorem otherwise {yes no : Stmt Unit} (he : e.ReadsBack) (hyes : yes.ReadsBack)
    (hno : no.ReadsBack) (hopen : yes.isOpen = false) (hdeclared : yes.declared = [])
    (hdeclared' : no.declared = []) : (Stmt.cond e yes (some no)).ReadsBack := by
  refine of_statement (fun _ => begins_plain rfl nofun) fun w hw => ?_
  simp only [Stmt.words, append_iff, plain_iff] at hw
  obtain ⟨t, _, rfl, ht, l, _, rfl, hl, u, _, rfl, hu, r, _, rfl, hr, v, _, rfl, hv, t', x, rfl,
    ht', hx⟩ := hw
  refine .succ fun n hn => .peek ?_
  simp only [ht]
  simp only [List.length_append, List.length_cons] at hn
  refine .advance (.expect hl (.bind (he.assignment u hu n (by omega)) ?_ ?_))
  · exact .cons hr Kind.endsExpression_rightParen
  · rintro _ rfl
    refine .expect hr (.bind (hyes.statement hdeclared v hv n (by omega)) (.cons ht' ?_) ?_)
    · exact fun h => absurd (hopen.symm.trans h) Bool.false_ne_true
    · rintro _ rfl
      refine .acceptSome ht' (.last (.map (Q := (· = some no))
        (hno.statement hdeclared' x hx n (by omega)) fun a ha => congrArg some ha) ?_)
      rintro _ rfl
      exact .pure rfl

/-! ## Declarations -/

theorem var {name : Token} {init : Option (Expr Unit)} (hname : name.kind = .identifier)
    (hinit : ∀ e ∈ init, e.ReadsBack) : (Stmt.var name init).ReadsBack := by
  have hword : ∀ w, Written (Stmt.var name init).words w → ∃ t u, w = t :: u ∧ t.kind = .kwVar ∧
      ∀ {F : Kind → Prop}, AcceptsOn 1 F Reading.variableDeclared u (· = Stmt.var name init) := by
    intro w hw
    cases init with
    | none =>
      simp only [Stmt.words, kept_iff, plain_iff, nil_iff] at hw
      obtain ⟨t, _, rfl, ht, _, rfl, semicolon, _, rfl, hsemicolon, rfl⟩ := hw
      refine ⟨t, _, rfl, ht, .succ fun n _ => .expect hname ?_⟩
      refine .acceptNone (.cons hsemicolon (by simp)) (.expect hsemicolon (.pure rfl))
    | some e =>
      simp only [Stmt.words, kept_iff, append_iff, plain_iff, nil_iff] at hw
      obtain ⟨t, _, rfl, ht, _, rfl, equals, _, rfl, hequals, u, _, rfl, hu, semicolon, _, rfl,
        hsemicolon, rfl⟩ := hw
      refine ⟨t, _, rfl, ht, .succ fun n hn => .expect hname (.acceptSome hequals ?_)⟩
      simp only [List.length_append, List.length_cons, List.length_nil] at hn
      refine .bind (.map (Q := (· = some e)) ((hinit e rfl).assignment u hu n (by omega))
        fun a ha => congrArg some ha) ?_ fun a ha => ?_
      · exact .cons hsemicolon Kind.endsExpression_semicolon
      · exact .expect hsemicolon (.pure (congrArg (Stmt.var name) ha))
  refine ⟨fun w hw => ?_, fun h => absurd h (List.cons_ne_nil _ _), fun w hw => ?_⟩
  · obtain ⟨t, u, rfl, ht, -⟩ := hword w hw
    exact ⟨t, u, rfl, by rw [ht]; rfl⟩
  · obtain ⟨t, u, rfl, ht, hread⟩ := hword w hw
    refine .succ fun n hn => .peek ?_
    simp only [ht]
    rw [List.length_cons] at hn
    exact .advance (hread n (by omega))

theorem function {name : Token} {params : List Token} {body : List (Stmt Unit)}
    (hname : name.kind = .identifier) (hparams : OrderedParams params)
    (hbody : ∀ s ∈ body, s.ReadsBack) : (Stmt.function name params body).ReadsBack := by
  refine ⟨fun w hw => ?_, fun h => absurd h (List.cons_ne_nil _ _), fun w hw => ?_⟩
  · obtain ⟨t, u, rfl, ht, -⟩ := plain_iff.1 hw
    exact ⟨t, u, rfl, by rw [ht]; rfl⟩
  · obtain ⟨t, u, rfl, ht, hu⟩ := plain_iff.1 hw
    refine .succ fun n hn => .peek ?_
    simp only [ht]
    rw [List.length_cons] at hn
    have hread := Reading.returns_named (F := (· ≠ .kwElse)) .function hname hparams hbody u hu n
      (by omega)
    obtain ⟨u, rfl, -⟩ := kept_iff.1 hu
    refine .peekSecond (fun _ => .advance (.last hread ?_)) fun h => absurd hname h
    rintro _ rfl
    exact .pure rfl

/-- The methods of a class are read one after the other up to the brace behind them. -/
theorem methods {ms : List (Method Unit)} (hms : ∀ name params body,
      .mk name params body ∈ ms → name.kind = .identifier ∧ OrderedParams params ∧
        ∀ s ∈ body, s.ReadsBack) :
    Returns 2 (· = .rightBrace) Reading.methods (Method.wordsAll ms) ms := by
  induction ms with
  | nil =>
    intro w hw
    rw [nil_iff.1 hw]
    refine .succ fun n _ => .peekBehind fun t ht => ?_
    simp only [ht]
    exact .pure rfl
  | cons m ms ih =>
    obtain ⟨name, params, body⟩ := m
    obtain ⟨hname, hparams, hbody⟩ := hms name params body List.mem_cons_self
    intro w hw
    have hsplit : Method.wordsAll (.mk name params body :: ms) = (.kept name :: .plain .leftParen ::
        routineWords params body) ++ Method.wordsAll ms := by
      simp [Method.wordsAll, routineWords]
    rw [hsplit] at hw
    obtain ⟨u, v, rfl, hu, hv⟩ := append_iff.1 hw
    refine .succ fun n hn => ?_
    rw [List.length_append] at hn
    have hpos := hu.length_eq
    rw [List.length_cons] at hpos
    have hread := Reading.returns_named (F := Any) .method hname hparams hbody u hu n (by omega)
    have hmore := ih (fun _ _ _ hm => hms _ _ _ (List.mem_cons_of_mem _ hm)) v hv n (by omega)
    obtain ⟨u, rfl, -⟩ := kept_iff.1 hu
    refine .peek ?_
    simp only [hname]
    refine .bind hread (follows_any _ _) ?_
    rintro _ rfl
    refine .last hmore ?_
    rintro _ rfl
    exact .pure rfl

theorem classDecl {name : Token} {superclass : Option (Site Unit)} {ms : List (Method Unit)}
    (hname : name.kind = .identifier) (hsuper : ∀ s ∈ superclass, s.name.kind = .identifier)
    (hms : ∀ name params body, .mk name params body ∈ ms → name.kind = .identifier ∧
      OrderedParams params ∧ ∀ s ∈ body, s.ReadsBack) :
    (Stmt.classDecl name superclass ms).ReadsBack := by
  refine ⟨fun w hw => ?_, fun h => absurd h (List.cons_ne_nil _ _), fun w hw => ?_⟩
  · obtain ⟨t, u, rfl, ht, -⟩ := plain_iff.1 hw
    exact ⟨t, u, rfl, by rw [ht]; rfl⟩
  · simp only [Stmt.words, append_iff, plain_iff, kept_iff] at hw
    obtain ⟨t, _, rfl, ht, _, rfl, u, _, rfl, hu, l, _, rfl, hl, v, _, rfl, hv, r, _, rfl, hr,
      hnil⟩ := hw
    rw [nil_iff.1 hnil]
    refine .succ fun n hn => .peek ?_
    simp only [ht]
    simp only [List.length_append, List.length_cons, List.length_nil] at hn
    cases n with
    | zero => omega
    | succ n =>
      have hbody : ∀ superclass : Option (Site Unit), Accepts (· ≠ .kwElse) (do
          let _ ← Reading.expect .leftBrace .classBrace
          let methods ← Reading.methods n
          let _ ← Reading.expect .rightBrace .classEnd
          return Stmt.classDecl name superclass methods) (l :: (v ++ [r]))
            (· = Stmt.classDecl name superclass ms) :=
        fun superclass => .expect hl (.bind (methods hms v hv n (by omega)) (.cons hr rfl)
          fun a ha => .expect hr (.pure (congrArg (Stmt.classDecl name superclass) ha)))
      refine .advance (.expect hname ?_)
      cases superclass with
      | none =>
        rw [nil_iff.1 hu]
        exact .acceptNone (.cons hl (by simp)) (hbody none)
      | some s =>
        obtain ⟨less, _, rfl, hless, hu⟩ := plain_iff.1 hu
        obtain ⟨_, rfl, hnil⟩ := kept_iff.1 hu
        rw [nil_iff.1 hnil]
        refine .acceptSome hless ?_
        refine .bind (P := (· = some s.name)) (.map (.token (hsuper s rfl)) fun _ h =>
          congrArg some h) (follows_any _ _) ?_
        rintro _ rfl
        exact hbody (some s)

end Stmt.ReadsBack

/-! ## Trees -/

mutual

/-- **An expression in normal form is read back**, by induction on the expression. -/
theorem Expr.Ordered.readsBack : ∀ {e : Expr Unit}, e.Ordered → e.ReadsBack
  | .literal v, _ => .literal v
  | .group e, h => .group (Expr.Ordered.readsBack (show e.Ordered from h))
  | .unary _ _, ⟨hop, hbinds, h⟩ => .prefixed hop h.readsBack hbinds
  | .binary _ _ _, ⟨⟨_, hop, hk, hl, hr⟩, h, h'⟩ =>
    Expr.join_of_le hop hk ▸ .join hop h.readsBack h'.readsBack hl hr
  | .logical _ _ _, ⟨⟨_, hop, hk, hl, hr⟩, h, h'⟩ =>
    Expr.join_of_lt hop hk ▸ .join hop h.readsBack h'.readsBack hl hr
  | .ref _, h => .ref h
  | .assign _ _, ⟨hname, h⟩ => .assign hname h.readsBack
  | .call _ _ _, ⟨hparen, hlen, hbinds, h, hargs⟩ =>
    .call h.readsBack hbinds hparen hlen (Expr.OrderedAll.readsBack hargs)
  | .get _ _, ⟨hname, hbinds, h⟩ => .get h.readsBack hbinds hname
  | .set _ _ _, ⟨hname, hbinds, h, h'⟩ => .set h.readsBack hbinds hname h'.readsBack
  | .this _, h => .this h
  | .super _ _, ⟨hname, hmethod⟩ => .super hname hmethod
  | .lambda _ _, ⟨hparams, hbody⟩ =>
    .lambda (Reading.returns_routine .function hparams (Stmt.OrderedAll.readsBack hbody))

theorem Expr.OrderedAll.readsBack : ∀ {es : List (Expr Unit)}, Expr.OrderedAll es →
    ∀ e ∈ es, e.ReadsBack
  | [], _ => nofun
  | _ :: _, ⟨h, hs⟩ => List.forall_mem_cons.2 ⟨h.readsBack, Expr.OrderedAll.readsBack hs⟩

/-- **A statement in normal form is read back.** -/
theorem Stmt.Ordered.readsBack : ∀ {s : Stmt Unit}, s.Ordered → s.ReadsBack
  | .expression _, h => .expression (Expr.Ordered.readsBack h)
  | .print _, h => .print (Expr.Ordered.readsBack h)
  | .var _ none, h => .var h nofun
  | .var _ (some e), ⟨hname, h⟩ => .var hname fun _ he => by
    cases he
    exact h.readsBack
  | .block _, h => .braced (Stmt.OrderedAll.readsBack h)
  | .cond _ _ none, ⟨h, hdeclared, hyes⟩ => .cond h.readsBack hyes.readsBack hdeclared
  | .cond _ _ (some _), ⟨h, ⟨hdeclared, hopen, hyes⟩, hdeclared', hno⟩ =>
    .otherwise h.readsBack hyes.readsBack hno.readsBack hopen hdeclared hdeclared'
  | .loop _ _, ⟨h, hdeclared, hbody⟩ => .loop h.readsBack hbody.readsBack hdeclared
  | .function _ _ _, ⟨hname, hparams, hbody⟩ =>
    .function hname hparams (Stmt.OrderedAll.readsBack hbody)
  | .ret _ none, h => .ret h nofun
  | .ret _ (some e), ⟨hkeyword, h⟩ => .ret hkeyword fun _ he => by
    cases he
    exact h.readsBack
  | .classDecl _ _ _, ⟨hname, hsuper, hms⟩ =>
    .classDecl hname hsuper (Method.OrderedAll.readsBack hms)

theorem Stmt.OrderedAll.readsBack : ∀ {ss : List (Stmt Unit)}, Stmt.OrderedAll ss →
    ∀ s ∈ ss, s.ReadsBack
  | [], _ => nofun
  | _ :: _, ⟨h, hs⟩ => List.forall_mem_cons.2 ⟨h.readsBack, Stmt.OrderedAll.readsBack hs⟩

theorem Method.OrderedAll.readsBack : ∀ {ms : List (Method Unit)}, Method.OrderedAll ms →
    ∀ name params body, .mk name params body ∈ ms → name.kind = .identifier ∧
      OrderedParams params ∧ ∀ s ∈ body, s.ReadsBack
  | [], _ => nofun
  | .mk _ _ _ :: _, ⟨⟨hname, hparams, hbody⟩, hs⟩ => fun name params body hm => by
    rcases List.mem_cons.1 hm with hm | hm
    · cases hm
      exact ⟨hname, hparams, Stmt.OrderedAll.readsBack hbody⟩
    · exact Method.OrderedAll.readsBack hs name params body hm

end

/-! ## The tokens of a tree -/

/-- Every sequence of words can be written down. -/
theorem Written.exists (ws : List Word) : ∃ w, Written ws w := by
  induction ws with
  | nil => exact ⟨[], .nil⟩
  | cons word ws ih =>
    obtain ⟨w, hw⟩ := ih
    cases word with
    | kept t => exact ⟨t :: w, .cons rfl hw⟩
    | plain kind => exact ⟨⟨kind, "", 1⟩ :: w, .cons rfl hw⟩

/-- Whether the right-hand side never asks for the end mark. -/
def Rhs.avoidsEnd : Rhs → Bool
  | .token kind => kind ≠ .eof
  | .seq a b | .alt a b => a.avoidsEnd && b.avoidsEnd
  | .opt a | .star a | .upTo _ a => a.avoidsEnd
  | .number | .string | .sym _ => true

theorem Symbol.rule_avoidsEnd (s : Symbol) : s.rule.avoidsEnd := by
  cases s <;> rfl

/-- No end mark is among the tokens that can be derived. -/
theorem Derives.not_isEnd {r : Rhs} {w : List Token} (h : Derives r w) (hr : r.avoidsEnd) :
    ∀ t ∈ w, ¬ t.isEnd := by
  have happend : ∀ {u v : List Token}, (∀ t ∈ u, ¬ t.isEnd) → (∀ t ∈ v, ¬ t.isEnd) →
      ∀ t ∈ u ++ v, ¬ t.isEnd :=
    fun hu hv => List.forall_mem_append.2 ⟨hu, hv⟩
  induction h with
  | token ht =>
    simp only [Rhs.avoidsEnd, decide_eq_true_eq] at hr
    simpa [Token.isEnd, ht] using hr
  | number ht | string ht => simp [Token.isEnd, ht]
  | sym _ ih => exact ih (Symbol.rule_avoidsEnd _)
  | seq _ _ ihu ihv =>
    obtain ⟨ha, hb⟩ := Bool.and_eq_true_iff.1 hr
    exact happend (ihu ha) (ihv hb)
  | left _ ih => exact ih (Bool.and_eq_true_iff.1 hr).1
  | right _ ih => exact ih (Bool.and_eq_true_iff.1 hr).2
  | optNone | starNil | upToNil => exact nofun
  | optSome _ ih => exact ih hr
  | starCons _ _ ihu ihv | upToCons _ _ ihu ihv => exact happend (ihu hr) (ihv hr)

/-- **What is written down from an expression in normal form is read as that expression**, up to the
next end mark. -/
theorem Expr.Ordered.read_eq {e : Expr Unit} (h : e.Ordered) {w rest : List Token}
    (hw : Written e.words w) (hrest : ∀ t ∈ rest.head?, t.isEnd) :
    Expr.read (w ++ rest) = .ok e := by
  have hread : ∀ (n : Nat) (endMark : Token), endMark.isEnd → 16 * w.length + 4 ≤ n →
      Reading.assignment n ⟨w, endMark, []⟩ = .ok e ⟨[], endMark, []⟩ := by
    intro n endMark hend hn
    have hnext : Kind.EndsExpression (Cursor.peek ⟨[], endMark, []⟩).kind := by
      have hkind : endMark.kind = .eof := of_decide_eq_true hend
      exact hkind ▸ Kind.endsExpression_eof
    obtain ⟨_, he, rfl⟩ := h.readsBack.assignment w hw n hn ⟨[], endMark, []⟩ hend hnext
    rwa [List.append_nil] at he
  have hderives : Derives (.sym .assignment) w := by
    have hends := (Reading.soundOn (16 * w.length + 4)).assignment ⟨w, .endMark 1, []⟩ rfl nofun
    rw [hread _ _ rfl (Nat.le_refl _)] at hends
    cases hends with
    | ok hahead hsound =>
      have hrest : w = _ := hahead.rest.trans (List.append_nil _)
      exact hrest ▸ (hsound rfl).1
  have htake : (w ++ rest).takeWhile (!·.isEnd) = w := by
    rw [List.takeWhile_append_of_pos (by simpa using hderives.not_isEnd rfl)]
    cases rest with
    | nil => exact List.append_nil w
    | cons t rest => simp [hrest t rfl]
  have hstart : Cursor.start (w ++ rest) = ⟨w, (Cursor.start (w ++ rest)).endMark, []⟩ := by
    rw [Cursor.start, htake]
  refine Expr.read_ok_iff.2 ⟨⟨[], (Cursor.start (w ++ rest)).endMark, []⟩, ?_, rfl, rfl⟩
  rw [hstart]
  refine hread _ _ (Cursor.isEnd_start _) ?_
  rw [Reading.fuelFor, List.length_append]
  omega

/-- **Reading and writing down are inverse to each other.** Where no `for` loop is read, the tokens
are the words of what is returned; and a tree in normal form is what its words are read as. -/
theorem reading_inverts_writing :
    (∀ (tokens : List Token) (e : Expr Unit), (∀ t ∈ tokens, t.kind ≠ .kwFor) →
      Expr.read tokens = .ok e → Written e.words (tokens.takeWhile (!·.isEnd))) ∧
    (∀ (tokens : List Token) (ss : List (Stmt Unit)), (∀ t ∈ tokens, t.kind ≠ .kwFor) →
      Stmt.readAll tokens = .ok ss → Written (Stmt.wordsAll ss) (tokens.takeWhile (!·.isEnd))) ∧
    ∀ e : Expr Unit, e.Ordered → (∃ w, Written e.words w) ∧
      ∀ w rest : List Token, Written e.words w → (∀ t ∈ rest.head?, t.isEnd) →
        Expr.read (w ++ rest) = .ok e :=
  ⟨fun _ _ hfor h => Expr.written_of_read hfor h, fun _ _ hfor h => Stmt.written_of_readAll hfor h,
    fun e he => ⟨Written.exists e.words, fun _ _ hw hrest => he.read_eq hw hrest⟩⟩

/-- The tokens of `a = b - c * d` are read as an assignment whose value is a difference. -/
theorem difference_read_back :
    Expr.read ([⟨.identifier, "a", 1⟩, ⟨.equal, "=", 1⟩, ⟨.identifier, "b", 1⟩, ⟨.minus, "-", 1⟩,
      ⟨.identifier, "c", 1⟩, ⟨.star, "*", 1⟩, ⟨.identifier, "d", 1⟩] ++ [.endMark 1]) =
      .ok (.assign ⟨(), ⟨.identifier, "a", 1⟩⟩ (.binary ⟨.minus, "-", 1⟩
        (.ref ⟨(), ⟨.identifier, "b", 1⟩⟩) (.binary ⟨.star, "*", 1⟩
          (.ref ⟨(), ⟨.identifier, "c", 1⟩⟩) (.ref ⟨(), ⟨.identifier, "d", 1⟩⟩)))) := by
  refine (reading_inverts_writing.2.2 _ ?_).2 _ [.endMark 1] ?_ ?_
  · simp [Expr.Ordered, Expr.Binds, ← Kind.level?_eq_some_iff, Kind.level?]
  · simp [Expr.words, Written.kept_iff, Written.plain_iff, Written.nil_iff]
  · rintro _ ⟨⟩
    rfl

end LoxLang
