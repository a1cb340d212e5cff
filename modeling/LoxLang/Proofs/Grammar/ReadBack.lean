import LoxLang.Proofs.Grammar.Ordered

/-!
# Expressions are read back

The readings of every level at which an expression may stand return it from its words
(`Expr.ReadsBack`), with one lemma for each kind of expression. A reading goes on behind an operand
as long as it can, so what an expression is read as depends on what stands behind it: an operand is
read together with the suffixes behind it (`Expr.BearsSuffixes`), and operands are read together
with the operators behind them, unless one of these is tighter than those before
(`Expr.BearsOperators`).
-/

namespace LoxLang

/-- What ends a chain of operators ends one of tighter ones. -/
theorem Kind.EndsChain.mono {kind : Kind} {k l : Nat} (h : kind.EndsChain k) (hl : k ≤ l) :
    kind.EndsChain l :=
  ⟨h.1, fun j hj => Nat.lt_of_lt_of_le (h.2 j hj) hl⟩

namespace Written

variable {ws us : List Word} {ts : List Token}

theorem nil_iff : Written [] ts ↔ ts = [] := List.forall₂_nil_left_iff

theorem append_iff : Written (us ++ ws) ts ↔ ∃ u v, ts = u ++ v ∧ Written us u ∧ Written ws v := by
  constructor
  · intro h
    induction us generalizing ts with
    | nil => exact ⟨[], ts, rfl, .nil, h⟩
    | cons w us ih =>
      obtain _ | ⟨hw, h⟩ := h
      obtain ⟨u, v, rfl, hu, hv⟩ := ih h
      exact ⟨_ :: u, v, rfl, .cons hw hu, hv⟩
  · rintro ⟨u, v, rfl, hu, hv⟩
    exact hu.append hv

theorem kept_iff {t : Token} : Written (.kept t :: ws) ts ↔ ∃ u, ts = t :: u ∧ Written ws u := by
  constructor
  · rintro (_ | ⟨rfl, h⟩)
    exact ⟨_, rfl, h⟩
  · rintro ⟨u, rfl, h⟩
    exact .cons rfl h

theorem plain_iff {kind : Kind} : Written (.plain kind :: ws) ts ↔
    ∃ t u, ts = t :: u ∧ t.kind = kind ∧ Written ws u := by
  constructor
  · rintro (_ | ⟨ht, h⟩)
    exact ⟨_, _, rfl, ht, h⟩
  · rintro ⟨t, u, rfl, ht, h⟩
    exact .cons ht h

/-- The first token, where the tree keeps it. -/
theorem begins_kept {opens : Kind → Bool} {t : Token} {kind : Kind} (ht : t.kind = kind)
    (hopens : opens kind) (hfun : kind ≠ .kwFun) (h : Written (.kept t :: ws) ts) :
    Begins opens ts := by
  obtain ⟨u, rfl, -⟩ := kept_iff.1 h
  exact .token ht hopens hfun u

/-- The first token, where the tree only knows its kind. -/
theorem begins_plain {opens : Kind → Bool} {kind : Kind} (hopens : opens kind)
    (hfun : kind ≠ .kwFun) (h : Written (.plain kind :: ws) ts) : Begins opens ts := by
  obtain ⟨t, u, rfl, ht, -⟩ := plain_iff.1 h
  exact .token ht hopens hfun u

end Written

namespace Reading

open Written

variable {α : Type}

/-- From tokens that write the words, on fuel enough for their number, the reading returns `a`. -/
def Returns (k : Nat) (F : Kind → Prop) (r : Nat → Reading α) (ws : List Word) (a : α) : Prop :=
  ∀ w, Written ws w → AcceptsOn k F r w (· = a)

/-- A list with commas is read, if its entries are and there are not too many of them. -/
theorem Returns.listed (words : α → List Word) (more : List α → List Word) {k : Nat}
    {G : Kind → Prop} {cause : GrammarCause} {item : Nat → Reading α}
    {r : Nat → Nat → Reading (List α)} (hnil : more [] = [])
    (hcons : ∀ x xs, more (x :: xs) = .plain .comma :: (words x ++ more xs))
    (hr : ∀ n count, r (n + 1) count = do
      if mostArguments ≤ count then Reading.note cause
      let x ← item n
      if ← Reading.accept .comma then return x :: (← r n (count + 1)) else return [x])
    (hcomma : G .comma) (hparen : G .rightParen) {x : α} {xs : List α} {count : Nat}
    (hitem : ∀ y ∈ x :: xs, Returns k G item (words y) y)
    (hcount : count + xs.length < mostArguments) :
    Returns (k + 1) (· = .rightParen) (r · count) (words x ++ more xs) (x :: xs) := by
  induction xs generalizing x count with
  | nil =>
    intro w hw
    rw [hnil, List.append_nil] at hw
    refine .succ fun n hn => ?_
    rw [hr, if_neg (Nat.not_le.2 (by simpa using hcount))]
    refine .last ((hitem x List.mem_cons_self w hw n hn).mono ?_) ?_
    · rintro _ rfl
      exact hparen
    · rintro _ rfl
      exact .acceptNone (by rintro _ rfl; nofun) (.pure rfl)
  | cons y ys ih =>
    intro w hw
    rw [hcons] at hw
    obtain ⟨u, _, rfl, hu, hw⟩ := append_iff.1 hw
    obtain ⟨comma, v, rfl, hkind, hv⟩ := plain_iff.1 hw
    rw [List.length_cons] at hcount
    refine .succ fun n hn => ?_
    rw [hr, if_neg (by omega)]
    simp only [List.length_append, List.length_cons] at hn
    refine .bind (hitem x List.mem_cons_self u hu n (by omega)) (.cons hkind hcomma) ?_
    rintro _ rfl
    have hmore : Accepts _ (r n (count + 1)) v (· = y :: ys) :=
      ih (fun z hz => hitem z (List.mem_cons_of_mem _ hz)) (by omega) v hv n (by omega)
    exact .acceptSome hkind (.last hmore fun _ ha => .pure (congrArg _ ha))

/-- Where the list may be missing in front of the parenthesis behind it. -/
theorem Returns.listed? (words : α → List Word) {all more : List α → List Word} {k : Nat}
    {r : Nat → Nat → Reading (List α)} {xs : List α} (hnil : all [] = [])
    (hcons : ∀ x xs, all (x :: xs) = words x ++ more xs)
    (hbegins : ∀ x ∈ xs, ∀ w, Written (words x) w → ∃ t u, w = t :: u ∧ t.kind ≠ .rightParen)
    (hlist : ∀ y ys, xs = y :: ys →
      Returns k (· = .rightParen) (r · 0) (words y ++ more ys) (y :: ys)) :
    ∀ w, Written (all xs) w → AcceptsOn k (· = .rightParen)
      (fun n => Reading.unlessAt .rightParen (r n 0)) w (·.getD [] = xs) := by
  intro w hw n hn
  cases xs with
  | nil =>
    rw [hnil] at hw
    rw [nil_iff.1 hw]
    exact .unlessAtNone rfl
  | cons x xs =>
    rw [hcons] at hw
    have hread := hlist x xs rfl w hw n hn
    obtain ⟨_, v, rfl, hu, -⟩ := append_iff.1 hw
    obtain ⟨t, u, rfl, ht⟩ := hbegins x List.mem_cons_self _ hu
    exact .unlessAtSome ht hread fun _ ha => ha

end Reading

open Reading Written

/-- From the words of the expression an operand is read that goes on with the suffixes behind it. -/
def Expr.BearsSuffixes (e : Expr Unit) : Prop :=
  ∀ {w v : List Token} {Q : Expr Unit → Prop}, Written e.words w →
    AcceptsOn 1 Kind.EndsCall (Reading.suffixes · e) v Q →
    AcceptsOn 2 Kind.EndsCall Reading.unary (w ++ v) Q

/-- From the words of the expression operands are read that go on with the operators behind it,
none of which is tighter than the level `k`. -/
def Expr.BearsOperators (e : Expr Unit) (l k : Nat) : Prop :=
  ∀ {w v : List Token} {Q : Expr Unit → Prop}, Written e.words w →
    Follows (Kind.EndsChain (k + 1)) v (Kind.EndsChain l) →
    AcceptsOn 1 (Kind.EndsChain l) (Reading.operatorsAfter · l e) v Q →
    AcceptsOn 3 (Kind.EndsChain l) (Reading.operators · l) (w ++ v) Q

/-- The readings of every level that the expression may stand at return it from its words. -/
structure Expr.ReadsBack (e : Expr Unit) : Prop where
  begins : ∀ w, Written e.words w → Begins Kind.opensExpression w
  suffixes : e.Binds 7 → e.BearsSuffixes
  unary : e.Binds 6 → Returns 2 Kind.EndsCall Reading.unary e.words e
  operators : ∀ {l k : Nat}, e.Binds l → e.Binds k → e.BearsOperators l k
  assignment : Returns 4 Kind.EndsExpression Reading.assignment e.words e

namespace Expr

variable {e : Expr Unit}

/-! ## From one level to the looser ones -/

/-- With no suffix behind it, an operand is read. -/
theorem BearsSuffixes.unary (h : e.BearsSuffixes) :
    Returns 2 Kind.EndsCall Reading.unary e.words e := by
  intro w hw
  rw [← List.append_nil w]
  exact h hw (CompleteBelow.suffixes_nil e)

/-- Operators may stand behind one operand. -/
theorem bearsOperators_of_unary (h : Returns 2 Kind.EndsCall Reading.unary e.words e) (l k : Nat) :
    e.BearsOperators l k := by
  intro w v Q hw hfollows hv
  refine .succ fun n hn => ?_
  rw [List.length_append] at hn
  exact .bind (h w hw n (by omega)) (hfollows.imp fun _ hend => hend.1) fun a ha =>
    ha ▸ hv n (by omega)

/-- With no operator behind them, operands are read. -/
theorem BearsOperators.chain {l : Nat} (h : e.BearsOperators l l) :
    Returns 3 (Kind.EndsChain l) (Reading.operators · l) e.words e := by
  intro w hw
  rw [← List.append_nil w]
  exact h hw (fun kind hend => hend.mono (Nat.le_succ l)) (CompleteBelow.operatorsAfter_nil e)

/-- With no `=` behind them, operands are an expression. -/
theorem BearsOperators.assignment (h : e.BearsOperators 0 0) :
    Returns 4 Kind.EndsExpression Reading.assignment e.words e := by
  intro w hw
  refine .succ fun n hn => .last ((h.chain w hw n hn).mono fun _ hend => hend.1) fun a ha => ?_
  refine .peekBehind fun t ht => ?_
  rw [if_neg ht.2]
  exact .pure ha

namespace ReadsBack

theorem of_unary (hbegins : ∀ w, Written e.words w → Begins Kind.opensExpression w)
    (hsuffixes : e.Binds 7 → e.BearsSuffixes)
    (h : Returns 2 Kind.EndsCall Reading.unary e.words e) : e.ReadsBack where
  begins := hbegins
  suffixes := hsuffixes
  unary := fun _ => h
  operators := fun _ _ => bearsOperators_of_unary h _ _
  assignment := BearsOperators.assignment (bearsOperators_of_unary h 0 0)

theorem of_suffixes (hbegins : ∀ w, Written e.words w → Begins Kind.opensExpression w)
    (h : e.BearsSuffixes) : e.ReadsBack :=
  of_unary hbegins (fun _ => h) h.unary

/-- An operand without suffixes of its own. -/
theorem of_primary (hbegins : ∀ w, Written e.words w → Begins Kind.opensOperand w)
    (h : Returns 1 Any Reading.primary e.words e) : e.ReadsBack :=
  of_suffixes (fun w hw => (hbegins w hw).mono fun _ => Kind.opensExpression_of_operand)
    fun hw hv => CompleteBelow.operand (hbegins _ hw) (h _ hw) fun _ ha => ha ▸ hv

/-! ## Operands -/

theorem literal (v : Literal) : (Expr.literal v : Expr Unit).ReadsBack := by
  have hword : ∀ w, Written (Expr.literal v : Expr Unit).words w →
      ∃ t, w = [t] ∧ t.kind = v.kind := by
    intro w hw
    obtain ⟨t, u, rfl, ht, hu⟩ := plain_iff.1 hw
    exact ⟨t, by rw [nil_iff.1 hu], ht⟩
  refine of_primary ?_ ?_
  · intro w hw
    obtain ⟨t, rfl, ht⟩ := hword w hw
    exact .token ht (by cases v <;> rfl) (by cases v <;> nofun) []
  · intro w hw
    obtain ⟨t, rfl, ht⟩ := hword w hw
    refine .succ fun n _ => .peek ?_
    rw [ht]
    cases v <;> exact .advance (.pure rfl)

theorem ref {s : Site Unit} (hname : s.name.kind = .identifier) : (Expr.ref s).ReadsBack := by
  refine of_primary (fun _ => begins_kept hname rfl nofun) fun w hw => ?_
  obtain ⟨u, rfl, hu⟩ := kept_iff.1 hw
  rw [nil_iff.1 hu]
  refine .succ fun n _ => .peek ?_
  simp only [hname]
  exact .advance (.pure rfl)

theorem this {s : Site Unit} (hname : s.name.kind = .kwThis) : (Expr.this s).ReadsBack := by
  refine of_primary (fun _ => begins_kept hname rfl nofun) fun w hw => ?_
  obtain ⟨u, rfl, hu⟩ := kept_iff.1 hw
  rw [nil_iff.1 hu]
  refine .succ fun n _ => .peek ?_
  simp only [hname]
  exact .advance (.pure rfl)

theorem super {s : Site Unit} {method : Token} (hname : s.name.kind = .kwSuper)
    (hmethod : method.kind = .identifier) : (Expr.super s method).ReadsBack := by
  refine of_primary (fun _ => begins_kept hname rfl nofun) fun w hw => ?_
  simp only [Expr.words, kept_iff, plain_iff, nil_iff] at hw
  obtain ⟨_, rfl, d, _, rfl, hd, _, rfl, rfl⟩ := hw
  refine .succ fun n _ => .peek ?_
  simp only [hname]
  exact .advance (.expect hd (.expect hmethod (.pure rfl)))

theorem group (h : e.ReadsBack) : (Expr.group e).ReadsBack := by
  refine of_primary (fun _ => begins_plain rfl nofun) fun w hw => ?_
  simp only [Expr.words, append_iff, plain_iff, nil_iff] at hw
  obtain ⟨l, _, rfl, hl, u, _, rfl, hu, r, _, rfl, hr, rfl⟩ := hw
  refine .succ fun n hn => .peek ?_
  simp only [hl]
  simp only [List.length_cons, List.length_append] at hn
  refine .advance (.bind (h.assignment u hu n (by omega)) ?_ fun a ha => ?_)
  · exact .cons hr Kind.endsExpression_rightParen
  · exact .expect hr (.pure (congrArg Expr.group ha))

/-- A function without a name, of the parameters and the body that are returned. -/
theorem lambda {params : List Token} {body : List (Stmt Unit)}
    (h : Returns 1 Any (Reading.routine · .function) (routineWords params body) (params, body)) :
    (Expr.lambda params body : Expr Unit).ReadsBack := by
  have hword : ∀ w, Written (Expr.lambda params body : Expr Unit).words w → ∃ t l u,
      w = t :: l :: u ∧ t.kind = .kwFun ∧ l.kind = .leftParen ∧
        Written (routineWords params body) u := by
    intro w hw
    obtain ⟨t, _, rfl, ht, hw⟩ := plain_iff.1 hw
    obtain ⟨l, u, rfl, hl, hu⟩ := plain_iff.1 hw
    exact ⟨t, l, u, rfl, ht, hl, hu⟩
  refine of_primary ?_ ?_
  · intro w hw
    obtain ⟨t, l, u, rfl, ht, hl, -⟩ := hword w hw
    exact ⟨t, l :: u, rfl, by rw [ht]; rfl, fun _ => ⟨l, u, rfl, hl⟩⟩
  · intro w hw
    obtain ⟨t, l, u, rfl, ht, hl, hu⟩ := hword w hw
    refine .succ fun n hn => .peek ?_
    simp only [ht]
    simp only [List.length_cons] at hn
    refine .advance (.expect hl (.last (h u hu n (by omega)) ?_))
    rintro _ rfl
    exact .pure rfl

/-! ## Suffixes -/

theorem get {name : Token} (h : e.ReadsBack) (hbinds : e.Binds 7)
    (hname : name.kind = .identifier) : (Expr.get e name).ReadsBack := by
  refine of_suffixes (fun w hw => ?_) fun {w v} Q hw hv => ?_
  · obtain ⟨u, v, rfl, hu, -⟩ := append_iff.1 hw
    exact (h.begins u hu).append v
  · simp only [Expr.words, append_iff, plain_iff, kept_iff, nil_iff] at hw
    obtain ⟨u, _, rfl, hu, d, _, rfl, hd, _, rfl, rfl⟩ := hw
    rw [List.append_assoc]
    refine h.suffixes hbinds hu (.succ fun n hn => .peek ?_)
    simp only [hd]
    simp only [List.cons_append, List.nil_append, List.length_cons] at hn
    exact .advance (.expect hname (hv n (by omega)))

theorem call {paren : Token} {args : List (Expr Unit)} (h : e.ReadsBack) (hbinds : e.Binds 7)
    (hparen : paren.kind = .rightParen) (hlen : args.length ≤ mostArguments)
    (hargs : ∀ arg ∈ args, arg.ReadsBack) : (Expr.call e paren args).ReadsBack := by
  have hlist : ∀ w, Written (Expr.listWords args) w → AcceptsOn 5 (· = .rightParen)
      (fun n => Reading.unlessAt .rightParen (Reading.arguments n 0)) w (·.getD [] = args) := by
    refine Returns.listed? Expr.words rfl (fun _ _ => rfl) ?_ ?_
    · intro arg harg w hw
      obtain ⟨t, u, rfl, ht, -⟩ := (hargs arg harg).begins w hw
      exact ⟨t, u, rfl, Kind.ne_of_opens ht rfl⟩
    · rintro arg args rfl
      rw [List.length_cons] at hlen
      exact .listed Expr.words Expr.moreWords rfl (fun _ _ => rfl) (fun _ _ => rfl)
        Kind.endsExpression_comma Kind.endsExpression_rightParen
        (fun a ha => (hargs a ha).assignment) (by omega)
  refine of_suffixes (fun w hw => ?_) fun {w v} Q hw hv => ?_
  · obtain ⟨u, v, rfl, hu, -⟩ := append_iff.1 hw
    exact (h.begins u hu).append v
  · simp only [Expr.words, append_iff, plain_iff, kept_iff, nil_iff] at hw
    obtain ⟨u, _, rfl, hu, l, _, rfl, hl, a, _, rfl, ha, _, rfl, rfl⟩ := hw
    rw [List.append_assoc, List.cons_append, List.append_assoc]
    refine h.suffixes hbinds hu (.succ fun n hn => .peek ?_)
    simp only [hl]
    simp only [List.length_append, List.length_cons, List.length_nil] at hn
    refine .advance (.bind (hlist a ha n (by omega)) (.cons hparen rfl) ?_)
    rintro _ rfl
    exact .expect hparen (hv n (by omega))

/-! ## Operators -/

/-- An operand with an operator in front. -/
theorem prefixed {op : Token} (hop : op.kind = .bang ∨ op.kind = .minus) (h : e.ReadsBack)
    (hbinds : e.Binds 6) : (Expr.unary op e).ReadsBack := by
  refine of_unary (fun w hw => ?_) (fun h => absurd h (show ¬ 7 ≤ 6 by decide))
    fun w hw => ?_
  · rcases hop with hop | hop
    · exact begins_kept hop rfl nofun hw
    · exact begins_kept hop rfl nofun hw
  · obtain ⟨u, rfl, hu⟩ := kept_iff.1 hw
    refine .succ fun n hn => .peek ?_
    rw [List.length_cons] at hn
    have hread : Accepts Kind.EndsCall
        (do Reading.advance; return Expr.unary op (← Reading.unary n)) (op :: u)
        (· = Expr.unary op e) :=
      .advance (.last (h.unary hbinds u hu n (by omega)) fun _ ha => .pure (congrArg _ ha))
    rcases hop with hop | hop
    · simp only [hop]
      exact hread
    · simp only [hop]
      exact hread

/-- Two operands and an operator between them, which is the next one behind the left operand and
ends the right one. -/
theorem join {op : Token} {k : Nat} {left right : Expr Unit} (hk : op.kind.OnLevel k)
    (hleft : left.ReadsBack) (hright : right.ReadsBack) (hl : left.Binds k)
    (hr : right.Binds (k + 1)) : (Expr.join op left right).ReadsBack := by
  have hop := Kind.level?_eq_some_iff.2 hk
  have hlevel : ∀ {l : Nat}, (Expr.join op left right).Binds l → l ≤ k := by
    intro l h
    obtain ⟨j, hj, hle⟩ := binds_join.1 h
    cases hop.symm.trans (Kind.level?_eq_some_iff.2 hj)
    exact hle
  have hwide : ¬ (Expr.join op left right).Binds 6 :=
    fun h => absurd (Kind.level?_lt hop) (Nat.not_lt.2 (hlevel h))
  have hbears : ∀ {l k' : Nat}, (Expr.join op left right).Binds l →
      (Expr.join op left right).Binds k' → (Expr.join op left right).BearsOperators l k' := by
    intro l k' h h' w v Q hw hfollows hv
    have hlk := hlevel h
    have hkk := hlevel h'
    rw [Expr.words_join] at hw
    obtain ⟨u, _, rfl, hu, hw⟩ := append_iff.1 hw
    obtain ⟨x, rfl, hx⟩ := kept_iff.1 hw
    rw [List.append_assoc]
    refine hleft.operators (hl.mono hlk) hl hu ?_ (.succ fun n hn => .peek ?_)
    · refine ⟨Kind.endsCall_of_level hop, fun j hj => ?_⟩
      cases hop.symm.trans hj
      exact Nat.lt_succ_self _
    · simp only [List.cons_append, List.length_cons, List.length_append] at hn
      simp only [hop]
      rw [if_pos hlk]
      have hread := BearsOperators.chain (hright.operators hr hr) x hx n (by omega)
      refine .advance (.bind hread ?_ ?_)
      · exact hfollows.imp fun _ hend => hend.mono (Nat.succ_le_succ hkk)
      · rintro _ rfl
        exact hv n (by omega)
  exact {
    begins := by
      intro w hw
      rw [Expr.words_join] at hw
      obtain ⟨u, v, rfl, hu, -⟩ := append_iff.1 hw
      exact (hleft.begins u hu).append v
    suffixes := fun h => absurd (h.mono (by omega)) hwide
    unary := fun h => absurd h hwide
    operators := hbears
    assignment := by
      have hzero : (Expr.join op left right).Binds 0 := binds_join.2 ⟨k, hk, Nat.zero_le k⟩
      exact BearsOperators.assignment (hbears hzero hzero) }

/-! ## Assignments -/

/-- A target that is read as an operand, and the value behind the `=`. -/
theorem of_target {target value : Expr Unit} (htarget : target.ReadsBack)
    (hoperand : target.Binds 0) (hvalue : value.ReadsBack) (hbinds : ∀ l, ¬ e.Binds l)
    (hwords : e.words = target.words ++ .plain .equal :: value.words)
    (he : (∃ s, target = .ref s ∧ e = .assign s value) ∨
      ∃ object name, target = .get object name ∧ e = .set object name value) : e.ReadsBack := by
  have hassignment : Returns 4 Kind.EndsExpression Reading.assignment e.words e := by
    intro w hw
    rw [hwords] at hw
    obtain ⟨u, _, rfl, hu, hw⟩ := append_iff.1 hw
    obtain ⟨equals, v, rfl, hequals, hv⟩ := plain_iff.1 hw
    refine .succ fun n hn => ?_
    simp only [List.length_append, List.length_cons] at hn
    have hread := BearsOperators.chain (htarget.operators hoperand hoperand) u hu n (by omega)
    refine .bind hread (.cons hequals ⟨⟨nofun, nofun⟩, nofun⟩) fun a ha => .peek ?_
    rw [if_pos hequals]
    refine .advance (.last (hvalue.assignment v hv n (by omega)) ?_)
    rintro _ rfl
    rcases he with ⟨s, rfl, rfl⟩ | ⟨object, name, rfl, rfl⟩
    · cases ha
      exact .pure rfl
    · cases ha
      exact .pure rfl
  exact {
    begins := by
      intro w hw
      rw [hwords] at hw
      obtain ⟨u, v, rfl, hu, -⟩ := append_iff.1 hw
      exact (htarget.begins u hu).append v
    suffixes := fun h => absurd h (hbinds 7)
    unary := fun h => absurd h (hbinds 6)
    operators := fun h _ => absurd h (hbinds _)
    assignment := hassignment }

theorem assign {s : Site Unit} (hname : s.name.kind = .identifier) (h : e.ReadsBack) :
    (Expr.assign s e).ReadsBack :=
  of_target (ref hname) trivial h (fun _ => id) rfl (.inl ⟨s, rfl, rfl⟩)

theorem set {object : Expr Unit} {name : Token} (hobject : object.ReadsBack)
    (hbinds : object.Binds 7) (hname : name.kind = .identifier) (h : e.ReadsBack) :
    (Expr.set object name e).ReadsBack :=
  of_target (get hobject hbinds hname) trivial h (fun _ => id) (by simp [Expr.words])
    (.inr ⟨object, name, rfl, rfl⟩)

end ReadsBack

end Expr

end LoxLang
