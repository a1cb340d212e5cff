import LoxLang.Proofs.Grammar.Accepts
import LoxLang.Proofs.Grammar.Else

/-!
# What can be derived is read

Each reading accepts the tokens that its symbol stands for, on a fuel that grows with their number.
The proof is by induction on that number: what is nested is shorter (`CompleteBelow`), and inside
one nesting the readings follow each other as the rules do.
-/

namespace LoxLang

/-- Behind a call: no further suffix. -/
def Kind.EndsCall (kind : Kind) : Prop := kind ≠ .leftParen ∧ kind ≠ .dot

/-- Behind operators that bind at least as tight as the level `l`: no further one of them. -/
def Kind.EndsChain (l : Nat) (kind : Kind) : Prop :=
  kind.EndsCall ∧ ∀ k, kind.level? = some k → k < l

/-- Behind an expression: nothing that would continue it. -/
def Kind.EndsExpression (kind : Kind) : Prop := kind.EndsChain 0 ∧ kind ≠ .equal

/-- Behind a statement: no `else` that would belong to it. -/
def Kind.EndsStatement (isOpen : Bool) (kind : Kind) : Prop := isOpen → kind ≠ .kwElse

theorem Kind.endsExpression_of_level {kind : Kind} (hlevel : kind.level? = none)
    (hparen : kind ≠ .leftParen) (hdot : kind ≠ .dot) (hequal : kind ≠ .equal) :
    kind.EndsExpression :=
  ⟨⟨⟨hparen, hdot⟩, fun k hk => by rw [hlevel] at hk; cases hk⟩, hequal⟩

theorem Kind.endsExpression_rightParen : Kind.EndsExpression .rightParen :=
  endsExpression_of_level rfl nofun nofun nofun

theorem Kind.endsExpression_semicolon : Kind.EndsExpression .semicolon :=
  endsExpression_of_level rfl nofun nofun nofun

theorem Kind.endsExpression_comma : Kind.EndsExpression .comma :=
  endsExpression_of_level rfl nofun nofun nofun

theorem Kind.endsExpression_eof : Kind.EndsExpression .eof :=
  endsExpression_of_level rfl nofun nofun nofun

/-- An operator ends a call. -/
theorem Kind.endsCall_of_level {kind : Kind} {k : Nat} (h : kind.level? = some k) :
    kind.EndsCall := by
  constructor <;> rintro rfl <;> cases h

namespace Reading

variable {α : Type}

/-- On fuel enough for their number the reading accepts the tokens. -/
def AcceptsOn (k : Nat) (F : Kind → Prop) (r : Nat → Reading α) (w : List Token)
    (P : α → Prop := fun _ => True) : Prop :=
  ∀ n, 16 * w.length + k ≤ n → Accepts F (r n) w P

theorem AcceptsOn.succ {k : Nat} {F : Kind → Prop} {r : Nat → Reading α} {w : List Token}
    {P : α → Prop} (h : ∀ n, 16 * w.length + k ≤ n → Accepts F (r (n + 1)) w P) :
    AcceptsOn (k + 1) F r w P := by
  intro n hn
  cases n with
  | zero => omega
  | succ n => exact h n (by omega)

theorem AcceptsOn.imp {k : Nat} {F : Kind → Prop} {r : Nat → Reading α} {w : List Token}
    {P P' : α → Prop} (h : AcceptsOn k F r w P) (hP : ∀ a, P a → P' a) : AcceptsOn k F r w P' :=
  fun n hn => (h n hn).imp hP

/-- A list with commas is accepted if its entries are. -/
theorem AcceptsOn.listed {a : Rhs} {k m : Nat} {G : Kind → Prop} {cause : GrammarCause}
    {item : Nat → Reading α} {r : Nat → Nat → Reading (List α)}
    (hr : ∀ n count, r (n + 1) count = do
      if mostArguments ≤ count then Reading.note cause
      let x ← item n
      if ← Reading.accept .comma then return x :: (← r n (count + 1)) else return [x])
    (hcomma : G .comma) (hparen : G .rightParen)
    (hitem : ∀ u, Derives a u → u.length ≤ m → AcceptsOn k G item u) {w : List Token}
    {count : Nat} (hcount : count < mostArguments)
    (hw : Derives (a ++ .upTo (254 - count) (.token .comma ++ a)) w) (hm : w.length ≤ m) :
    AcceptsOn (k + 1) (· = .rightParen) (r · count) w := by
  obtain ⟨u, _, rfl, hu, hv⟩ := Derives.seq_iff.1 hw
  obtain ⟨ws, rfl, hlen, hws⟩ := Derives.upTo_iff.1 hv
  clear hw hv
  induction ws generalizing u count with
  | nil =>
    refine .succ fun n hn => ?_
    rw [hr, if_neg (Nat.not_le.2 hcount)]
    simp only [List.flatten_nil, List.append_nil] at hn hm
    refine .bind (hitem u hu hm n hn) ?_ fun x _ => ?_
    · rintro _ rfl
      exact hparen
    · refine .acceptNone ?_ (.pure trivial)
      rintro _ rfl
      nofun
  | cons x ws ih =>
    obtain ⟨hx, hws'⟩ := List.forall_mem_cons.1 hws
    obtain ⟨t, v, rfl, ht, hv⟩ := Derives.token_seq_iff.1 hx
    simp only [List.length_cons] at hlen
    have hcount' : count + 1 < mostArguments := by
      unfold mostArguments
      omega
    refine .succ fun n hn => ?_
    rw [hr, if_neg (Nat.not_le.2 hcount)]
    simp only [List.flatten_cons, List.length_append, List.length_cons] at hn hm
    refine .bind (hitem u hu (by omega) n (by omega)) (.cons ht hcomma) fun x _ => ?_
    refine .acceptSome ht ?_
    have hmore := ih hcount' v hv (by rw [List.length_append]; omega) (by omega) hws'
    exact .last (hmore n (by rw [List.length_append]; omega)) fun _ _ => .pure trivial

/-- The readings of expressions and of declarations accept the tokens if they can be derived. -/
structure CompleteAt (w : List Token) : Prop where
  assignment : Derives (.sym .assignment) w → AcceptsOn 4 Kind.EndsExpression Reading.assignment w
  declaration : Derives (.sym .declaration) w → AcceptsOn 4 (· ≠ .kwElse) Reading.declaration w

/-- Fewer than `m` tokens are accepted. -/
def CompleteBelow (m : Nat) : Prop := ∀ u : List Token, u.length < m → CompleteAt u

namespace CompleteBelow

variable {m : Nat} {w : List Token}

theorem expression (ih : CompleteBelow m) (h : Derives (.sym .expression) w) (hw : w.length < m) :
    AcceptsOn 4 Kind.EndsExpression Reading.assignment w :=
  (ih w hw).assignment (Derives.sym_iff.1 h)

/-- An expression that may be missing in front of the token that ends it. -/
theorem expression? (ih : CompleteBelow m) {kind : Kind} (hend : kind.EndsExpression)
    (hopens : kind.opensExpression = false) (h : Derives (.opt (.sym .expression)) w)
    (hw : w.length < m) : AcceptsOn 4 (· = kind)
      (fun n => Reading.unlessAt kind (Reading.assignment n)) w := by
  intro n hn
  rcases Derives.opt_iff.1 h with rfl | h
  · exact .unlessAtNone trivial
  · obtain ⟨t, u, rfl, ht, -⟩ := (Derives.sym_iff.1 h).begins_assignment
    refine .unlessAtSome (Kind.ne_of_opens ht hopens) ((ih.expression h hw n hn).mono ?_)
      fun _ _ => trivial
    rintro _ rfl
    exact hend

theorem arguments? (ih : CompleteBelow m) (h : Derives (.opt (.sym .arguments)) w)
    (hw : w.length < m) : AcceptsOn 5 (· = .rightParen)
      (fun n => Reading.unlessAt .rightParen (Reading.arguments n 0)) w := by
  intro n hn
  rcases Derives.opt_iff.1 h with rfl | h
  · exact .unlessAtNone trivial
  · obtain ⟨u, v, rfl, hu, hv⟩ := Derives.seq_iff.1 (Derives.sym_iff.1 h)
    obtain ⟨t, u, rfl, ht, -⟩ := (Derives.sym_iff.1 hu).begins_assignment
    have hlist : AcceptsOn 5 (· = .rightParen) (Reading.arguments · 0) (t :: u ++ v) :=
      .listed (fun _ _ => rfl) Kind.endsExpression_comma Kind.endsExpression_rightParen
        (fun _ hu hlen => ih.expression hu (Nat.lt_of_le_of_lt hlen hw)) (by decide)
        (Derives.sym_iff.1 h) (Nat.le_refl _)
    exact .unlessAtSome (Kind.ne_of_opens ht rfl) (hlist n hn) fun _ _ => trivial

/-! ## Calls -/

theorem suffixes_nil (e : Expr Unit) :
    AcceptsOn 1 Kind.EndsCall (Reading.suffixes · e) [] (· = e) := by
  refine .succ fun n _ => .peekBehind fun t ht => ?_
  split
  · next hparen => exact absurd hparen ht.1
  · next hdot => exact absurd hdot ht.2
  · exact .pure rfl

/-- A dot and a name at the end make a property. -/
theorem suffixes_get {d name : Token} (hd : d.kind = .dot) (hname : name.kind = .identifier)
    (e : Expr Unit) :
    AcceptsOn 1 Kind.EndsCall (Reading.suffixes · e) [d, name] (· = .get e name) := by
  refine .succ fun n hn => .peek ?_
  simp only [hd]
  rw [List.length_cons] at hn
  exact .advance (.expect hname (suffixes_nil _ n (by rw [List.length_nil]; omega)))

/-- The suffixes of a call are read one after the other. -/
theorem suffixes (ih : CompleteBelow m) {ss : List (List Token)}
    (hss : ∀ s ∈ ss, Derives .suffix s) {v : List Token} {P : Expr Unit → Prop}
    (hv : ∀ e, AcceptsOn 1 Kind.EndsCall (Reading.suffixes · e) v P)
    (hw : ss.flatten.length ≤ m) (e : Expr Unit) :
    AcceptsOn 1 Kind.EndsCall (Reading.suffixes · e) (ss.flatten ++ v) P := by
  induction ss generalizing e with
  | nil => exact hv e
  | cons s ss ihss =>
    obtain ⟨hs, hss⟩ := List.forall_mem_cons.1 hss
    rw [List.flatten_cons, List.length_append] at hw
    have hmore : ∀ n e, 16 * (ss.flatten.length + v.length) + 1 ≤ n →
        Accepts Kind.EndsCall (Reading.suffixes n e) (ss.flatten ++ v) P :=
      fun n e hn => ihss hss (by omega) e n (by rwa [List.length_append])
    refine .succ fun n hn => ?_
    rw [List.flatten_cons, List.append_assoc] at hn ⊢
    rcases Derives.alt_iff.1 hs with h | h
    · rw [Derives.seq_assoc] at h
      obtain ⟨l, _, rfl, hl, h⟩ := Derives.token_seq_iff.1 h
      obtain ⟨args, _, rfl, hargs, h⟩ := Derives.seq_iff.1 h
      obtain ⟨r, rfl, hr⟩ := Derives.token_iff.1 h
      simp only [List.length_append, List.length_cons] at hw hn
      rw [List.cons_append, List.append_assoc]
      refine .peek ?_
      simp only [hl]
      refine .advance ?_
      exact .bind (ih.arguments? hargs (by omega) n (by omega)) (.cons hr rfl) fun _ _ =>
        .expect hr (hmore n _ (by omega))
    · obtain ⟨d, _, rfl, hd, h⟩ := Derives.token_seq_iff.1 h
      obtain ⟨name, rfl, hname⟩ := Derives.token_iff.1 h
      simp only [List.length_append, List.length_cons] at hn
      refine .peek ?_
      simp only [hd]
      exact .advance (.expect hname (hmore n _ (by omega)))

/-! ## Bodies and operands -/

theorem parameters? (h : Derives (.opt (.sym .parameters)) w) : AcceptsOn 1 (· = .rightParen)
    (fun n => Reading.unlessAt .rightParen (Reading.parameters n 0)) w := by
  intro n hn
  rcases Derives.opt_iff.1 h with rfl | h
  · exact .unlessAtNone trivial
  · have hlist : AcceptsOn 1 (· = .rightParen) (Reading.parameters · 0) w := by
      refine .listed (G := Any) (fun _ _ => rfl) trivial trivial (fun u hu _ _ _ => ?_) (by decide)
        (Derives.sym_iff.1 h) (Nat.le_refl _)
      obtain ⟨t, rfl, ht⟩ := Derives.token_iff.1 hu
      exact (Accepts.token ht).imp fun _ _ => trivial
    obtain ⟨_, v, rfl, hu, -⟩ := Derives.seq_iff.1 (Derives.sym_iff.1 h)
    obtain ⟨t, rfl, ht⟩ := Derives.token_iff.1 hu
    exact .unlessAtSome (by rw [ht]; nofun) (hlist n hn) fun _ _ => trivial

/-- Declarations are read one after the other up to the brace behind them. -/
theorem block (ih : CompleteBelow m) {F : Kind → Prop} {ws : List (List Token)}
    (hws : ∀ u ∈ ws, Derives (.sym .declaration) u) {r : Token} (hr : r.kind = .rightBrace)
    (hw : ws.flatten.length < m) : AcceptsOn 1 F Reading.block (ws.flatten ++ [r]) := by
  induction ws with
  | nil =>
    refine .succ fun n _ => .peek ?_
    simp only [hr]
    exact .advance (.pure trivial)
  | cons u ws ihws =>
    obtain ⟨hu, hws'⟩ := List.forall_mem_cons.1 hws
    obtain ⟨t, u, rfl, ht⟩ := hu.begins_declaration
    refine .succ fun n hn => ?_
    rw [List.flatten_cons, List.append_assoc] at hn ⊢
    simp only [List.flatten_cons, List.length_append, List.length_cons] at hn hw
    have hdeclaration := (ih (t :: u) (by rw [List.length_cons]; omega)).declaration hu
    refine .peek ?_
    split
    · next h => exact absurd h (Kind.ne_of_opens ht rfl)
    · next h => exact absurd h (Kind.ne_of_opens ht rfl)
    · refine .bind (hdeclaration n (by rw [List.length_cons]; omega)) ?_ fun _ _ => ?_
      · cases ws with
        | nil => exact .cons hr nofun
        | cons v ws =>
          obtain ⟨t, v, rfl, ht⟩ := (hws' v List.mem_cons_self).begins_declaration
          exact Kind.ne_of_opens ht rfl
      · have hmore := ihws hws' (by omega) n
          (by rw [List.length_append, List.length_cons]; omega)
        exact .last hmore fun _ _ => .pure trivial

/-- Parameters and a body. -/
theorem routine (ih : CompleteBelow m) {F : Kind → Prop} (role : Role)
    (h : Derives (.opt (.sym .parameters) ++ .token .rightParen ++ .sym .block) w)
    (hw : w.length ≤ m) : AcceptsOn 1 F (Reading.routine · role) w := by
  obtain ⟨p, _, rfl, hp, h⟩ := Derives.seq_iff.1 (Derives.seq_assoc.1 h)
  obtain ⟨r, _, rfl, hr, h⟩ := Derives.token_seq_iff.1 h
  rw [Derives.sym_iff, Symbol.rule, Derives.seq_assoc] at h
  obtain ⟨l, _, rfl, hl, h⟩ := Derives.token_seq_iff.1 h
  obtain ⟨_, _, rfl, hbody, h⟩ := Derives.seq_iff.1 h
  obtain ⟨r', rfl, hr'⟩ := Derives.token_iff.1 h
  obtain ⟨ws, rfl, hws⟩ := Derives.star_iff.1 hbody
  refine .succ fun n hn => ?_
  simp only [List.length_append, List.length_cons, List.length_nil] at hn hw
  refine .bind (parameters? hp n (by omega)) (.cons hr rfl) fun _ _ => ?_
  refine .expect hr (.expect hl ?_)
  have hblock := ih.block (F := F) hws hr' (by omega) n
    (by rw [List.length_append, List.length_singleton]; omega)
  exact .last hblock fun _ _ => .pure trivial

/-- An operand without operators and suffixes. -/
theorem primary (ih : CompleteBelow m) {F : Kind → Prop} (h : Derives (.sym .primary) w)
    (hw : w.length ≤ m) : AcceptsOn 1 F Reading.primary w := by
  rcases derives_primary_iff.1 h with h | h | h | h | h | h | h | h | h | h
  · cases h with
    | number ht =>
      refine .succ fun n hn => .peek ?_
      simp only [ht]
      exact .advance (.pure trivial)
  · cases h with
    | string ht =>
      refine .succ fun n hn => .peek ?_
      simp only [ht]
      exact .advance (.pure trivial)
  iterate 5
    obtain ⟨t, rfl, ht⟩ := Derives.token_iff.1 h
    refine .succ fun n hn => .peek ?_
    simp only [ht]
    exact .advance (.pure trivial)
  · simp only [Derives.seq_assoc, Derives.token_seq_iff] at h
    simp only [Derives.seq_iff, Derives.token_iff] at h
    obtain ⟨l, _, rfl, hl, e, _, rfl, he, r, rfl, hr⟩ := h
    refine .succ fun n hn => .peek ?_
    simp only [hl]
    simp only [List.length_cons, List.length_append] at hn hw
    refine .advance (.bind (ih.expression he (by omega) n (by omega)) ?_ fun _ _ => ?_)
    · exact .cons hr Kind.endsExpression_rightParen
    · exact .expect hr (.pure trivial)
  · simp only [Derives.seq_assoc, Derives.token_seq_iff, Derives.token_iff] at h
    obtain ⟨t, _, rfl, ht, d, _, rfl, hd, name, rfl, hname⟩ := h
    refine .succ fun n hn => .peek ?_
    simp only [ht]
    exact .advance (.expect hd (.expect hname (.pure trivial)))
  · simp only [Derives.seq_assoc, Derives.token_seq_iff] at h
    obtain ⟨t, _, rfl, ht, l, u, rfl, hl, h⟩ := h
    refine .succ fun n hn => .peek ?_
    simp only [ht]
    simp only [List.length_cons] at hn hw
    have hroutine := ih.routine (F := F) .function (Derives.seq_assoc.2 h) (by omega) n (by omega)
    exact .advance (.expect hl (.last hroutine fun _ _ => .pure trivial))

/-! ## Operators -/

/-- An operand with suffixes that has no operator in front. -/
theorem operand {p v : List Token} {P Q : Expr Unit → Prop} (hp : Begins Kind.opensOperand p)
    (hprimary : AcceptsOn 1 Any Reading.primary p P)
    (hv : ∀ e, P e → AcceptsOn 1 Kind.EndsCall (Reading.suffixes · e) v Q) :
    AcceptsOn 2 Kind.EndsCall Reading.unary (p ++ v) Q := by
  obtain ⟨t, u, rfl, ht, -⟩ := hp
  refine .succ fun n hn => .peek ?_
  rw [List.length_append] at hn
  split
  · next h => exact absurd h (Kind.ne_of_opens ht rfl)
  · next h => exact absurd h (Kind.ne_of_opens ht rfl)
  · exact .bind (hprimary n (by omega)) (follows_any v _) fun e he => hv e he n (by omega)

theorem unary (ih : CompleteBelow m) (h : Derives (.sym .unary) w) (hw : w.length ≤ m) :
    AcceptsOn 2 Kind.EndsCall Reading.unary w := by
  induction w with
  | nil =>
    obtain ⟨t, u, hnil, -⟩ := h.begins_unary
    cases hnil
  | cons t u ihu =>
    rw [List.length_cons] at hw
    rcases Derives.alt_iff.1 (Derives.sym_iff.1 h) with h | h
    · obtain ⟨o, v, heq, ho, hv⟩ := Derives.seq_iff.1 h
      obtain ⟨op, rfl, hop⟩ : ∃ op, o = [op] ∧ (op.kind = .bang ∨ op.kind = .minus) := by
        rcases Derives.alt_iff.1 ho with ho | ho
        · obtain ⟨op, rfl, hop⟩ := Derives.token_iff.1 ho
          exact ⟨op, rfl, .inl hop⟩
        · obtain ⟨op, rfl, hop⟩ := Derives.token_iff.1 ho
          exact ⟨op, rfl, .inr hop⟩
      change t :: u = op :: v at heq
      cases heq
      refine .succ fun n hn => .peek ?_
      rw [List.length_cons] at hn
      have hread : Accepts Kind.EndsCall
          (do Reading.advance; return Expr.unary t (← Reading.unary n)) (t :: u) fun _ => True :=
        .advance (.last (ihu hv (by omega) n (by omega)) fun _ _ => .pure trivial)
      rcases hop with hop | hop
      · simp only [hop]
        exact hread
      · simp only [hop]
        exact hread
    · obtain ⟨p, v, hword, hp, hv⟩ := Derives.seq_iff.1 (Derives.sym_iff.1 h)
      obtain ⟨ss, rfl, hss⟩ := Derives.star_iff.1 hv
      rw [hword]
      have hlen := congrArg List.length hword
      rw [List.length_cons, List.length_append] at hlen
      rw [← List.append_nil ss.flatten]
      refine operand hp.begins_primary (ih.primary hp (by omega)) fun e _ => ?_
      exact ih.suffixes hss (fun e => (suffixes_nil e).imp fun _ _ => trivial) (by omega) e

/-- What follows a first operand does not continue a call. -/
theorem follows_chain {l : Nat} {ts : Chain} (hts : ts.Binds l) :
    Follows Kind.EndsCall ts.word (Kind.EndsChain l) := by
  cases ts with
  | nil => exact fun _ h => h.1
  | cons p ts =>
    obtain ⟨⟨k, hop, -⟩, -⟩ := hts p List.mem_cons_self
    exact Kind.endsCall_of_level hop

/-- A first operand and operators behind it. -/
theorem operators_of {l : Nat} {u : List Token} {ts : Chain} {P Q : Expr Unit → Prop}
    (hu : AcceptsOn 2 Kind.EndsCall Reading.unary u P) (hts : ts.Binds l)
    (hafter : ∀ e, P e →
      AcceptsOn 1 (Kind.EndsChain l) (Reading.operatorsAfter · l e) ts.word Q) :
    AcceptsOn 3 (Kind.EndsChain l) (Reading.operators · l) (u ++ ts.word) Q := by
  refine .succ fun n hn => ?_
  rw [List.length_append] at hn
  exact .bind (hu n (by omega)) (follows_chain hts) fun e he => hafter e he n (by omega)

theorem operatorsAfter_nil {l : Nat} (e : Expr Unit) :
    AcceptsOn 1 (Kind.EndsChain l) (Reading.operatorsAfter · l e) [] (· = e) := by
  refine .succ fun n _ => .peekBehind fun t ht => ?_
  split
  · exact .pure rfl
  · next k hk =>
    rw [if_neg (Nat.not_le.2 (ht.2 k hk))]
    exact .pure rfl

/-- A chain of operators is read, the tighter ones as part of the right operands of the others. -/
theorem operatorsAfter (ih : CompleteBelow m) {l : Nat} {ts : Chain} (hts : ts.Binds l)
    (hw : ts.word.length ≤ m) (left : Expr Unit) :
    AcceptsOn 1 (Kind.EndsChain l) (Reading.operatorsAfter · l left) ts.word := by
  induction hlen : ts.length using Nat.strongRecOn generalizing l ts left with
  | ind len ihlen =>
    cases ts with
    | nil => exact (operatorsAfter_nil left).imp fun _ _ => trivial
    | cons p ts =>
      obtain ⟨op, u⟩ := p
      obtain ⟨⟨⟨k, hop, hlk⟩, hu⟩, hrest⟩ := List.forall_mem_cons.1 hts
      obtain ⟨ts₁, ts₂, rfl, h₁, h₂, hhead⟩ := Chain.Binds.cut hrest k
      simp only [List.length_cons, List.length_append] at hlen
      have hsplit : op :: (u ++ Chain.word (ts₁ ++ ts₂)) = op :: ((u ++ ts₁.word) ++ ts₂.word) := by
        rw [Chain.word_append, List.append_assoc]
      rw [Chain.word_cons, hsplit] at hw ⊢
      simp only [List.length_cons, List.length_append] at hw
      have hright : AcceptsOn 3 (Kind.EndsChain (k + 1)) (Reading.operators · (k + 1))
          (u ++ ts₁.word) :=
        operators_of (ih.unary hu (by omega)) h₁ fun e _ =>
          ihlen ts₁.length (by omega) h₁ (by omega) e rfl
      refine .succ fun n hn => .peek ?_
      simp only [List.length_cons, List.length_append] at hn
      simp only [hop]
      rw [if_pos hlk]
      refine .advance (.bind (hright n (by rw [List.length_append]; omega)) ?_ fun right _ => ?_)
      · cases ts₂ with
        | nil => exact fun kind hend => ⟨hend.1, fun j hj => Nat.lt_succ_of_lt
            (Nat.lt_of_lt_of_le (hend.2 j hj) hlk)⟩
        | cons q ts₂ =>
          obtain ⟨j, hj, hjk⟩ := hhead q rfl
          refine ⟨Kind.endsCall_of_level hj, fun i hi => ?_⟩
          cases hj.symm.trans hi
          exact Nat.lt_succ_of_le hjk
      · exact ihlen ts₂.length (by omega) h₂ (by omega) _ rfl n (by omega)

/-- The expression can be the target of an assignment. -/
def IsTarget (e : Expr Unit) : Prop := (∃ s, e = .ref s) ∨ ∃ object name, e = .get object name

/-- What may stand in front of an equals sign is read as a target. -/
theorem target (ih : CompleteBelow m) {name : Token} (hname : name.kind = .identifier)
    (h : Derives (.opt (.sym .call ++ .token .dot)) w) (hw : w.length ≤ m) :
    AcceptsOn 3 (Kind.EndsChain 0) (Reading.operators · 0) (w ++ [name]) IsTarget := by
  suffices hunary : AcceptsOn 2 Kind.EndsCall Reading.unary (w ++ [name]) IsTarget by
    have hread : AcceptsOn 3 (Kind.EndsChain 0) (Reading.operators · 0)
        (w ++ [name] ++ Chain.word []) IsTarget :=
      operators_of hunary nofun fun e he => (operatorsAfter_nil e).imp fun e' he' => he' ▸ he
    rwa [Chain.word_nil, List.append_nil] at hread
  rcases Derives.opt_iff.1 h with rfl | h
  · refine operand (v := []) (P := IsTarget) (.token hname rfl nofun []) (.succ fun n _ =>
      .peek ?_) fun e he => (suffixes_nil e).imp fun e' he' => he' ▸ he
    simp only [hname]
    exact .advance (.pure (.inl ⟨_, rfl⟩))
  · obtain ⟨_, _, rfl, hcall, hdot⟩ := Derives.seq_iff.1 h
    obtain ⟨d, rfl, hd⟩ := Derives.token_iff.1 hdot
    obtain ⟨p, _, rfl, hp, hv⟩ := Derives.seq_iff.1 (Derives.sym_iff.1 hcall)
    obtain ⟨ss, rfl, hss⟩ := Derives.star_iff.1 hv
    simp only [List.length_append] at hw
    simp only [List.append_assoc]
    refine operand hp.begins_primary (ih.primary hp (by omega)) fun e _ => ?_
    exact ih.suffixes hss (fun e => (suffixes_get hd hname e).imp fun _ he => .inr ⟨_, _, he⟩)
      (by omega) e

theorem assignment (ih : CompleteBelow m) (h : Derives (.sym .assignment) w)
    (hw : w.length ≤ m) : AcceptsOn 4 Kind.EndsExpression Reading.assignment w := by
  rcases Derives.alt_iff.1 (Derives.sym_iff.1 h) with h | h
  · rw [Derives.seq_assoc, Derives.seq_assoc] at h
    obtain ⟨u, _, rfl, hu, h⟩ := Derives.seq_iff.1 h
    obtain ⟨name, _, rfl, hname, h⟩ := Derives.token_seq_iff.1 h
    obtain ⟨eq, v, rfl, heq, hv⟩ := Derives.token_seq_iff.1 h
    refine .succ fun n hn => ?_
    simp only [List.length_append, List.length_cons] at hw hn
    have htarget := ih.target hname hu (by omega) n
      (by rw [List.length_append, List.length_singleton]; omega)
    have hvalue := (ih v (by omega)).assignment hv n (by omega)
    rw [List.append_cons]
    refine .bind htarget (.cons heq ?_) fun e he => .peek ?_
    · exact ⟨⟨nofun, nofun⟩, nofun⟩
    · rw [if_pos heq]
      refine .advance (.last hvalue fun value _ => ?_)
      rcases he with ⟨s, rfl⟩ | ⟨object, name, rfl⟩
      · exact .pure trivial
      · exact .pure trivial
  · obtain ⟨u, ts, rfl, hu, hts⟩ := (derives_ofLevel_iff (Nat.zero_le 6)).1 h
    rw [List.length_append] at hw
    have hread := operators_of (ih.unary hu (by omega)) hts fun e _ =>
      ih.operatorsAfter hts (by omega) e
    refine .succ fun n hn => .last ((hread n (by omega)).mono fun _ hend => hend.1) fun e _ => ?_
    refine .peekBehind fun t ht => ?_
    rw [if_neg ht.2]
    exact .pure trivial

/-! ## Statements -/

theorem expressionStatement (ih : CompleteBelow m) {F : Kind → Prop}
    (h : Derives (.sym .exprStmt) w) (hw : w.length ≤ m) :
    AcceptsOn 1 F Reading.expressionStatement w := by
  obtain ⟨e, _, rfl, he, h⟩ := Derives.seq_iff.1 (Derives.sym_iff.1 h)
  obtain ⟨t, rfl, ht⟩ := Derives.token_iff.1 h
  refine .succ fun n hn => ?_
  simp only [List.length_append, List.length_singleton] at hn hw
  refine .bind (ih.expression he (by omega) n (by omega)) ?_ fun _ _ => ?_
  · exact .cons ht Kind.endsExpression_semicolon
  · exact .expect ht (.pure trivial)

/-- A variable, behind its keyword. -/
theorem variableDeclared (ih : CompleteBelow m) {F : Kind → Prop} {t : Token}
    (h : Derives (.sym .varDecl) (t :: w)) (hw : w.length ≤ m) :
    t.kind = .kwVar ∧ AcceptsOn 1 F Reading.variableDeclared w := by
  rw [Derives.sym_iff, Symbol.rule] at h
  simp only [Derives.seq_assoc, Derives.token_seq_iff] at h
  simp only [Derives.seq_iff, Derives.token_iff] at h
  obtain ⟨_, _, heq, ht, name, _, rfl, hname, u, _, rfl, hu, semicolon, rfl, hsemicolon⟩ := h
  cases heq
  refine ⟨ht, .succ fun n hn => .expect hname ?_⟩
  simp only [List.length_append, List.length_cons] at hn hw
  rcases Derives.opt_iff.1 hu with rfl | hu
  · refine .acceptNone ?_ (.expect hsemicolon (.pure trivial))
    exact .cons hsemicolon (by simp)
  · obtain ⟨eq, e, rfl, heq, he⟩ := Derives.token_seq_iff.1 hu
    rw [List.length_cons] at hn hw
    refine .acceptSome heq ?_
    refine .bind (P := fun _ => True) (.map (ih.expression he (by omega) n (by omega))
      fun _ _ => trivial) ?_ fun _ _ => ?_
    · exact .cons hsemicolon Kind.endsExpression_semicolon
    · exact .expect hsemicolon (.pure trivial)

/-- The head of a `for` loop is read in front of what the body is read from. -/
theorem forHead (ih : CompleteBelow m) {F : Kind → Prop} {x v : List Token}
    (hx : Derives .forHead x) (hw : x.length ≤ m) {n : Nat} (hn : 16 * x.length ≤ n)
    (hbody : Accepts F (Reading.statement n) v fun _ => True) :
    ∃ t u, x = t :: u ∧ t.kind = .kwFor ∧
      Accepts F (Reading.forStatement (n + 1)) (u ++ v) fun _ => True := by
  unfold Rhs.forHead at hx
  simp only [Derives.seq_assoc, Derives.token_seq_iff] at hx
  simp only [Derives.seq_iff (a := _ ||| _), Derives.seq_iff (a := .opt _), Derives.token_iff,
    Derives.token_seq_iff] at hx
  obtain ⟨t, _, rfl, ht, l, _, rfl, hl, i, _, rfl, hi, test, _, rfl, htest, s, _, rfl, hs, step, _,
    rfl, hstep, r, rfl, hr⟩ := hx
  simp only [List.length_append, List.length_cons, List.length_nil] at hn hw
  have hrest : ∀ init : Option (Stmt Unit), Accepts F (do
      let test ← Reading.unlessAt .semicolon (Reading.assignment n)
      let _ ← Reading.expect .semicolon .forCondition
      let step ← Reading.unlessAt .rightParen (Reading.assignment n)
      let _ ← Reading.expect .rightParen .forEnd
      let body ← Reading.statement n
      return Stmt.forLoop init test step body) (test ++ s :: (step ++ r :: v)) fun _ => True := by
    intro init
    refine .bind (ih.expression? Kind.endsExpression_semicolon rfl htest (by omega) n (by omega))
      (.cons hs rfl) fun _ _ => .expect hs ?_
    refine .bind (ih.expression? Kind.endsExpression_rightParen rfl hstep (by omega) n (by omega))
      (.cons hr rfl) fun _ _ => .expect hr ?_
    exact .last hbody fun _ _ => .pure trivial
  refine ⟨t, _, rfl, ht, ?_⟩
  simp only [List.cons_append, List.append_assoc, List.nil_append]
  refine .expect hl ?_
  rcases Derives.alt_iff.1 hi with hi | hi
  · rcases Derives.alt_iff.1 hi with hi | hi
    · obtain ⟨t', i, rfl, -⟩ :=
        (Derives.sym (s := .declaration) (.left (.right hi))).begins_declaration
      obtain ⟨ht', hvar⟩ := ih.variableDeclared (F := Any) hi
        (by rw [List.length_cons] at hw; omega)
      rw [List.length_cons] at hn
      refine .peek ?_
      simp only [ht']
      refine .advance (.bind (P := fun _ => True) (.map (hvar n (by omega)) fun _ _ => trivial)
        (follows_any _ F) fun init _ => hrest init)
    · have hinit := ih.expressionStatement (F := Any) hi (by omega)
      obtain ⟨e, _, rfl, he, hsemicolon⟩ := Derives.seq_iff.1 (Derives.sym_iff.1 hi)
      obtain ⟨t', e, rfl, ht', -⟩ := (Derives.sym_iff.1 he).begins_assignment
      refine .peek ?_
      split
      · next h => exact absurd h (Kind.ne_of_opens ht' rfl)
      · next h => exact absurd h (Kind.ne_of_opens ht' rfl)
      · exact .bind (P := fun _ => True) (.map (hinit n (by omega)) fun _ _ => trivial)
          (follows_any _ F) fun init _ => hrest init
  · obtain ⟨t', rfl, ht'⟩ := Derives.token_iff.1 hi
    refine .peek ?_
    simp only [ht']
    exact .advance (hrest none)

/-- A condition in parentheses behind its keyword. -/
theorem condition (ih : CompleteBelow m) {kind : Kind} {x : List Token}
    (h : Derives (.token kind ++ .token .leftParen ++ .sym .expression ++ .token .rightParen) x)
    (hx : x.length ≤ m) : ∃ t l e r, (∀ v, x ++ v = t :: l :: (e ++ r :: v)) ∧ t.kind = kind ∧
      l.kind = .leftParen ∧ r.kind = .rightParen ∧ e.length + 3 = x.length ∧
      AcceptsOn 4 Kind.EndsExpression Reading.assignment e := by
  simp only [Derives.seq_assoc, Derives.token_seq_iff] at h
  simp only [Derives.seq_iff, Derives.token_iff] at h
  obtain ⟨t, _, rfl, ht, l, _, rfl, hl, e, _, rfl, he, r, rfl, hr⟩ := h
  simp only [List.length_cons, List.length_append, List.length_nil] at hx
  exact ⟨t, l, e, r, by simp, ht, hl, hr, by simp, ih.expression he (by omega)⟩

/-- A statement that does not end with another one. -/
theorem simple (ih : CompleteBelow m) {F : Kind → Prop} (h : Derives .simple w)
    (hw : w.length ≤ m) : AcceptsOn 2 F Reading.statement w := by
  refine .succ fun n hn => ?_
  rcases Derives.alt_iff.1 h with h | h
  · rcases Derives.alt_iff.1 h with h | h
    · rcases Derives.alt_iff.1 h with h | h
      · have hread := ih.expressionStatement (F := F) h hw n hn
        obtain ⟨e, _, rfl, he, -⟩ := Derives.seq_iff.1 (Derives.sym_iff.1 h)
        obtain ⟨t, e, rfl, ht, -⟩ := (Derives.sym_iff.1 he).begins_assignment
        refine .peek ?_
        split
        case h_7 => exact hread
        all_goals next h => exact absurd h (Kind.ne_of_opens ht rfl)
      · rw [Derives.sym_iff, Symbol.rule, Derives.seq_assoc, Derives.token_seq_iff] at h
        simp only [Derives.seq_iff, Derives.token_iff] at h
        obtain ⟨t, _, rfl, ht, e, _, rfl, he, semicolon, rfl, hsemicolon⟩ := h
        simp only [List.length_cons, List.length_append] at hn hw
        refine .peek ?_
        simp only [ht]
        refine .advance (.bind (ih.expression he (by omega) n (by omega)) ?_ fun _ _ => ?_)
        · exact .cons hsemicolon Kind.endsExpression_semicolon
        · exact .expect hsemicolon (.pure trivial)
    · rw [Derives.sym_iff, Symbol.rule, Derives.seq_assoc, Derives.token_seq_iff] at h
      simp only [Derives.seq_iff, Derives.token_iff] at h
      obtain ⟨t, _, rfl, ht, e, _, rfl, he, semicolon, rfl, hsemicolon⟩ := h
      simp only [List.length_cons, List.length_append] at hn hw
      refine .peek ?_
      simp only [ht]
      exact .advance (.bind (ih.expression? Kind.endsExpression_semicolon rfl he (by omega) n
        (by omega)) (.cons hsemicolon rfl) fun _ _ => .expect hsemicolon (.pure trivial))
  · rw [Derives.sym_iff, Symbol.rule, Derives.seq_assoc, Derives.token_seq_iff] at h
    simp only [Derives.seq_iff, Derives.token_iff, Derives.star_iff] at h
    obtain ⟨t, _, rfl, ht, _, _, rfl, ⟨ws, rfl, hws⟩, r, rfl, hr⟩ := h
    rw [List.length_cons] at hn
    simp only [List.length_cons, List.length_append] at hw
    refine .peek ?_
    simp only [ht]
    exact .advance (.last (ih.block hws hr (by omega) n (by omega)) fun _ _ => .pure trivial)

/-- The statement may be followed by an `else` unless it is open. -/
theorem statement (ih : CompleteBelow m) {isOpen : Bool} (h : Stated isOpen w)
    (hw : w.length ≤ m) :
    AcceptsOn 2 (Kind.EndsStatement isOpen) Reading.statement w := by
  induction h with
  | simple h => exact ih.simple h hw
  | @branch o x v hx hv ihv =>
    rw [List.length_append] at hw
    obtain ⟨t, l, e, r, hword, ht, hl, hr, hlen, he⟩ := ih.condition hx (by omega)
    refine .succ fun n hn => ?_
    rw [List.length_append] at hn
    rw [hword]
    refine .peek ?_
    simp only [ht]
    refine .advance (.expect hl (.bind (he n (by omega)) ?_ fun _ _ => .expect hr ?_))
    · exact .cons hr Kind.endsExpression_rightParen
    · have hyes := (ihv (by omega) n (by omega)).mono fun _ (hk : Kind.EndsStatement true _) _ =>
        hk rfl
      exact .last hyes fun _ _ => .acceptNone (fun _ hk => hk rfl) (.pure trivial)
  | @branches o x u v t' hx hu ht' hv ihu ihv =>
    simp only [List.length_append, List.length_cons] at hw
    obtain ⟨t, l, e, r, hword, ht, hl, hr, hlen, he⟩ := ih.condition hx (by omega)
    refine .succ fun n hn => ?_
    simp only [List.length_append, List.length_cons] at hn
    rw [hword]
    refine .peek ?_
    simp only [ht]
    refine .advance (.expect hl (.bind (he n (by omega)) ?_ fun _ _ => .expect hr ?_))
    · exact .cons hr Kind.endsExpression_rightParen
    · refine .bind (ihu (by omega) n (by omega)) ?_ fun _ _ => .acceptSome ht' ?_
      · exact .cons ht' fun h => absurd h nofun
      · exact .last (P := fun _ => True) (.map (ihv (by omega) n (by omega)) fun _ _ => trivial)
          fun _ _ => .pure trivial
  | @whileLoop o x v hx hv ihv =>
    rw [List.length_append] at hw
    obtain ⟨t, l, e, r, hword, ht, hl, hr, hlen, he⟩ := ih.condition hx (by omega)
    refine .succ fun n hn => ?_
    rw [List.length_append] at hn
    rw [hword]
    refine .peek ?_
    simp only [ht]
    refine .advance (.expect hl (.bind (he n (by omega)) ?_ fun _ _ => .expect hr ?_))
    · exact .cons hr Kind.endsExpression_rightParen
    · exact .last (ihv (by omega) n (by omega)) fun _ _ => .pure trivial
  | @forLoop o x v hx hv ihv =>
    have hpos := Derives.head_pos (.right hx)
    rw [List.length_append] at hw
    refine .succ fun n hn => ?_
    rw [List.length_append] at hn
    cases n with
    | zero => omega
    | succ n =>
      have hbody := ihv (by omega) n (by omega)
      obtain ⟨t, u, rfl, ht, hread⟩ := ih.forHead hx (by omega) (n := n) (by omega)
        (hbody.imp fun _ _ => trivial)
      refine .peek ?_
      simp only [ht]
      exact .advance hread

/-! ## Declarations -/

/-- A function or a method behind its keyword. -/
theorem named (ih : CompleteBelow m) {F : Kind → Prop} (role : Role)
    (h : Derives (.sym .function) w) (hw : w.length ≤ m) :
    AcceptsOn 1 F (Reading.named · role) w := by
  rw [Derives.sym_iff, Symbol.rule] at h
  simp only [Derives.seq_assoc, Derives.token_seq_iff] at h
  obtain ⟨name, _, rfl, hname, l, u, rfl, hl, h⟩ := h
  refine .succ fun n hn => .expect hname (.expect hl ?_)
  simp only [List.length_cons] at hn hw
  have hroutine := ih.routine (F := F) role (Derives.seq_assoc.2 h) (by omega) n (by omega)
  exact .last hroutine fun _ _ => .pure trivial

theorem methods (ih : CompleteBelow m) {ws : List (List Token)}
    (hws : ∀ u ∈ ws, Derives (.sym .function) u) (hw : ws.flatten.length ≤ m) :
    AcceptsOn 2 (· = .rightBrace) Reading.methods ws.flatten := by
  induction ws with
  | nil =>
    refine .succ fun n _ => .peekBehind fun t ht => ?_
    simp only [ht]
    exact .pure trivial
  | cons u ws ihws =>
    obtain ⟨hu, hws'⟩ := List.forall_mem_cons.1 hws
    have hread := ih.named (F := Any) .method hu
    rw [Derives.sym_iff, Symbol.rule] at hu
    simp only [Derives.seq_assoc, Derives.token_seq_iff] at hu
    obtain ⟨name, u, rfl, hname, -⟩ := hu
    rw [List.flatten_cons, List.length_append] at hw
    refine .succ fun n hn => ?_
    rw [List.flatten_cons] at hn ⊢
    rw [List.length_append] at hn
    have hpos : 0 < (name :: u).length := Nat.succ_pos _
    refine .peek ?_
    simp only [hname]
    refine .bind (hread (by omega) n (by omega)) (follows_any _ _) fun _ _ => ?_
    exact .last (ihws hws' (by omega) n (by omega)) fun _ _ => .pure trivial

/-- A class behind its keyword. -/
theorem classDeclared (ih : CompleteBelow m) {F : Kind → Prop} {t : Token}
    (h : Derives (.sym .classDecl) (t :: w)) (hw : w.length ≤ m) :
    t.kind = .kwClass ∧ AcceptsOn 1 F Reading.classDeclared w := by
  rw [Derives.sym_iff, Symbol.rule] at h
  simp only [Derives.seq_assoc, Derives.token_seq_iff] at h
  simp only [Derives.seq_iff, Derives.token_iff, Derives.star_iff] at h
  obtain ⟨_, _, heq, ht, name, _, rfl, hname, u, _, rfl, hu, _, _, rfl, ⟨l, rfl, hl⟩, _, _, rfl,
    ⟨ws, rfl, hws⟩, r, rfl, hr⟩ := h
  cases heq
  refine ⟨ht, .succ fun n hn => .expect hname ?_⟩
  simp only [List.length_append, List.length_cons, List.length_nil] at hn hw
  have hbody : ∀ superclass : Option Token, Accepts F (do
      let _ ← Reading.expect .leftBrace .classBrace
      let methods ← Reading.methods n
      let _ ← Reading.expect .rightBrace .classEnd
      return Stmt.classDecl name (superclass.map (⟨(), ·⟩)) methods)
        (l :: (ws.flatten ++ [r])) fun _ => True :=
    fun superclass => .expect hl (.bind (ih.methods hws (by omega) n (by omega)) (.cons hr rfl)
      fun _ _ => .expect hr (.pure trivial))
  rcases Derives.opt_iff.1 hu with rfl | hu
  · exact .acceptNone (.cons hl (by simp)) (hbody none)
  · obtain ⟨less, _, rfl, hless, hu⟩ := Derives.token_seq_iff.1 hu
    obtain ⟨superclass, rfl, hsuper⟩ := Derives.token_iff.1 hu
    refine .acceptSome hless ?_
    exact .bind (P := fun _ => True) (.map (.token hsuper) fun _ _ => trivial) (follows_any _ F)
      fun superclass _ => hbody superclass

theorem declared (ih : CompleteBelow m) (h : Derives (.sym .declaration) w)
    (hw : w.length ≤ m) : AcceptsOn 3 (· ≠ .kwElse) Reading.declared w := by
  have hshape := Derives.sym_iff.1 h
  simp only [Symbol.rule, Derives.alt_iff, or_assoc] at hshape
  obtain ⟨t, u, rfl, -⟩ := h.begins_declaration
  rw [List.length_cons] at hw
  rcases hshape with h | h | h | h
  · obtain ⟨ht, hread⟩ := ih.classDeclared h (by omega)
    refine .succ fun n hn => .peek ?_
    rw [List.length_cons] at hn
    simp only [ht]
    exact .advance (hread n (by omega))
  · obtain ⟨_, _, heq, ht, h⟩ := Derives.token_seq_iff.1 (Derives.sym_iff.1 h)
    cases heq
    have hread := ih.named (F := (· ≠ .kwElse)) .function h (by omega)
    rw [Derives.sym_iff, Symbol.rule] at h
    simp only [Derives.seq_assoc, Derives.token_seq_iff] at h
    obtain ⟨name, v, rfl, hname, -⟩ := h
    refine .succ fun n hn => .peek ?_
    rw [List.length_cons] at hn
    simp only [ht]
    refine .peekSecond (fun _ => ?_) fun hne => absurd hname hne
    exact .advance (.last (hread n (by omega)) fun _ _ => .pure trivial)
  · obtain ⟨ht, hread⟩ := ih.variableDeclared h (by omega)
    refine .succ fun n hn => .peek ?_
    rw [List.length_cons] at hn
    simp only [ht]
    exact .advance (hread n (by omega))
  · obtain ⟨o, hstated⟩ := h.stated
    obtain ⟨_, _, heq, ht, hfun⟩ := h.begins_statement
    cases heq
    refine .succ fun n hn => ?_
    have hread := (ih.statement hstated hw n hn).mono fun _ (hk : _ ≠ Kind.kwElse) _ => hk
    refine .peek ?_
    split
    · next h => exact absurd h (Kind.ne_of_opens ht rfl)
    · next h =>
      obtain ⟨t', u, rfl, ht'⟩ := hfun h
      refine .peekSecond (fun hname => ?_) fun _ => hread
      rw [ht'] at hname
      cases hname
    · next h => exact absurd h (Kind.ne_of_opens ht rfl)
    · exact hread

theorem declaration (ih : CompleteBelow m) (h : Derives (.sym .declaration) w)
    (hw : w.length ≤ m) : AcceptsOn 4 (· ≠ .kwElse) Reading.declaration w := by
  refine .succ fun n hn c hc hp => ?_
  obtain ⟨s, hs, -⟩ := ih.declared h hw n hn c hc hp
  refine ⟨some s, ?_, trivial⟩
  unfold Reading.declaration
  rw [hs]

end CompleteBelow

/-- **What can be derived is read**, by induction on the number of tokens. -/
theorem completeAt (w : List Token) : CompleteAt w := by
  induction hlen : w.length using Nat.strongRecOn generalizing w with
  | ind m ih =>
    have hbelow : CompleteBelow m := fun u hu => ih u.length hu u rfl
    exact ⟨fun h => hbelow.assignment h (Nat.le_of_eq hlen),
      fun h => hbelow.declaration h (Nat.le_of_eq hlen)⟩

end Reading

end LoxLang
