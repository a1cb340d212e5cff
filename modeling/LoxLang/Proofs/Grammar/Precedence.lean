import LoxLang.Proofs.Grammar.Rules
import LoxLang.Tree.Read
import Mathlib.Data.Nat.Init

/-!
# Operators and operands

The grammar has one symbol for each precedence of binary operators, and a reader has one loop for
all of them. Both see a chain: a first operand and then operators with their operands. What stands
for the symbol of a level is a chain of operators that bind at least as tight
(`derives_ofLevel_iff`). The section at the end tells which tokens an expression can begin with.
-/

namespace LoxLang

/-- The symbol whose operators have the given precedence; operands behind the tightest ones are
unary. -/
def Symbol.ofLevel : Nat → Symbol
  | 0 => .logicOr
  | 1 => .logicAnd
  | 2 => .equality
  | 3 => .comparison
  | 4 => .term
  | 5 => .factor
  | _ => .unary

/-- The operators of a precedence. -/
def Rhs.operator : Nat → Rhs
  | 0 => .token .kwOr
  | 1 => .token .kwAnd
  | 2 => .token .bangEqual ||| .token .equalEqual
  | 3 => .token .greater ||| .token .greaterEqual ||| .token .less ||| .token .lessEqual
  | 4 => .token .minus ||| .token .plus
  | _ => .token .slash ||| .token .star

theorem Symbol.rule_ofLevel {l : Nat} (hl : l < 6) :
    (ofLevel l).rule = .joined (ofLevel (l + 1)) (.operator l) := by
  match l, hl with
  | 0, _ | 1, _ | 2, _ | 3, _ | 4, _ | 5, _ => rfl

/-- No operator binds tighter than the last level. -/
theorem Kind.level?_lt {kind : Kind} {l : Nat} (h : kind.level? = some l) : l < 6 := by
  unfold Kind.level? at h
  split at h <;> cases h <;> decide

/-- The operators of a level are those the reader gives that level. -/
theorem derives_operator_iff {l : Nat} (hl : l < 6) {w : List Token} :
    Derives (.operator l) w ↔ ∃ t, w = [t] ∧ t.kind.level? = some l := by
  have hkind : ∀ t : Token, Derives (.operator l) [t] ↔ t.kind.level? = some l := by
    intro t
    generalize hk : t.kind = kind
    match l, hl with
    | 0, _ | 1, _ | 2, _ | 3, _ | 4, _ | 5, _ =>
      cases kind <;> simp [Rhs.operator, Derives.alt_iff, Derives.token_iff, Kind.level?, hk]
  have hone : Derives (.operator l) w → ∃ t, w = [t] := by
    match l, hl with
    | 0, _ | 1, _ | 2, _ | 3, _ | 4, _ | 5, _ =>
      simp only [Rhs.operator, Derives.alt_iff, Derives.token_iff]
      tauto
  constructor
  · intro h
    obtain ⟨t, rfl⟩ := hone h
    exact ⟨t, rfl, (hkind t).1 h⟩
  · rintro ⟨t, rfl, h⟩
    exact (hkind t).2 h

/-- Operators with the operands behind them. -/
abbrev Chain := List (Token × List Token)

namespace Chain

/-- The tokens of a chain. -/
def word (ts : Chain) : List Token := ts.flatMap fun p => p.1 :: p.2

@[simp] theorem word_nil : word [] = [] := rfl

@[simp] theorem word_cons (op : Token) (u : List Token) (ts : Chain) :
    word ((op, u) :: ts) = op :: (u ++ ts.word) := rfl

theorem word_append (ts ts' : Chain) : word (ts ++ ts') = ts.word ++ ts'.word :=
  List.flatMap_append

/-- The operators have the level `l` or bind tighter, and their operands are unary. -/
def Binds (l : Nat) (ts : Chain) : Prop :=
  ∀ p ∈ ts, (∃ k, p.1.kind.level? = some k ∧ l ≤ k) ∧ Derives (.sym .unary) p.2

/-- The operators have the level `l`, and their operands stand for the symbol of the next. -/
def Joins (l : Nat) (ts : Chain) : Prop :=
  ∀ p ∈ ts, p.1.kind.level? = some l ∧ Derives (.sym (.ofLevel (l + 1))) p.2

end Chain

/-- What stands for the symbol of a level, by its rule. -/
theorem derives_ofLevel_iff_joins {l : Nat} (hl : l < 6) {w : List Token} :
    Derives (.sym (.ofLevel l)) w ↔ ∃ (u : List Token) (ts : Chain), w = u ++ ts.word ∧
      Derives (.sym (.ofLevel (l + 1))) u ∧ ts.Joins l := by
  rw [Derives.sym_iff, Symbol.rule_ofLevel hl, Rhs.joined, Derives.seq_iff]
  constructor
  · rintro ⟨u, v, rfl, hu, hv⟩
    obtain ⟨ws, rfl, hws⟩ := Derives.star_iff.1 hv
    suffices hts : ∃ ts : Chain, ws.flatten = ts.word ∧ ts.Joins l by
      obtain ⟨ts, hword, hts⟩ := hts
      exact ⟨u, ts, by rw [hword], hu, hts⟩
    clear hv
    induction ws with
    | nil => exact ⟨[], rfl, nofun⟩
    | cons x ws ih =>
      obtain ⟨hx, hrest⟩ := List.forall_mem_cons.1 hws
      obtain ⟨o, y, rfl, ho, hy⟩ := Derives.seq_iff.1 hx
      obtain ⟨op, rfl, hop⟩ := (derives_operator_iff hl).1 ho
      obtain ⟨ts, hword, hts⟩ := ih hrest
      refine ⟨(op, y) :: ts, ?_, List.forall_mem_cons.2 ⟨⟨hop, hy⟩, hts⟩⟩
      rw [List.flatten_cons, hword]
      rfl
  · rintro ⟨u, ts, rfl, hu, hts⟩
    refine ⟨u, ts.word, rfl, hu, Derives.star_iff.2 ⟨ts.map fun p => p.1 :: p.2, ?_, ?_⟩⟩
    · exact List.flatMap_def
    · intro x hx
      obtain ⟨p, hp, rfl⟩ := List.mem_map.1 hx
      obtain ⟨hop, hy⟩ := hts p hp
      exact .seq (u := [p.1]) ((derives_operator_iff hl).2 ⟨p.1, rfl, hop⟩) hy

theorem Chain.Binds.append {l : Nat} {ts ts' : Chain} (h : ts.Binds l) (h' : ts'.Binds l) :
    Chain.Binds l (ts ++ ts') :=
  fun p hp => (List.mem_append.1 hp).elim (h p) (h' p)

theorem Chain.Binds.mono {l k : Nat} {ts : Chain} (h : ts.Binds k) (hlk : l ≤ k) : ts.Binds l :=
  fun p hp => ⟨(h p hp).1.imp fun _ ⟨hop, hk⟩ => ⟨hop, Nat.le_trans hlk hk⟩, (h p hp).2⟩

/-- A chain splits in front of its loosest operators. -/
theorem Chain.Binds.split {l : Nat}
    (tighter : ∀ {u : List Token} {ts : Chain}, Derives (.sym .unary) u → ts.Binds (l + 1) →
      Derives (.sym (.ofLevel (l + 1))) (u ++ ts.word))
    {ts : Chain} (h : ts.Binds l) : ∃ ts₀ gs : Chain, ts.word = ts₀.word ++ gs.word ∧
      ts₀.Binds (l + 1) ∧ gs.Joins l := by
  induction ts with
  | nil => exact ⟨[], [], rfl, nofun, nofun⟩
  | cons p ts ih =>
    obtain ⟨⟨⟨k, hop, hk⟩, hp⟩, hts⟩ := List.forall_mem_cons.1 h
    obtain ⟨ts₀, gs, hword, hts₀, hgs⟩ := ih hts
    obtain ⟨op, x⟩ := p
    rcases Nat.eq_or_lt_of_le hk with rfl | hk
    · refine ⟨[], (op, x ++ ts₀.word) :: gs, ?_, nofun, ?_⟩
      · rw [word_cons, hword, word_nil, word_cons, List.nil_append, List.append_assoc]
      · exact List.forall_mem_cons.2 ⟨⟨hop, tighter hp hts₀⟩, hgs⟩
    · refine ⟨(op, x) :: ts₀, gs, ?_, List.forall_mem_cons.2 ⟨⟨⟨k, hop, hk⟩, hp⟩, hts₀⟩, hgs⟩
      rw [word_cons, hword, word_cons, List.cons_append, List.append_assoc]

/-- A chain splits behind its first operators that are tighter than `k`. -/
theorem Chain.Binds.cut {l : Nat} {ts : Chain} (h : ts.Binds l) (k : Nat) :
    ∃ ts₁ ts₂ : Chain, ts = ts₁ ++ ts₂ ∧ ts₁.Binds (k + 1) ∧ ts₂.Binds l ∧
      ∀ p ∈ ts₂.head?, ∃ j, p.1.kind.level? = some j ∧ j ≤ k := by
  induction ts with
  | nil => exact ⟨[], [], rfl, nofun, nofun, nofun⟩
  | cons p ts ih =>
    obtain ⟨⟨⟨j, hop, hj⟩, hp⟩, hts⟩ := List.forall_mem_cons.1 h
    rcases Nat.lt_or_ge k j with hkj | hjk
    · obtain ⟨ts₁, ts₂, rfl, h₁, h₂, hhead⟩ := ih hts
      exact ⟨p :: ts₁, ts₂, rfl, List.forall_mem_cons.2 ⟨⟨⟨j, hop, hkj⟩, hp⟩, h₁⟩, h₂, hhead⟩
    · refine ⟨[], p :: ts, rfl, nofun, h, fun q hq => ?_⟩
      cases hq
      exact ⟨j, hop, hjk⟩

/-- **A level of precedence is a chain of operators.** -/
theorem derives_ofLevel_iff {l : Nat} (hl : l ≤ 6) {w : List Token} :
    Derives (.sym (.ofLevel l)) w ↔ ∃ (u : List Token) (ts : Chain), w = u ++ ts.word ∧
      Derives (.sym .unary) u ∧ ts.Binds l := by
  induction hl using Nat.decreasingInduction generalizing w with
  | self =>
    constructor
    · exact fun h => ⟨w, [], (List.append_nil w).symm, h, nofun⟩
    · rintro ⟨u, ts, rfl, hu, hts⟩
      cases ts with
      | nil => rwa [Chain.word_nil, List.append_nil]
      | cons p ts =>
        obtain ⟨⟨k, hop, hk⟩, -⟩ := hts p List.mem_cons_self
        exact absurd (Kind.level?_lt hop) (Nat.not_lt.2 hk)
  | of_succ l hl ih =>
    rw [derives_ofLevel_iff_joins hl]
    constructor
    · rintro ⟨u, gs, rfl, hu, hgs⟩
      obtain ⟨u, ts, rfl, hu, hts⟩ := ih.1 hu
      suffices hchain : ∃ ts' : Chain, gs.word = ts'.word ∧ ts'.Binds l by
        obtain ⟨ts', hword, hts'⟩ := hchain
        refine ⟨u, ts ++ ts', ?_, hu, (hts.mono l.le_succ).append hts'⟩
        rw [Chain.word_append, hword, List.append_assoc]
      clear hu hts
      induction gs with
      | nil => exact ⟨[], rfl, nofun⟩
      | cons p gs ihgs =>
        obtain ⟨⟨hop, hp⟩, hgs⟩ := List.forall_mem_cons.1 hgs
        obtain ⟨x, xs, hx, hunary, hxs⟩ := ih.1 hp
        obtain ⟨ts', hword, hts'⟩ := ihgs hgs
        refine ⟨(p.1, x) :: (xs ++ ts'), ?_, ?_⟩
        · change p.1 :: (p.2 ++ Chain.word gs) = p.1 :: (x ++ Chain.word (xs ++ ts'))
          rw [Chain.word_append, hword, hx, List.append_assoc]
        · exact List.forall_mem_cons.2
            ⟨⟨⟨l, hop, Nat.le_refl l⟩, hunary⟩, (hxs.mono l.le_succ).append hts'⟩
    · rintro ⟨u, ts, rfl, hu, hts⟩
      obtain ⟨ts₀, gs, hword, hts₀, hgs⟩ :=
        hts.split fun hu hts => ih.2 ⟨_, _, rfl, hu, hts⟩
      exact ⟨u ++ ts₀.word, gs, by rw [hword, List.append_assoc], ih.2 ⟨u, ts₀, rfl, hu, hts₀⟩, hgs⟩

/-! ## First tokens -/

/-- The kinds of tokens an operand can begin with that has no operator in front. -/
def Kind.opensOperand : Kind → Bool
  | .number _ | .string _ | .kwTrue | .kwFalse | .kwNil | .kwThis | .identifier | .leftParen
  | .kwSuper | .kwFun => true
  | _ => false

/-- The kinds of tokens an expression can begin with. -/
def Kind.opensExpression : Kind → Bool
  | .bang | .minus => true
  | kind => kind.opensOperand

/-- The kinds of tokens a statement can begin with that is no declaration. -/
def Kind.opensPlain : Kind → Bool
  | .kwFor | .kwIf | .kwWhile | .kwPrint | .kwReturn | .leftBrace => true
  | kind => kind.opensExpression

/-- The kinds of tokens a declaration or a statement can begin with. -/
def Kind.opensDeclaration : Kind → Bool
  | .kwClass | .kwVar => true
  | kind => kind.opensPlain

theorem Kind.opensExpression_of_operand {kind : Kind} (h : kind.opensOperand) :
    kind.opensExpression := by
  unfold opensExpression
  split <;> first | rfl | exact h

theorem Kind.opensPlain_of_expression {kind : Kind} (h : kind.opensExpression) :
    kind.opensPlain := by
  unfold opensPlain
  split <;> first | rfl | exact h

theorem Kind.opensDeclaration_of_plain {kind : Kind} (h : kind.opensPlain) :
    kind.opensDeclaration := by
  unfold opensDeclaration
  split <;> first | rfl | exact h

/-- A kind that can stand in front differs from one that cannot. -/
theorem Kind.ne_of_opens {opens : Kind → Bool} {kind kind' : Kind} (h : opens kind)
    (h' : opens kind' = false) : kind ≠ kind' := by
  rintro rfl
  rw [h'] at h
  cases h

/-- The tokens begin with one of the given kinds: if with the word `fun`, then with a parenthesis
behind it. -/
def Begins (opens : Kind → Bool) (w : List Token) : Prop :=
  ∃ t u, w = t :: u ∧ opens t.kind ∧
    (t.kind = .kwFun → ∃ t' u', u = t' :: u' ∧ t'.kind = .leftParen)

namespace Begins

variable {opens opens' : Kind → Bool} {w : List Token}

theorem append (h : Begins opens w) (v : List Token) : Begins opens (w ++ v) := by
  obtain ⟨t, u, rfl, ht, hfun⟩ := h
  refine ⟨t, u ++ v, rfl, ht, fun hk => ?_⟩
  obtain ⟨t', u', rfl, ht'⟩ := hfun hk
  exact ⟨t', u' ++ v, rfl, ht'⟩

theorem mono (h : Begins opens w) (himp : ∀ kind, opens kind → opens' kind) : Begins opens' w := by
  obtain ⟨t, u, rfl, ht, hfun⟩ := h
  exact ⟨t, u, rfl, himp _ ht, hfun⟩

/-- The first token, where it is not the word `fun`. -/
theorem token {t : Token} {kind : Kind} (ht : t.kind = kind) (hopens : opens kind)
    (hfun : kind ≠ .kwFun) (u : List Token) : Begins opens (t :: u) :=
  ⟨t, u, rfl, by rwa [ht], fun h => absurd (ht.symm.trans h) hfun⟩

end Begins

theorem Derives.begins_primary {w : List Token} (h : Derives (.sym .primary) w) :
    Begins Kind.opensOperand w := by
  rcases derives_primary_iff.1 h with h | h | h | h | h | h | h | h | h | h
  · cases h with
    | number ht => exact .token ht rfl nofun []
  · cases h with
    | string ht => exact .token ht rfl nofun []
  iterate 5
    obtain ⟨t, rfl, ht⟩ := token_iff.1 h
    exact .token ht rfl nofun []
  iterate 2
    obtain ⟨t, u, rfl, ht, -⟩ := token_seq_iff.1 (seq_assoc.1 h)
    exact .token ht rfl nofun u
  · simp only [seq_assoc, token_seq_iff] at h
    obtain ⟨t, _, rfl, ht, p, u, rfl, hp, -⟩ := h
    exact ⟨t, p :: u, rfl, by rw [ht]; rfl, fun _ => ⟨p, u, rfl, hp⟩⟩

theorem Derives.begins_call {w : List Token} (h : Derives (.sym .call) w) :
    Begins Kind.opensOperand w := by
  obtain ⟨u, v, rfl, hu, -⟩ := seq_iff.1 (sym_iff.1 h)
  exact hu.begins_primary.append v

theorem Derives.begins_unary {w : List Token} (h : Derives (.sym .unary) w) :
    Begins Kind.opensExpression w := by
  rcases alt_iff.1 (sym_iff.1 h) with h | h
  · obtain ⟨_, v, rfl, hop, -⟩ := seq_iff.1 h
    rcases alt_iff.1 hop with h | h
    all_goals
      obtain ⟨t, rfl, ht⟩ := token_iff.1 h
      exact .token ht rfl nofun v
  · exact h.begins_call.mono fun _ => Kind.opensExpression_of_operand

/-- What an expression begins with. -/
theorem Derives.begins_assignment {w : List Token} (h : Derives (.sym .assignment) w) :
    Begins Kind.opensExpression w := by
  rcases alt_iff.1 (sym_iff.1 h) with h | h
  · simp only [seq_assoc] at h
    obtain ⟨u, v, rfl, htarget, hv⟩ := seq_iff.1 h
    rcases opt_iff.1 htarget with rfl | hu
    · obtain ⟨name, v, rfl, hname, -⟩ := token_seq_iff.1 hv
      exact .token hname rfl nofun v
    · obtain ⟨u, d, rfl, hu, -⟩ := seq_iff.1 hu
      exact ((hu.begins_call.mono fun _ => Kind.opensExpression_of_operand).append d).append v
  · obtain ⟨u, ts, rfl, hu, -⟩ := (derives_ofLevel_iff (Nat.zero_le 6)).1 h
    exact hu.begins_unary.append _

/-- The first token of what begins with a token. -/
theorem Derives.begins_token {opens : Kind → Bool} {kind : Kind} {b : Rhs} {w : List Token}
    (h : Derives (.token kind ++ b) w) (hopens : opens kind) (hfun : kind ≠ .kwFun) :
    Begins opens w := by
  obtain ⟨t, u, rfl, ht, -⟩ := token_seq_iff.1 h
  exact .token ht hopens hfun u

/-- What a statement begins with that is no declaration. -/
theorem Derives.begins_statement {w : List Token} (h : Derives (.sym .statement) w) :
    Begins Kind.opensPlain w := by
  rcases derives_statement_iff.1 h with h | h | h | h | h | h | h
  · obtain ⟨u, v, rfl, hu, -⟩ := seq_iff.1 (sym_iff.1 h)
    exact ((sym_iff.1 hu).begins_assignment.mono fun _ => Kind.opensPlain_of_expression).append v
  all_goals
    rw [sym_iff, Symbol.rule] at h
    simp only [seq_assoc] at h
    exact h.begins_token rfl (by simp)

/-- What a declaration or a statement begins with. -/
theorem Derives.begins_declaration {w : List Token} (h : Derives (.sym .declaration) w) :
    ∃ t u, w = t :: u ∧ t.kind.opensDeclaration := by
  rw [sym_iff, Symbol.rule] at h
  simp only [alt_iff, or_assoc] at h
  rcases h with h | h | h | h
  · rw [sym_iff, Symbol.rule] at h
    simp only [seq_assoc, token_seq_iff] at h
    obtain ⟨t, u, rfl, ht, -⟩ := h
    exact ⟨t, u, rfl, by rw [ht]; rfl⟩
  · obtain ⟨t, u, rfl, ht, -⟩ := token_seq_iff.1 (sym_iff.1 h)
    exact ⟨t, u, rfl, by rw [ht]; rfl⟩
  · rw [sym_iff, Symbol.rule] at h
    simp only [seq_assoc, token_seq_iff] at h
    obtain ⟨t, u, rfl, ht, -⟩ := h
    exact ⟨t, u, rfl, by rw [ht]; rfl⟩
  · obtain ⟨t, u, rfl, ht, -⟩ := h.begins_statement
    exact ⟨t, u, rfl, Kind.opensDeclaration_of_plain ht⟩

end LoxLang
