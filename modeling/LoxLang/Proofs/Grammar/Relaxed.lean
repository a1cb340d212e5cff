import Mathlib.Computability.Language
import Mathlib.Order.CompletePartialOrder
import LoxLang.Proofs.Grammar.Completeness

/-!
# The relaxed grammar, as languages

Which expressions may stand in front of an assignment cannot be seen at the token that makes it one,
and neither can the limit of a list. Without these two rules the grammar is predictive; whatever the
grammar derives, the relaxed one does (`Derives.relaxed`). What its right-hand sides stand for are
languages of tokens, which form a Kleene algebra. A reader decides between alternatives by the kind
of the next token: two alternatives never begin with the same kind (`Fronts`), but for functions, of
which the declared ones have a name and the others none (`Opening`).
-/

open scoped Computability

namespace LoxLang

open Rhs in
/-- The rules, but with any operators and operands in front of an assignment, and with lists of any
length. -/
def Symbol.relaxedRule : Symbol → Rhs
  | assignment => sym logicOr ++ opt (token .equal ++ sym assignment)
  | parameters => token .identifier ++ star (token .comma ++ token .identifier)
  | arguments => sym expression ++ star (token .comma ++ sym expression)
  | s => s.rule

/-- The tokens that a right-hand side stands for under the given rules. -/
inductive DerivesBy (rule : Symbol → Rhs) : Rhs → List Token → Prop
  | token {kind : Kind} {t : Token} : t.kind = kind → DerivesBy rule (.token kind) [t]
  | number {t : Token} {value : Float} : t.kind = .number value → DerivesBy rule .number [t]
  | string {t : Token} {contents : String} : t.kind = .string contents → DerivesBy rule .string [t]
  | sym {s : Symbol} {w : List Token} : DerivesBy rule (rule s) w → DerivesBy rule (.sym s) w
  | seq {a b : Rhs} {u v : List Token} : DerivesBy rule a u → DerivesBy rule b v →
      DerivesBy rule (a ++ b) (u ++ v)
  | left {a b : Rhs} {w : List Token} : DerivesBy rule a w → DerivesBy rule (a ||| b) w
  | right {a b : Rhs} {w : List Token} : DerivesBy rule b w → DerivesBy rule (a ||| b) w
  | optNone {a : Rhs} : DerivesBy rule (.opt a) []
  | optSome {a : Rhs} {w : List Token} : DerivesBy rule a w → DerivesBy rule (.opt a) w
  | starNil {a : Rhs} : DerivesBy rule (.star a) []
  | starCons {a : Rhs} {u v : List Token} : DerivesBy rule a u → DerivesBy rule (.star a) v →
      DerivesBy rule (.star a) (u ++ v)
  | upToNil {n : Nat} {a : Rhs} : DerivesBy rule (.upTo n a) []
  | upToCons {n : Nat} {a : Rhs} {u v : List Token} : DerivesBy rule a u →
      DerivesBy rule (.upTo n a) v → DerivesBy rule (.upTo (n + 1) a) (u ++ v)

/-! ## Languages -/

/-- What a right-hand side stands for under the relaxed rules. -/
def Rhs.language (r : Rhs) : Language Token := {w | DerivesBy Symbol.relaxedRule r w}

/-- What a symbol stands for under the relaxed rules. -/
def Symbol.language (s : Symbol) : Language Token := (Rhs.sym s).language

/-- The words of a single token whose kind has the property. -/
def oneOf (S : Kind → Prop) : Language Token := {w | ∃ t : Token, w = [t] ∧ S t.kind}

/-- The words of a single token of the kind. -/
def only (kind : Kind) : Language Token := oneOf (· = kind)

namespace Rhs

variable {a b : Rhs}

@[simp] theorem language_seq : (a ++ b).language = a.language * b.language := by
  ext w
  rw [Language.mem_mul]
  constructor
  · intro h
    cases h with
    | seq hu hv => exact ⟨_, hu, _, hv, rfl⟩
  · rintro ⟨u, hu, v, hv, rfl⟩
    exact .seq hu hv

@[simp] theorem language_alt : (a ||| b).language = a.language + b.language := by
  ext w
  rw [Language.mem_add]
  constructor
  · intro h
    cases h with
    | left h => exact .inl h
    | right h => exact .inr h
  · rintro (h | h)
    · exact .left h
    · exact .right h

@[simp] theorem language_opt : (opt a).language = 1 + a.language := by
  ext w
  rw [Language.mem_add, Language.mem_one]
  constructor
  · intro h
    cases h with
    | optNone => exact .inl rfl
    | optSome h => exact .inr h
  · rintro (rfl | h)
    · exact .optNone
    · exact .optSome h

@[simp] theorem language_star : (star a).language = a.language∗ := by
  ext w
  rw [Language.mem_kstar]
  constructor
  · intro h
    generalize hr : star a = r at h
    induction h with
    | starNil => exact ⟨[], rfl, nofun⟩
    | @starCons _ u v hu _ _ ih =>
      cases hr
      obtain ⟨ws, rfl, hws⟩ := ih rfl
      exact ⟨u :: ws, rfl, List.forall_mem_cons.2 ⟨hu, hws⟩⟩
    | _ => cases hr
  · rintro ⟨ws, rfl, hws⟩
    induction ws with
    | nil => exact .starNil
    | cons u ws ih =>
      obtain ⟨hu, hws⟩ := List.forall_mem_cons.1 hws
      exact .starCons hu (ih hws)

@[simp] theorem language_sym {s : Symbol} : (sym s).language = s.language := rfl

@[simp] theorem language_token {kind : Kind} : (token kind).language = only kind := by
  ext w
  constructor
  · intro h
    cases h with
    | token h => exact ⟨_, rfl, h⟩
  · rintro ⟨t, rfl, h⟩
    exact .token h

@[simp] theorem language_number :
    number.language = oneOf fun kind => ∃ value, kind = .number value := by
  ext w
  constructor
  · intro h
    cases h with
    | number h => exact ⟨_, rfl, _, h⟩
  · rintro ⟨t, rfl, value, h⟩
    exact .number h

@[simp] theorem language_string :
    string.language = oneOf fun kind => ∃ contents, kind = .string contents := by
  ext w
  constructor
  · intro h
    cases h with
    | string h => exact ⟨_, rfl, _, h⟩
  · rintro ⟨t, rfl, contents, h⟩
    exact .string h

end Rhs

theorem Symbol.language_eq (s : Symbol) : s.language = s.relaxedRule.language := by
  ext w
  constructor
  · intro h
    cases h with
    | sym h => exact h
  · exact .sym

/-! ## The rules, as equations -/

namespace Symbol

/-- What the rule of a symbol makes of the languages of the other symbols. -/
def equation : Symbol → Language Token
  | program => declaration.language∗
  | declaration =>
    classDecl.language + (funDecl.language + (varDecl.language + statement.language))
  | classDecl => only .kwClass * (only .identifier * ((1 + only .less * only .identifier) *
      (only .leftBrace * (function.language∗ * only .rightBrace))))
  | funDecl => only .kwFun * function.language
  | function => only .identifier * (only .leftParen * ((1 + parameters.language) *
      (only .rightParen * block.language)))
  | varDecl => only .kwVar * (only .identifier * ((1 + only .equal * expression.language) *
      only .semicolon))
  | statement => exprStmt.language + (forStmt.language + (ifStmt.language + (printStmt.language +
      (returnStmt.language + (whileStmt.language + block.language)))))
  | exprStmt => expression.language * only .semicolon
  | forStmt => only .kwFor * (only .leftParen * ((varDecl.language + (exprStmt.language +
      only .semicolon)) * ((1 + expression.language) * (only .semicolon *
        ((1 + expression.language) * (only .rightParen * statement.language))))))
  | ifStmt => only .kwIf * (only .leftParen * (expression.language * (only .rightParen *
      (statement.language * (1 + only .kwElse * statement.language)))))
  | printStmt => only .kwPrint * (expression.language * only .semicolon)
  | returnStmt => only .kwReturn * ((1 + expression.language) * only .semicolon)
  | whileStmt => only .kwWhile * (only .leftParen * (expression.language * (only .rightParen *
      statement.language)))
  | block => only .leftBrace * (declaration.language∗ * only .rightBrace)
  | expression => assignment.language
  | assignment => logicOr.language * (1 + only .equal * assignment.language)
  | logicOr => logicAnd.language * (only .kwOr * logicAnd.language)∗
  | logicAnd => equality.language * (only .kwAnd * equality.language)∗
  | equality =>
    comparison.language * ((only .bangEqual + only .equalEqual) * comparison.language)∗
  | comparison => term.language * ((only .greater + (only .greaterEqual + (only .less +
      only .lessEqual))) * term.language)∗
  | term => factor.language * ((only .minus + only .plus) * factor.language)∗
  | factor => unary.language * ((only .slash + only .star) * unary.language)∗
  | unary => (only .bang + only .minus) * unary.language + call.language
  | call => primary.language * Rhs.suffix.language∗
  | primary => Rhs.number.language + (Rhs.string.language + (only .kwTrue + (only .kwFalse +
      (only .kwNil + (only .kwThis + (only .identifier +
        (only .leftParen * (expression.language * only .rightParen) +
          (only .kwSuper * (only .dot * only .identifier) +
            only .kwFun * (only .leftParen * ((1 + parameters.language) *
              (only .rightParen * block.language)))))))))))
  | parameters => only .identifier * (only .comma * only .identifier)∗
  | arguments => expression.language * (only .comma * expression.language)∗

/-- **The languages of the symbols solve the rules, read as equations.** -/
theorem language_eq_equation (s : Symbol) : s.language = s.equation := by
  rw [language_eq]
  cases s <;> simp [relaxedRule, rule, equation, Rhs.joined, mul_assoc, sup_assoc]

end Symbol

theorem Symbol.language_unary : unary.language = only .bang * unary.language +
    (only .minus * unary.language + call.language) := by
  conv_lhs => rw [language_eq_equation]
  rw [equation, add_mul, add_assoc]

theorem Symbol.language_expression : expression.language = assignment.language :=
  language_eq_equation expression

/-- What a symbol stands for, behind its first token. -/
def Symbol.behind (s : Symbol) : Language Token := {w | ∃ t, t :: w ∈ s.language}

/-- A symbol whose rule begins with a token. -/
theorem Symbol.behind_eq {s : Symbol} {kind : Kind} {M : Language Token}
    (h : s.equation = only kind * M) : s.behind = M := by
  ext w
  constructor
  · rintro ⟨t, hw⟩
    rw [language_eq_equation, h] at hw
    obtain ⟨_, ⟨t', rfl, -⟩, v, hv, heq⟩ := hw
    cases heq
    exact hv
  · intro hw
    refine ⟨⟨kind, "", 0⟩, ?_⟩
    rw [language_eq_equation, h]
    exact ⟨_, ⟨_, rfl, rfl⟩, w, hw, rfl⟩

theorem Symbol.language_eq_mul {s : Symbol} {kind : Kind} {M : Language Token}
    (h : s.equation = only kind * M) : s.language = only kind * s.behind := by
  rw [behind_eq h, language_eq_equation, h]

theorem Rhs.language_suffix : suffix.language =
    only .leftParen * ((1 + Symbol.arguments.language) * only .rightParen) +
      only .dot * only .identifier := by
  simp [suffix, mul_assoc]

/-! ## Levels of precedence -/

section Kleene

variable {K : Type*} [KleeneAlgebra K]

/-- A repetition of two things is one of the first with the second in between. -/
theorem kstar_add (a b : K) : (a + b)∗ = a∗ * (b * a∗)∗ := by
  apply le_antisymm
  · refine kstar_le_of_mul_le_right ?_ ?_
    · exact (mul_one (1 : K)).symm.le.trans (mul_le_mul' one_le_kstar one_le_kstar)
    · rw [add_mul, ← mul_assoc, ← mul_assoc]
      refine add_le (mul_le_mul' mul_kstar_le_kstar le_rfl) ?_
      calc b * a∗ * (b * a∗)∗ ≤ (b * a∗)∗ := mul_kstar_le_kstar
        _ = 1 * (b * a∗)∗ := (one_mul _).symm
        _ ≤ a∗ * (b * a∗)∗ := mul_le_mul' one_le_kstar le_rfl
  · have ha : a∗ ≤ (a + b)∗ := kstar_mono le_self_add
    have hb : b * a∗ ≤ (a + b)∗ :=
      (mul_le_mul' (le_add_self : b ≤ a + b) ha).trans mul_kstar_le_kstar
    calc a∗ * (b * a∗)∗ ≤ (a + b)∗ * (a + b)∗∗ := mul_le_mul' ha (kstar_mono hb)
      _ = (a + b)∗ := by rw [kstar_idem, kstar_mul_kstar]

end Kleene

theorem oneOf_add (S T : Kind → Prop) : oneOf S + oneOf T = oneOf fun kind => S kind ∨ T kind := by
  ext w
  constructor
  · rintro (⟨t, rfl, h⟩ | ⟨t, rfl, h⟩)
    · exact ⟨t, rfl, .inl h⟩
    · exact ⟨t, rfl, .inr h⟩
  · rintro ⟨t, rfl, h | h⟩
    · exact .inl ⟨t, rfl, h⟩
    · exact .inr ⟨t, rfl, h⟩

/-- An operator of the level `l` or a tighter one, and its right operand. -/
def operation (l : Nat) : Language Token :=
  oneOf (fun kind => ∃ k, kind.level? = some k ∧ l ≤ k) * Symbol.unary.language

/-- The operators of a level. -/
theorem Rhs.language_operator {l : Nat} (hl : l < 6) :
    (operator l).language = oneOf fun kind => kind.level? = some l := by
  match l, hl with
  | 0, _ | 1, _ | 2, _ | 3, _ | 4, _ | 5, _ =>
    simp only [operator, language_alt, language_token, only, oneOf_add]
    congr 1
    funext kind
    cases kind <;> simp [Kind.level?]

theorem operation_eq (l : Nat) : operation l = operation (l + 1) +
    oneOf (fun kind => kind.level? = some l) * Symbol.unary.language := by
  unfold operation
  rw [← add_mul, oneOf_add]
  congr 2
  funext kind
  refine propext ⟨?_, ?_⟩
  · rintro ⟨k, hk, hlk⟩
    rcases Nat.eq_or_lt_of_le hlk with rfl | hlt
    · exact .inr hk
    · exact .inl ⟨k, hk, hlt⟩
  · rintro (⟨k, hk, hlk⟩ | hk)
    · exact ⟨k, hk, Nat.le_of_succ_le hlk⟩
    · exact ⟨l, hk, Nat.le_refl l⟩

/-- **A level of precedence stands for operands with operators of the level and tighter ones.** -/
theorem Symbol.language_ofLevel {l : Nat} (hl : l ≤ 6) :
    (ofLevel l).language = unary.language * (operation l)∗ := by
  induction hl using Nat.decreasingInduction with
  | self =>
    have hnone : operation 6 = 0 := by
      have hempty : oneOf (fun kind => ∃ k, kind.level? = some k ∧ 6 ≤ k) = 0 := by
        ext w
        refine ⟨?_, False.elim⟩
        rintro ⟨t, rfl, k, hk, hle⟩
        exact absurd (Kind.level?_lt hk) (Nat.not_lt.2 hle)
      rw [operation, hempty, zero_mul]
    rw [hnone, kstar_zero, mul_one]
    rfl
  | of_succ l hl ih =>
    have hrule : (ofLevel l).relaxedRule = .joined (ofLevel (l + 1)) (.operator l) := by
      match l, hl with
      | 0, _ | 1, _ | 2, _ | 3, _ | 4, _ | 5, _ => rfl
    rw [language_eq, hrule, Rhs.joined, Rhs.language_seq, Rhs.language_star, Rhs.language_seq,
      Rhs.language_operator hl, Rhs.language_sym, ih, operation_eq l, kstar_add, mul_assoc,
      mul_assoc]

/-! ## First tokens -/

/-- The kind of the first token of a word; at the end there is the end mark. -/
def frontKind : List Token → Kind
  | [] => .eof
  | t :: _ => t.kind

theorem frontKind_append {u : List Token} (h : frontKind u ≠ .eof) (v : List Token) :
    frontKind (u ++ v) = frontKind u := by
  cases u with
  | nil => exact absurd rfl h
  | cons => rfl

/-- Every word of the language begins with a token of such a kind. -/
def Fronts (S : Kind → Prop) (L : Language Token) : Prop := ∀ w ∈ L, S (frontKind w)

/-- Every word of the language begins with one of the given kinds: if with the word `fun`, then with
a parenthesis behind it. -/
def Opening (opens : Kind → Bool) (L : Language Token) : Prop := ∀ w ∈ L, Begins opens w

namespace Fronts

variable {S T : Kind → Prop} {L M : Language Token}

theorem only {kind : Kind} (h : S kind) : Fronts S (only kind) := by
  rintro _ ⟨t, rfl, rfl⟩
  exact h

theorem only_mul {kind : Kind} (h : S kind) (M : Language Token) :
    Fronts S (LoxLang.only kind * M) := by
  rintro _ ⟨_, ⟨t, rfl, rfl⟩, v, -, rfl⟩
  exact h

/-- A word that begins with a token of the kind does so. -/
theorem self (kind : Kind) (M : Language Token) : Fronts (· = kind) (LoxLang.only kind * M) :=
  only_mul (S := (· = kind)) rfl M

theorem only_mul_mul {kind : Kind} (h : S kind) (M K : Language Token) :
    Fronts S (LoxLang.only kind * M * K) :=
  mul_assoc (LoxLang.only kind) M K ▸ only_mul h _

theorem self_mul (kind : Kind) (M K : Language Token) :
    Fronts (· = kind) (LoxLang.only kind * M * K) :=
  only_mul_mul (S := (· = kind)) rfl M K

theorem mono (h : Fronts S L) (hST : ∀ kind, S kind → T kind) : Fronts T L :=
  fun w hw => hST _ (h w hw)

theorem add (hL : Fronts S L) (hM : Fronts S M) : Fronts S (L + M) :=
  fun w hw => hw.elim (hL w) (hM w)

theorem mul (h : Fronts S L) (hS : ¬ S .eof) (M : Language Token) : Fronts S (L * M) := by
  rintro _ ⟨u, hu, v, -, rfl⟩
  have hfront := h u hu
  change S (frontKind (u ++ v))
  rwa [frontKind_append (fun he => hS (he ▸ hfront))]

/-- A word that begins with another kind is not one of these. -/
theorem skip (h : Fronts S L) {w : List Token} (hw : w ∈ L + M) (hfront : ¬ S (frontKind w)) :
    w ∈ M :=
  hw.resolve_left fun hL => hfront (h w hL)

theorem skip_right (h : Fronts S M) {w : List Token} (hw : w ∈ L + M)
    (hfront : ¬ S (frontKind w)) : w ∈ L :=
  hw.resolve_right fun hM => hfront (h w hM)

end Fronts

namespace Opening

variable {opens opens' : Kind → Bool} {L M : Language Token}

theorem fronts (h : Opening opens L) : Fronts (fun kind => opens kind = true) L := by
  intro w hw
  obtain ⟨t, u, rfl, ht, -⟩ := h w hw
  exact ht

theorem mono (h : Opening opens L) (himp : ∀ kind, opens kind → opens' kind) : Opening opens' L :=
  fun w hw => (h w hw).mono himp

theorem add (hL : Opening opens L) (hM : Opening opens M) : Opening opens (L + M) :=
  fun w hw => hw.elim (hL w) (hM w)

theorem mul (h : Opening opens L) (M : Language Token) : Opening opens (L * M) := by
  rintro _ ⟨u, hu, v, -, rfl⟩
  exact (h u hu).append v

theorem only {kind : Kind} (h : opens kind) (hfun : kind ≠ .kwFun) :
    Opening opens (LoxLang.only kind) := by
  rintro _ ⟨t, rfl, ht⟩
  exact .token ht h hfun []

theorem only_mul {kind : Kind} (h : opens kind) (hfun : kind ≠ .kwFun) :
    Opening opens (LoxLang.only kind * M) :=
  (only h hfun).mul M

theorem primary : Opening Kind.opensOperand Symbol.primary.language := by
  rw [Symbol.language_eq_equation]
  have hliteral : ∀ {S : Kind → Prop}, (∀ kind, S kind → kind.opensOperand ∧ kind ≠ .kwFun) →
      Opening Kind.opensOperand (oneOf S) := by
    rintro S hS _ ⟨t, rfl, ht⟩
    exact .token rfl (hS _ ht).1 (hS _ ht).2 []
  refine .add ?_ <| .add ?_ <| .add (only rfl nofun) <| .add (only rfl nofun) <|
    .add (only rfl nofun) <| .add (only rfl nofun) <| .add (only rfl nofun) <|
    .add (only_mul rfl nofun) <| .add (only_mul rfl nofun) ?_
  · rw [Rhs.language_number]
    exact hliteral (by rintro _ ⟨value, rfl⟩; exact ⟨rfl, nofun⟩)
  · rw [Rhs.language_string]
    exact hliteral (by rintro _ ⟨contents, rfl⟩; exact ⟨rfl, nofun⟩)
  · rintro _ ⟨_, ⟨t, rfl, ht⟩, _, ⟨_, ⟨p, rfl, hp⟩, v, -, rfl⟩, rfl⟩
    exact ⟨t, p :: v, rfl, by rw [ht]; rfl, fun _ => ⟨p, v, rfl, hp⟩⟩

theorem unary : Opening Kind.opensExpression Symbol.unary.language := by
  rw [Symbol.language_eq_equation]
  have hcall : Opening Kind.opensOperand Symbol.call.language := by
    rw [Symbol.language_eq_equation]
    exact primary.mul _
  refine .add ?_ (hcall.mono fun _ => Kind.opensExpression_of_operand)
  rw [add_mul]
  exact .add (only_mul rfl nofun) (only_mul rfl nofun)

theorem assignment : Opening Kind.opensExpression Symbol.assignment.language := by
  rw [Symbol.language_eq_equation]
  change Opening _ ((Symbol.ofLevel 0).language * _)
  rw [Symbol.language_ofLevel (Nat.zero_le 6)]
  exact (unary.mul _).mul _

theorem expression : Opening Kind.opensExpression Symbol.expression.language :=
  Symbol.language_expression ▸ assignment

theorem arguments : Opening Kind.opensExpression Symbol.arguments.language := by
  rw [Symbol.language_eq_equation]
  exact expression.mul _

end Opening

/-- The keyword or bracket that a symbol begins with, if its rule begins with one. -/
def Symbol.first? : Symbol → Option Kind
  | classDecl => some .kwClass
  | funDecl => some .kwFun
  | varDecl => some .kwVar
  | forStmt => some .kwFor
  | ifStmt => some .kwIf
  | printStmt => some .kwPrint
  | returnStmt => some .kwReturn
  | whileStmt => some .kwWhile
  | block => some .leftBrace
  | function | parameters => some .identifier
  | _ => none

theorem Symbol.fronts_first {s : Symbol} {kind : Kind} (h : s.first? = some kind) :
    Fronts (· = kind) s.language := by
  rw [language_eq_equation]
  cases s <;> cases h <;> exact .self _ _

theorem Symbol.fronts_first_mul {s : Symbol} {kind : Kind} (h : s.first? = some kind)
    (K : Language Token) : Fronts (· = kind) (s.language * K) :=
  (fronts_first h).mul (by rintro rfl; cases s <;> cases h) K

theorem Opening.exprStmt : Opening Kind.opensExpression Symbol.exprStmt.language := by
  rw [Symbol.language_eq_equation]
  exact expression.mul _

theorem Opening.statement : Opening Kind.opensPlain Symbol.statement.language := by
  rw [Symbol.language_eq_equation]
  have hfirst : ∀ {s : Symbol} {kind : Kind}, s.first? = some kind → kind.opensPlain →
      kind ≠ .kwFun → Opening Kind.opensPlain s.language := by
    intro s kind hs hopens hfun
    rw [Symbol.language_eq_equation]
    cases s <;> cases hs <;> exact .mul (.only hopens hfun) _
  exact .add (exprStmt.mono fun _ => Kind.opensPlain_of_expression) <|
    .add (hfirst rfl rfl nofun) <| .add (hfirst rfl rfl nofun) <| .add (hfirst rfl rfl nofun) <|
    .add (hfirst rfl rfl nofun) <| .add (hfirst rfl rfl nofun) <| hfirst rfl rfl nofun

theorem Symbol.fronts_declaration :
    Fronts (fun kind => kind.opensDeclaration = true) declaration.language := by
  rw [language_eq_equation]
  refine .add ?_ <| .add ?_ <| .add ?_ ?_
  · exact (fronts_first rfl).mono fun _ h => h ▸ rfl
  · exact (fronts_first rfl).mono fun _ h => h ▸ rfl
  · exact (fronts_first rfl).mono fun _ h => h ▸ rfl
  · exact Opening.statement.fronts.mono fun _ => Kind.opensDeclaration_of_plain

theorem Symbol.eq_of_first {s s' : Symbol} {kind : Kind} (hs : s.first? = some kind)
    (hs' : s'.first? = some kind) (h : kind ≠ .identifier) : s = s' := by
  cases s <;> cases hs <;> cases s' <;> first | rfl | exact absurd rfl h | cases hs'

/-- The first token of a statement tells which one it is: one that opens no expression is the first
token of the symbol. -/
theorem Symbol.statement_cases {K : Language Token} {w : List Token}
    (hw : w ∈ statement.language * K) :
    w ∈ exprStmt.language * K ∨
    (frontKind w).opensExpression = false ∧ ∃ s : Symbol, s.first? = some (frontKind w) ∧
      w ∈ s.language * K := by
  have hfirst : ∀ {s : Symbol} {kind : Kind}, s.first? = some kind →
      kind.opensExpression = false → w ∈ s.language * K →
      (frontKind w).opensExpression = false ∧ ∃ s : Symbol, s.first? = some (frontKind w) ∧
        w ∈ s.language * K := by
    intro s kind hs hexpression hw
    have hfront : frontKind w = kind := fronts_first_mul hs K w hw
    exact ⟨hfront ▸ hexpression, s, hfront ▸ hs, hw⟩
  rw [language_eq_equation] at hw
  simp only [equation, add_mul, Language.mem_add] at hw
  rcases hw with hw | hw | hw | hw | hw | hw | hw
  · exact .inl hw
  all_goals exact .inr (hfirst rfl rfl hw)

/-- The first token of a declaration tells which one it is, but for the word `fun`. -/
theorem Symbol.declaration_cases {K : Language Token} {w : List Token}
    (hw : w ∈ declaration.language * K) :
    (frontKind w = .kwClass ∧ w ∈ classDecl.language * K) ∨
    (frontKind w = .kwFun ∧ w ∈ funDecl.language * K) ∨
    (frontKind w = .kwVar ∧ w ∈ varDecl.language * K) ∨
    ((frontKind w).opensPlain ∧ w ∈ statement.language * K) := by
  rw [language_eq_equation] at hw
  simp only [equation, add_mul, Language.mem_add] at hw
  rcases hw with hw | hw | hw | hw
  · exact .inl ⟨fronts_first_mul rfl K w hw, hw⟩
  · exact .inr (.inl ⟨fronts_first_mul rfl K w hw, hw⟩)
  · exact .inr (.inr (.inl ⟨fronts_first_mul rfl K w hw, hw⟩))
  · exact .inr (.inr (.inr ⟨(Opening.statement.mul K).fronts w hw, hw⟩))

/-! ## Words there are -/

/-- There is a word in the language. -/
class Filled (L : Language Token) : Prop where
  word : ∃ w, w ∈ L

namespace Filled

variable {L M : Language Token}

instance : Filled 1 := ⟨[], rfl⟩

instance (kind : Kind) : Filled (only kind) := ⟨[⟨kind, "", 0⟩], _, rfl, rfl⟩

instance [hL : Filled L] [hM : Filled M] : Filled (L * M) := by
  obtain ⟨u, hu⟩ := hL
  obtain ⟨v, hv⟩ := hM
  exact ⟨u ++ v, Language.append_mem_mul hu hv⟩

theorem left (M : Language Token) [hL : Filled L] : Filled (L + M) := by
  obtain ⟨u, hu⟩ := hL
  exact ⟨u, .inl hu⟩

theorem right (L : Language Token) [hM : Filled M] : Filled (L + M) := by
  obtain ⟨v, hv⟩ := hM
  exact ⟨v, .inr hv⟩

instance : Filled L∗ := ⟨[], Language.nil_mem_kstar L⟩

instance : Filled (1 + L) := left L

instance : Filled Symbol.primary.language := by
  rw [Symbol.language_eq_equation]
  have := left (L := only .kwTrue)
  exact @right _ _ (@right _ _ (left _))

instance : Filled Symbol.unary.language := by
  rw [Symbol.language_eq_equation]
  have : Filled Symbol.call.language := by
    rw [Symbol.language_eq_equation]
    exact inferInstanceAs (Filled (_ * _))
  exact right _

instance : Filled Symbol.assignment.language := by
  rw [Symbol.language_eq_equation]
  change Filled ((Symbol.ofLevel 0).language * _)
  rw [Symbol.language_ofLevel (Nat.zero_le 6)]
  infer_instance

instance : Filled Symbol.expression.language := by
  rw [Symbol.language_expression]
  infer_instance

instance : Filled Symbol.block.language := by
  rw [Symbol.language_eq_equation]
  exact inferInstanceAs (Filled (_ * (_∗ * _)))

instance : Filled Symbol.function.language := by
  rw [Symbol.language_eq_equation]
  exact inferInstanceAs (Filled (_ * (_ * ((1 + _) * (_ * _)))))

instance : Filled Symbol.statement.language := by
  rw [Symbol.language_eq_equation]
  have : Filled Symbol.exprStmt.language := by
    rw [Symbol.language_eq_equation]
    exact inferInstanceAs (Filled (_ * _))
  exact left _

instance : Filled Symbol.funDecl.language := by
  rw [Symbol.language_eq_equation]
  exact inferInstanceAs (Filled (_ * Symbol.function.language))

instance : Filled Symbol.classDecl.behind := by
  rw [Symbol.behind_eq rfl]
  infer_instance

instance : Filled Symbol.varDecl.behind := by
  rw [Symbol.behind_eq rfl]
  infer_instance

instance : Filled (L + (M + only .semicolon)) :=
  @right _ L (right M)

instance : Filled Symbol.block.behind := by
  rw [Symbol.behind_eq rfl]
  infer_instance

end Filled

/-! ## What the next token selects -/

theorem kstar_mul_eq (L K : Language Token) : L∗ * K = K + L * (L∗ * K) := by
  conv_lhs => rw [← Language.one_add_self_mul_kstar_eq_kstar, add_mul, one_mul, mul_assoc]

/-- The operands that begin with a token of the kind. -/
def Kind.operand : Kind → Language Token
  | .leftParen => only .leftParen * (Symbol.expression.language * only .rightParen)
  | .kwSuper => only .kwSuper * (only .dot * only .identifier)
  | .kwFun => only .kwFun * (only .leftParen * ((1 + Symbol.parameters.language) *
      (only .rightParen * Symbol.block.language)))
  | kind => if kind.opensOperand then only kind else 0

theorem Kind.fronts_operand (kind : Kind) : Fronts (· = kind) kind.operand := by
  unfold operand
  split
  · exact .self _ _
  · exact .self _ _
  · exact .self _ _
  · split
    · exact .only (S := (· = _)) rfl
    · exact fun _ => False.elim

theorem Symbol.mem_primary_iff {w : List Token} :
    w ∈ primary.language ↔ w ∈ (frontKind w).operand := by
  rw [language_eq_equation]
  constructor
  · have hone : ∀ (kind : Kind) {w : List Token}, kind.operand = only kind → w ∈ only kind →
        w ∈ (frontKind w).operand := by
      intro kind w hkind hw
      rwa [Fronts.only (S := (· = kind)) rfl w hw, hkind]
    have hmany : ∀ {kind : Kind} {w : List Token} {M : Language Token},
        kind.operand = only kind * M → w ∈ only kind * M → w ∈ (frontKind w).operand := by
      intro kind w M hkind hw
      rwa [Fronts.self kind M w hw, hkind]
    rintro (h | h | h | h | h | h | h | h | h | h)
    · rw [Rhs.language_number] at h
      obtain ⟨t, rfl, value, ht⟩ := h
      exact hone (.number value) rfl ⟨t, rfl, ht⟩
    · rw [Rhs.language_string] at h
      obtain ⟨t, rfl, contents, ht⟩ := h
      exact hone (.string contents) rfl ⟨t, rfl, ht⟩
    all_goals first
      | exact hone _ rfl h
      | exact hmany rfl h
  · intro hw
    generalize frontKind w = kind at hw
    change w ∈ Rhs.number.language + (Rhs.string.language + (only .kwTrue + (only .kwFalse +
      (only .kwNil + (only .kwThis + (only .identifier + (_ + (_ + _))))))))
    simp only [Language.mem_add]
    cases kind
    case number value =>
      obtain ⟨t, rfl, ht⟩ := hw
      exact .inl (.number ht)
    case string contents =>
      obtain ⟨t, rfl, ht⟩ := hw
      exact .inr (.inl (.string ht))
    all_goals first
      | exact hw.elim
      | tauto

theorem le_mul_of_one_le {L M : Language Token} (h : 1 ≤ M) : L ≤ L * M :=
  (mul_one L).symm.le.trans (mul_le_mul' le_rfl h)

theorem Symbol.primary_le_call : primary.language ≤ call.language := by
  rw [language_eq_equation call]
  exact le_mul_of_one_le one_le_kstar

theorem Symbol.call_le_logicOr : call.language ≤ logicOr.language := by
  have hunary : call.language ≤ unary.language := by
    rw [language_eq_equation unary]
    exact le_add_self
  change _ ≤ (ofLevel 0).language
  rw [language_ofLevel (Nat.zero_le 6)]
  exact hunary.trans (le_mul_of_one_le one_le_kstar)

theorem Symbol.logicOr_le_expression : logicOr.language ≤ expression.language := by
  rw [language_expression, language_eq_equation assignment]
  exact le_mul_of_one_le le_self_add

/-- There is a statement that begins with a function without a name. -/
theorem Symbol.exists_statement_fun : ∃ w ∈ statement.language, frontKind w = .kwFun := by
  obtain ⟨w, hw⟩ : Filled Kind.kwFun.operand :=
    inferInstanceAs (Filled (_ * (_ * ((1 + _) * (_ * _)))))
  have hfront : frontKind w = .kwFun := Kind.fronts_operand .kwFun w hw
  have hexpression := (primary_le_call.trans (call_le_logicOr.trans logicOr_le_expression))
    (mem_primary_iff.2 (hfront.symm ▸ hw))
  refine ⟨w ++ [⟨.semicolon, "", 0⟩], ?_, ?_⟩
  · rw [language_eq_equation]
    refine .inl ?_
    rw [language_eq_equation]
    exact Language.append_mem_mul hexpression ⟨_, rfl, rfl⟩
  · rw [frontKind_append (hfront ▸ nofun), hfront]

/-! ## What the grammar derives -/

theorem Rhs.language_upTo_le (n : Nat) (a : Rhs) : (upTo n a).language ≤ a.language∗ := by
  intro w hw
  generalize hr : upTo n a = r at hw
  induction hw generalizing n with
  | upToNil => exact Language.nil_mem_kstar _
  | upToCons hu _ _ ih =>
    cases hr
    have hle : a.language * a.language∗ ≤ a.language∗ := mul_kstar_le_kstar
    exact hle (Language.append_mem_mul hu (ih _ rfl))
  | _ => cases hr

/-- The targets of assignments are operators and operands, too. -/
theorem Symbol.target_le_logicOr :
    (1 + call.language * only .dot) * only .identifier ≤ logicOr.language := by
  have hidentifier : only .identifier ≤ primary.language := by
    intro w hw
    have hfront : frontKind w = .identifier := Fronts.only (S := (· = .identifier)) rfl w hw
    exact mem_primary_iff.2 (hfront.symm ▸ hw)
  have hproperty : call.language * (only .dot * only .identifier) ≤ call.language := by
    have hsuffix : only .dot * only .identifier ≤ Rhs.suffix.language := by
      rw [Rhs.language_suffix]
      exact le_add_self
    rw [language_eq_equation call, equation, mul_assoc]
    exact mul_le_mul' le_rfl ((mul_le_mul' le_rfl hsuffix).trans kstar_mul_le_kstar)
  rw [add_mul, one_mul, mul_assoc]
  exact add_le (hidentifier.trans (primary_le_call.trans call_le_logicOr))
    (hproperty.trans call_le_logicOr)

theorem Symbol.rule_le (s : Symbol) : s.rule.language ≤ s.language := by
  rw [language_eq]
  cases s
  case assignment =>
    simp only [rule, relaxedRule, Rhs.language_alt, Rhs.language_seq, Rhs.language_opt,
      Rhs.language_token, Rhs.language_sym, mul_add, mul_one]
    refine add_le ((mul_le_mul' (mul_le_mul' target_le_logicOr le_rfl) le_rfl).trans ?_) le_self_add
    rw [mul_assoc]
    exact le_add_self
  case parameters | arguments =>
    simp only [rule, relaxedRule, Rhs.list, Rhs.language_seq, Rhs.language_star]
    refine mul_le_mul' le_rfl ((Rhs.language_upTo_le _ _).trans ?_)
    rw [Rhs.language_seq]
  all_goals exact le_rfl

/-- **The relaxed grammar derives what the grammar derives.** -/
theorem Derives.relaxed {r : Rhs} {w : List Token} (h : Derives r w) :
    DerivesBy Symbol.relaxedRule r w := by
  induction h with
  | token h => exact .token h
  | number h => exact .number h
  | string h => exact .string h
  | sym _ ih => exact Symbol.rule_le _ ih
  | seq _ _ ihu ihv => exact .seq ihu ihv
  | left _ ih => exact .left ih
  | right _ ih => exact .right ih
  | optNone => exact .optNone
  | optSome _ ih => exact .optSome ih
  | starNil => exact .starNil
  | starCons _ _ ihu ihv => exact .starCons ihu ihv
  | upToNil => exact .upToNil
  | upToCons _ _ ihu ihv => exact .upToCons ihu ihv

end LoxLang
