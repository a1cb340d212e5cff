import LoxLang.Token
import Mathlib.Tactic.Tauto

/-!
# The grammar of Lox

The grammar is data: `rule` gives the right-hand side of every `Symbol`, written as in an EBNF, and
`Derives` says which tokens a right-hand side stands for. Lists of parameters and of arguments are
limited in length (`Rhs.upTo`). A statement may have an `else` too many for one reading only:
`ifStmt` is ambiguous, which does not matter for what can be derived.
-/

namespace LoxLang

/-- The symbols of the grammar. -/
inductive Symbol
  | program
  | declaration
  | classDecl
  | funDecl
  | function
  | varDecl
  | statement
  | exprStmt
  | forStmt
  | ifStmt
  | printStmt
  | returnStmt
  | whileStmt
  | block
  | expression
  | assignment
  | logicOr
  | logicAnd
  | equality
  | comparison
  | term
  | factor
  | unary
  | call
  | primary
  | parameters
  | arguments
deriving DecidableEq

/-- Right-hand sides of rules. -/
inductive Rhs
  | token (kind : Kind)
  | number
  | string
  | sym (s : Symbol)
  | seq (first second : Rhs)
  | alt (left right : Rhs)
  | opt (r : Rhs)
  | star (r : Rhs)
  | upTo (n : Nat) (r : Rhs)

namespace Rhs

instance : Append Rhs := ⟨seq⟩

instance : OrOp Rhs := ⟨alt⟩

/-- A list with commas that has at most 255 entries. -/
def list (r : Rhs) : Rhs := r ++ upTo 254 (token .comma ++ r)

/-- A call or a property behind an operand. -/
def suffix : Rhs :=
  token .leftParen ++ opt (sym .arguments) ++ token .rightParen ||| token .dot ++ token .identifier

/-- Operands joined by operators. -/
def joined (operand : Symbol) (op : Rhs) : Rhs := sym operand ++ star (op ++ sym operand)

end Rhs

open Rhs in
/-- The rules of the grammar. -/
def Symbol.rule : Symbol → Rhs
  | program => star (sym declaration)
  | declaration => sym classDecl ||| sym funDecl ||| sym varDecl ||| sym statement
  | classDecl =>
    token .kwClass ++ token .identifier ++ opt (token .less ++ token .identifier) ++
      token .leftBrace ++ star (sym function) ++ token .rightBrace
  | funDecl => token .kwFun ++ sym function
  | function =>
    token .identifier ++ token .leftParen ++ opt (sym parameters) ++ token .rightParen ++ sym block
  | varDecl =>
    token .kwVar ++ token .identifier ++ opt (token .equal ++ sym expression) ++ token .semicolon
  | statement =>
    sym exprStmt ||| sym forStmt ||| sym ifStmt ||| sym printStmt ||| sym returnStmt |||
      sym whileStmt ||| sym block
  | exprStmt => sym expression ++ token .semicolon
  | forStmt =>
    token .kwFor ++ token .leftParen ++ (sym varDecl ||| sym exprStmt ||| token .semicolon) ++
      opt (sym expression) ++ token .semicolon ++ opt (sym expression) ++ token .rightParen ++
      sym statement
  | ifStmt =>
    token .kwIf ++ token .leftParen ++ sym expression ++ token .rightParen ++ sym statement ++
      opt (token .kwElse ++ sym statement)
  | printStmt => token .kwPrint ++ sym expression ++ token .semicolon
  | returnStmt => token .kwReturn ++ opt (sym expression) ++ token .semicolon
  | whileStmt =>
    token .kwWhile ++ token .leftParen ++ sym expression ++ token .rightParen ++ sym statement
  | block => token .leftBrace ++ star (sym declaration) ++ token .rightBrace
  | expression => sym assignment
  | assignment =>
    opt (sym call ++ token .dot) ++ token .identifier ++ token .equal ++ sym assignment |||
      sym logicOr
  | logicOr => joined logicAnd (token .kwOr)
  | logicAnd => joined equality (token .kwAnd)
  | equality => joined comparison (token .bangEqual ||| token .equalEqual)
  | comparison =>
    joined term (token .greater ||| token .greaterEqual ||| token .less ||| token .lessEqual)
  | term => joined factor (token .minus ||| token .plus)
  | factor => joined unary (token .slash ||| token .star)
  | unary => (token .bang ||| token .minus) ++ sym unary ||| sym call
  | call => sym primary ++ star suffix
  | primary =>
    number ||| string ||| token .kwTrue ||| token .kwFalse ||| token .kwNil ||| token .kwThis |||
      token .identifier ||| token .leftParen ++ sym expression ++ token .rightParen |||
      token .kwSuper ++ token .dot ++ token .identifier |||
      token .kwFun ++ token .leftParen ++ opt (sym parameters) ++ token .rightParen ++ sym block
  | parameters => list (token .identifier)
  | arguments => list (sym expression)

/-- The tokens that a right-hand side stands for. -/
inductive Derives : Rhs → List Token → Prop
  | token {kind : Kind} {t : Token} : t.kind = kind → Derives (.token kind) [t]
  | number {t : Token} {value : Float} : t.kind = .number value → Derives .number [t]
  | string {t : Token} {contents : String} : t.kind = .string contents → Derives .string [t]
  | sym {s : Symbol} {w : List Token} : Derives s.rule w → Derives (.sym s) w
  | seq {a b : Rhs} {u v : List Token} : Derives a u → Derives b v → Derives (a ++ b) (u ++ v)
  | left {a b : Rhs} {w : List Token} : Derives a w → Derives (a ||| b) w
  | right {a b : Rhs} {w : List Token} : Derives b w → Derives (a ||| b) w
  | optNone {a : Rhs} : Derives (.opt a) []
  | optSome {a : Rhs} {w : List Token} : Derives a w → Derives (.opt a) w
  | starNil {a : Rhs} : Derives (.star a) []
  | starCons {a : Rhs} {u v : List Token} : Derives a u → Derives (.star a) v →
      Derives (.star a) (u ++ v)
  | upToNil {n : Nat} {a : Rhs} : Derives (.upTo n a) []
  | upToCons {n : Nat} {a : Rhs} {u v : List Token} : Derives a u → Derives (.upTo n a) v →
      Derives (.upTo (n + 1) a) (u ++ v)

namespace Derives

variable {a b : Rhs} {w : List Token}

theorem seq_iff : Derives (a ++ b) w ↔ ∃ u v, w = u ++ v ∧ Derives a u ∧ Derives b v := by
  constructor
  · intro h
    cases h with
    | seq ha hb => exact ⟨_, _, rfl, ha, hb⟩
  · rintro ⟨u, v, rfl, ha, hb⟩
    exact .seq ha hb

theorem alt_iff : Derives (a ||| b) w ↔ Derives a w ∨ Derives b w := by
  constructor
  · intro h
    cases h with
    | left h => exact .inl h
    | right h => exact .inr h
  · rintro (h | h)
    · exact .left h
    · exact .right h

theorem sym_iff {s : Symbol} : Derives (.sym s) w ↔ Derives s.rule w := by
  constructor
  · intro h
    cases h with
    | sym h => exact h
  · exact .sym

theorem token_iff {kind : Kind} : Derives (.token kind) w ↔ ∃ t, w = [t] ∧ t.kind = kind := by
  constructor
  · intro h
    cases h with
    | token h => exact ⟨_, rfl, h⟩
  · rintro ⟨t, rfl, h⟩
    exact .token h

theorem seq_assoc {c : Rhs} : Derives (a ++ b ++ c) w ↔ Derives (a ++ (b ++ c)) w := by
  constructor
  · intro h
    obtain ⟨_, z, rfl, h, hz⟩ := seq_iff.1 h
    obtain ⟨x, y, rfl, hx, hy⟩ := seq_iff.1 h
    rw [List.append_assoc]
    exact .seq hx (.seq hy hz)
  · intro h
    obtain ⟨x, _, rfl, hx, h⟩ := seq_iff.1 h
    obtain ⟨y, z, rfl, hy, hz⟩ := seq_iff.1 h
    rw [← List.append_assoc]
    exact .seq (.seq hx hy) hz

theorem token_seq_iff {kind : Kind} : Derives (.token kind ++ b) w ↔
    ∃ t v, w = t :: v ∧ t.kind = kind ∧ Derives b v := by
  constructor
  · intro h
    obtain ⟨_, v, rfl, hu, hv⟩ := seq_iff.1 h
    obtain ⟨t, rfl, ht⟩ := token_iff.1 hu
    exact ⟨t, v, rfl, ht, hv⟩
  · rintro ⟨t, v, rfl, ht, hv⟩
    exact .seq (.token ht) hv

theorem opt_iff : Derives (.opt a) w ↔ w = [] ∨ Derives a w := by
  constructor
  · intro h
    cases h with
    | optNone => exact .inl rfl
    | optSome h => exact .inr h
  · rintro (rfl | h)
    · exact .optNone
    · exact .optSome h

/-- What a repetition stands for, one after the other. -/
theorem star_iff : Derives (.star a) w ↔ ∃ ws : List (List Token), w = ws.flatten ∧
    ∀ u ∈ ws, Derives a u := by
  constructor
  · intro h
    generalize hr : Rhs.star a = r at h
    induction h with
    | starNil => exact ⟨[], rfl, nofun⟩
    | @starCons _ u v hu _ _ ih =>
      cases hr
      obtain ⟨ws, rfl, hws⟩ := ih rfl
      exact ⟨u :: ws, rfl, List.forall_mem_cons.2 ⟨hu, hws⟩⟩
    | _ => cases hr
  · rintro ⟨ws, rfl, hws⟩
    induction ws with
    | nil => exact .starNil
    | cons u ws ih =>
      obtain ⟨hu, hws⟩ := List.forall_mem_cons.1 hws
      exact .starCons hu (ih hws)

theorem star_append {u v : List Token} (hu : Derives (.star a) u) (hv : Derives (.star a) v) :
    Derives (.star a) (u ++ v) := by
  obtain ⟨us, rfl, hus⟩ := star_iff.1 hu
  obtain ⟨vs, rfl, hvs⟩ := star_iff.1 hv
  refine star_iff.2 ⟨us ++ vs, List.flatten_append.symm, fun x hx => ?_⟩
  exact (List.mem_append.1 hx).elim (hus x) (hvs x)

/-- A bounded repetition. -/
theorem upTo_iff {n : Nat} : Derives (.upTo n a) w ↔ ∃ ws : List (List Token), w = ws.flatten ∧
    ws.length ≤ n ∧ ∀ u ∈ ws, Derives a u := by
  constructor
  · intro h
    generalize hr : Rhs.upTo n a = r at h
    induction h generalizing n with
    | upToNil => exact ⟨[], rfl, Nat.zero_le n, nofun⟩
    | @upToCons _ _ u v hu _ _ ih =>
      cases hr
      obtain ⟨ws, rfl, hlen, hws⟩ := ih rfl
      exact ⟨u :: ws, rfl, Nat.succ_le_succ hlen, List.forall_mem_cons.2 ⟨hu, hws⟩⟩
    | _ => cases hr
  · rintro ⟨ws, rfl, hlen, hws⟩
    induction ws generalizing n with
    | nil => exact .upToNil
    | cons u ws ih =>
      obtain ⟨hu, hws⟩ := List.forall_mem_cons.1 hws
      cases n with
      | zero => cases hlen
      | succ n => exact .upToCons hu (ih (Nat.le_of_succ_le_succ hlen) hws)

end Derives

/-- The forms of a primary expression. -/
theorem derives_primary_iff {w : List Token} : Derives (.sym .primary) w ↔
    Derives .number w ∨ Derives .string w ∨ Derives (.token .kwTrue) w ∨
      Derives (.token .kwFalse) w ∨ Derives (.token .kwNil) w ∨ Derives (.token .kwThis) w ∨
      Derives (.token .identifier) w ∨
      Derives (.token .leftParen ++ .sym .expression ++ .token .rightParen) w ∨
      Derives (.token .kwSuper ++ .token .dot ++ .token .identifier) w ∨
      Derives (.token .kwFun ++ .token .leftParen ++ .opt (.sym .parameters) ++
        .token .rightParen ++ .sym .block) w := by
  simp only [Derives.sym_iff, Symbol.rule, Derives.alt_iff, or_assoc]

/-- The forms of a statement. -/
theorem derives_statement_iff {w : List Token} : Derives (.sym .statement) w ↔
    Derives (.sym .exprStmt) w ∨ Derives (.sym .forStmt) w ∨ Derives (.sym .ifStmt) w ∨
      Derives (.sym .printStmt) w ∨ Derives (.sym .returnStmt) w ∨ Derives (.sym .whileStmt) w ∨
      Derives (.sym .block) w := by
  rw [Derives.sym_iff, Symbol.rule]
  simp only [Derives.alt_iff, or_assoc]

end LoxLang
