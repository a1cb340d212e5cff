import LoxLang.Proofs.Grammar.Words

/-!
# Trees in normal form

A tree without parentheses of its own can only be written down and read again if each operand binds
at least as tight as its place asks for (`Expr.Binds`): a left operand as tight as the operator, a
right one tighter, the operand of a prefix as tight as a prefix, and what is called or has a
property as tight as a call. `Expr.Ordered` and `Stmt.Ordered` ask for this all over a tree, and for
what the grammar says besides about names, limits and the statements under a condition.
-/

namespace LoxLang

variable {σ : Type}

/-- The binary operators of each level; the operators of a larger one bind tighter. -/
inductive Kind.OnLevel : Kind → Nat → Prop
  | or : OnLevel .kwOr 0
  | and : OnLevel .kwAnd 1
  | equalEqual : OnLevel .equalEqual 2
  | bangEqual : OnLevel .bangEqual 2
  | greater : OnLevel .greater 3
  | greaterEqual : OnLevel .greaterEqual 3
  | less : OnLevel .less 3
  | lessEqual : OnLevel .lessEqual 3
  | plus : OnLevel .plus 4
  | minus : OnLevel .minus 4
  | star : OnLevel .star 5
  | slash : OnLevel .slash 5

/-- Operators are read on their levels. -/
theorem Kind.level?_eq_some_iff {kind : Kind} {l : Nat} :
    kind.level? = some l ↔ kind.OnLevel l := by
  constructor
  · intro h
    unfold level? at h
    split at h <;> cases h <;> constructor
  · rintro ⟨⟩ <;> rfl

/-- The expression may stand where operators of the level `l` and tighter ones are read. A prefix
has the level 6 and a call the level 7; an assignment is no operand at all. -/
def Expr.Binds (l : Nat) : Expr σ → Prop
  | .assign .. | .set .. => False
  | .binary op .. | .logical op .. => ∃ k, op.kind.OnLevel k ∧ l ≤ k
  | .unary .. => l ≤ 6
  | _ => True

/-- What binds tight may stand where something looser may. -/
theorem Expr.Binds.mono {k l : Nat} {e : Expr σ} (h : e.Binds k) (hl : l ≤ k) : e.Binds l := by
  cases e with
  | unary => exact Nat.le_trans hl h
  | binary | logical =>
    obtain ⟨j, hj, hk⟩ := h
    exact ⟨j, hj, Nat.le_trans hl hk⟩
  | assign | set => exact h
  | _ => trivial

/-- The operators that need both operands are those of the level 2 and the tighter ones. -/
theorem Expr.join_of_le {op : Token} {k : Nat} {left right : Expr σ} (hop : op.kind.OnLevel k)
    (hk : 2 ≤ k) : Expr.join op left right = .binary op left right := by
  unfold Expr.join
  generalize op.kind = kind at hop
  cases hop <;> first | rfl | omega

theorem Expr.join_of_lt {op : Token} {k : Nat} {left right : Expr σ} (hop : op.kind.OnLevel k)
    (hk : k < 2) : Expr.join op left right = .logical op left right := by
  unfold Expr.join
  generalize op.kind = kind at hop
  cases hop <;> first | rfl | omega

theorem Expr.binds_join {op : Token} {l : Nat} {left right : Expr σ} :
    (Expr.join op left right).Binds l ↔ ∃ k, op.kind.OnLevel k ∧ l ≤ k := by
  unfold Expr.join
  split <;> rfl

/-- An `else` behind the statement would belong to it. -/
def Stmt.isOpen : Stmt σ → Bool
  | .cond _ _ none => true
  | .cond _ _ (some no) => no.isOpen
  | .loop _ body => body.isOpen
  | _ => false

/-- Parameters are names, and there are at most 255. -/
def OrderedParams (params : List Token) : Prop :=
  params.length ≤ 255 ∧ ∀ p ∈ params, p.kind = .identifier

mutual

/-- All operands in an expression bind as tight as they have to. -/
def Expr.Ordered : Expr σ → Prop
  | .literal _ => True
  | .group e => e.Ordered
  | .unary op e => (op.kind = .bang ∨ op.kind = .minus) ∧ e.Binds 6 ∧ e.Ordered
  | .binary op left right => (∃ k, op.kind.OnLevel k ∧ 2 ≤ k ∧ left.Binds k ∧
      right.Binds (k + 1)) ∧ left.Ordered ∧ right.Ordered
  | .logical op left right => (∃ k, op.kind.OnLevel k ∧ k < 2 ∧ left.Binds k ∧
      right.Binds (k + 1)) ∧ left.Ordered ∧ right.Ordered
  | .ref s => s.name.kind = .identifier
  | .assign s e => s.name.kind = .identifier ∧ e.Ordered
  | .call f paren args => paren.kind = .rightParen ∧ args.length ≤ 255 ∧ f.Binds 7 ∧
      f.Ordered ∧ Expr.OrderedAll args
  | .get e name => name.kind = .identifier ∧ e.Binds 7 ∧ e.Ordered
  | .set e name v => name.kind = .identifier ∧ e.Binds 7 ∧ e.Ordered ∧ v.Ordered
  | .this s => s.name.kind = .kwThis
  | .super s method => s.name.kind = .kwSuper ∧ method.kind = .identifier
  | .lambda params body => OrderedParams params ∧ Stmt.OrderedAll body

/-- All expressions are in normal form. -/
def Expr.OrderedAll : List (Expr σ) → Prop
  | [] => True
  | e :: es => e.Ordered ∧ Expr.OrderedAll es

/-- All expressions in a statement are in normal form, no declaration stands under a condition, and
each `else` belongs to the nearest `if`. -/
def Stmt.Ordered : Stmt σ → Prop
  | .expression e | .print e => e.Ordered
  | .var name none => name.kind = .identifier
  | .var name (some e) => name.kind = .identifier ∧ e.Ordered
  | .block body => Stmt.OrderedAll body
  | .cond e yes none => e.Ordered ∧ yes.declared = [] ∧ yes.Ordered
  | .cond e yes (some no) => e.Ordered ∧ (yes.declared = [] ∧ yes.isOpen = false ∧ yes.Ordered) ∧
      no.declared = [] ∧ no.Ordered
  | .loop e body => e.Ordered ∧ body.declared = [] ∧ body.Ordered
  | .function name params body => name.kind = .identifier ∧ OrderedParams params ∧
      Stmt.OrderedAll body
  | .ret keyword none => keyword.kind = .kwReturn
  | .ret keyword (some e) => keyword.kind = .kwReturn ∧ e.Ordered
  | .classDecl name superclass methods => name.kind = .identifier ∧
      (∀ s ∈ superclass, s.name.kind = .identifier) ∧ Method.OrderedAll methods

/-- All statements are in normal form. -/
def Stmt.OrderedAll : List (Stmt σ) → Prop
  | [] => True
  | s :: ss => s.Ordered ∧ Stmt.OrderedAll ss

/-- All methods are in normal form. -/
def Method.OrderedAll : List (Method σ) → Prop
  | [] => True
  | .mk name params body :: ms => (name.kind = .identifier ∧ OrderedParams params ∧
      Stmt.OrderedAll body) ∧ Method.OrderedAll ms

end

end LoxLang
