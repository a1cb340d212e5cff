import LoxLang.Proofs.Scope.Context
import LoxLang.Tree.Read

/-!
# How the names of a tree are spelled

The tokens of a source are spelled as their kinds say: no name that a program chooses reads `this`
or `super`. A tree that is read from such tokens inherits this, and besides its operators are those
of the grammar and its branches are no declarations (`Node.Spelled`).
-/

namespace LoxLang

/-- The token is no word that stands for the receiver or the superclass. -/
def Token.IsName (t : Token) : Prop := t.lexeme ≠ thisName ∧ t.lexeme ≠ superName

/-- The token is spelled as its kind says. -/
structure Token.Spelled (t : Token) : Prop where
  name : t.kind = .identifier → t.IsName
  this : t.kind = .kwThis → t.lexeme = thisName
  super : t.kind = .kwSuper → t.lexeme = superName

/-- Tokens spelled as their kinds say. -/
def AllSpelled (w : List Token) : Prop := ∀ t ∈ w, t.Spelled

@[simp] theorem allSpelled_nil : AllSpelled [] := nofun

@[simp] theorem allSpelled_cons {t : Token} {w : List Token} :
    AllSpelled (t :: w) ↔ t.Spelled ∧ AllSpelled w :=
  List.forall_mem_cons

@[simp] theorem allSpelled_append {u v : List Token} :
    AllSpelled (u ++ v) ↔ AllSpelled u ∧ AllSpelled v :=
  List.forall_mem_append

variable {σ : Type}

/-- The parameters of a method. -/
def Method.params : Method σ → List Token
  | .mk _ params _ => params

/-- The names of a node are spelled as names, its keywords as keywords and its operators as
operators; its branches declare nothing. -/
def Node.Spelled : Node σ → Prop
  | .expr (.unary op _) => op.kind = .bang ∨ op.kind = .minus
  | .expr (.binary op _ _) => ∃ l, op.kind.level? = some l ∧ 2 ≤ l
  | .expr (.ref s) | .expr (.assign s _) => s.name.IsName
  | .expr (.this s) => s.name.lexeme = thisName
  | .expr (.super s _) => s.name.lexeme = superName
  | .expr (.lambda params _) => ∀ p ∈ params, p.IsName
  | .stmt (.var name _) => name.IsName
  | .stmt (.function name params _) => name.IsName ∧ ∀ p ∈ params, p.IsName
  | .stmt (.classDecl name _ methods) => name.IsName ∧ ∀ m ∈ methods, ∀ p ∈ m.params, p.IsName
  | .stmt (.cond _ yes no) => yes.declared = [] ∧ ∀ s ∈ no, s.declared = []
  | .stmt (.loop _ body) => body.declared = []
  | _ => True

/-- All of a tree is spelled as it should be, wherever the tree stands. -/
def Node.AllSpelled (node : Node σ) : Prop := ∀ Γ, Node.Everywhere (fun _ => Node.Spelled) Γ node

namespace Node.AllSpelled

theorem nil : (Node.stmts ([] : List (Stmt σ))).AllSpelled := fun _ => .leaf trivial rfl

theorem cons {s : Stmt σ} {ss : List (Stmt σ)} (hs : (Node.stmt s).AllSpelled)
    (hss : (Node.stmts ss).AllSpelled) : (Node.stmts (s :: ss)).AllSpelled :=
  fun Γ => .two trivial rfl (hs Γ) (hss _)

theorem pair {s s' : Stmt σ} (hs : (Node.stmt s).AllSpelled) (hs' : (Node.stmt s').AllSpelled) :
    (Node.stmts [s, s']).AllSpelled :=
  cons hs (cons hs' nil)

theorem block {ss : List (Stmt σ)} (h : (Node.stmts ss).AllSpelled) :
    (Node.stmt (.block ss)).AllSpelled :=
  fun _ => .one trivial rfl (h _)

end Node.AllSpelled

end LoxLang
