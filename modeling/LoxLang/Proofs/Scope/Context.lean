import LoxLang.Scope
import LoxLang.Tree.Label
import Mathlib.Logic.Basic

/-!
# Where a node of a tree stands

Scopes are a matter of the text alone. A `Context` lists the scopes around a point of the text, from
the innermost out, each with the names declared in it up to that point, and tells which variable's
initializer the point lies in. `Node.children` gives the nodes directly below a node, each with its
context, so the context of every node follows from that of the root: `Node.Within` is the relation
between a tree and its nodes, and `Node.Everywhere` says that a property holds of all of them. The
distance of a name in a context (`Context.distance?`) counts the scopes in front of the innermost
one that has it.
-/

namespace LoxLang

/-- What a scope of the text belongs to. -/
inductive ScopeKind
  | block
  | body (kind : BodyKind)
  | receiver
  | superclass
deriving DecidableEq

/-- A scope at a point of the text inside it: the names declared so far, the latest first, and the
variable in whose initializer the point lies, if it lies in one. -/
structure Scope where
  kind : ScopeKind
  names : List String
  pending : Option String

namespace Scope

/-- The scope of a block at its start. -/
def block : Scope := ⟨.block, [], none⟩

/-- The scope of a body at its start. -/
def body (kind : BodyKind) (params : List String) : Scope := ⟨.body kind, params, none⟩

/-- The scope in which methods find their receiver. -/
def receiver : Scope := ⟨.receiver, [thisName], none⟩

/-- The scope in which the methods of a derived class find the superclass. -/
def superclass : Scope := ⟨.superclass, [superName], none⟩

/-- The scope behind a declaration of a name. -/
def declare (sc : Scope) (name : String) : Scope :=
  { sc with names := name :: sc.names, pending := sc.pending.filter (· ≠ name) }

/-- The scope in the initializer of a variable. One that the scope has already is declared twice,
and can be read. -/
def begin (sc : Scope) (name : String) : Scope :=
  { sc with
    names := name :: sc.names
    pending := if name ∈ sc.names then sc.pending else some name }

@[simp] theorem kind_declare (sc : Scope) (name : String) : (sc.declare name).kind = sc.kind := rfl

@[simp] theorem names_declare (sc : Scope) (name : String) :
    (sc.declare name).names = name :: sc.names := rfl

@[simp] theorem kind_begin (sc : Scope) (name : String) : (sc.begin name).kind = sc.kind := rfl

@[simp] theorem names_begin (sc : Scope) (name : String) :
    (sc.begin name).names = name :: sc.names := rfl

end Scope

/-- The scopes around a point of the text, from the innermost out. Outside of all scopes, names are
global. -/
abbrev Context := List Scope

namespace Context

/-- The context behind a declaration of a name; globals are not tracked. -/
def declare (Γ : Context) (name : String) : Context :=
  match Γ with
  | [] => []
  | sc :: Γ => sc.declare name :: Γ

/-- The context in the initializer of a variable. -/
def begin (Γ : Context) (name : String) : Context :=
  match Γ with
  | [] => []
  | sc :: Γ => sc.begin name :: Γ

/-- How many scopes stand in front of the innermost one that has a name. -/
def distance? (Γ : Context) (name : String) : Option Nat := Γ.findIdx? (name ∈ ·.names)

/-- The innermost body around a point. -/
def bodyKind : Context → BodyKind
  | [] => .topLevel
  | ⟨.body kind, _, _⟩ :: _ => kind
  | _ :: Γ => bodyKind Γ

/-- The innermost class around a point. -/
def classKind : Context → ClassKind
  | [] => .outside
  | ⟨.receiver, _, _⟩ :: ⟨.superclass, _, _⟩ :: _ => .derived
  | ⟨.receiver, _, _⟩ :: _ => .base
  | _ :: Γ => classKind Γ

/-- The context of the methods of a class, without their own bodies. -/
def inClass (Γ : Context) (name : String) (derived : Bool) : Context :=
  .receiver :: ((if derived then [.superclass] else []) ++ declare Γ name)

end Context

variable {σ : Type}

/-- The names a statement declares in the scope it stands in. -/
def Stmt.declared : Stmt σ → List String
  | .var name _ | .function name _ _ | .classDecl name _ _ => [name.lexeme]
  | .cond _ yes none => yes.declared
  | .cond _ yes (some no) => yes.declared ++ no.declared
  | .loop _ body => body.declared
  | .expression _ | .print _ | .block _ | .ret _ _ => []

/-- A conditional whose branches declare nothing declares nothing. -/
theorem Stmt.declared_cond {test : Expr σ} {yes : Stmt σ} {no : Option (Stmt σ)}
    (hyes : yes.declared = []) (hno : ∀ s ∈ no, s.declared = []) :
    (Stmt.cond test yes no).declared = [] := by
  cases no with
  | none => exact hyes
  | some no => rw [Stmt.declared, hyes, hno no rfl, List.append_nil]

/-- The context behind a statement. -/
def Context.after (Γ : Context) (s : Stmt σ) : Context := s.declared.foldl declare Γ

/-- The context behind statements. -/
def Context.afterAll (Γ : Context) (ss : List (Stmt σ)) : Context := ss.foldl after Γ

namespace Context

/-- What declarations leave alone, statements leave alone. -/
theorem after_eq {α : Type} {f : Context → α} (h : ∀ Γ name, f (declare Γ name) = f Γ)
    (Γ : Context) (s : Stmt σ) : f (Γ.after s) = f Γ := by
  unfold after
  generalize s.declared = names
  induction names generalizing Γ with
  | nil => rfl
  | cons name names ih => exact (ih (Γ.declare name)).trans (h Γ name)

@[simp] theorem length_declare (Γ : Context) (name : String) :
    (Γ.declare name).length = Γ.length := by
  cases Γ <;> rfl

@[simp] theorem length_begin (Γ : Context) (name : String) : (Γ.begin name).length = Γ.length := by
  cases Γ <;> rfl

@[simp] theorem length_after (Γ : Context) (s : Stmt σ) : (Γ.after s).length = Γ.length :=
  after_eq length_declare Γ s

theorem tail_declare (Γ : Context) (name : String) : (Γ.declare name).tail = Γ.tail := by
  cases Γ <;> rfl

theorem tail_begin (Γ : Context) (name : String) : (Γ.begin name).tail = Γ.tail := by
  cases Γ <;> rfl

theorem tail_after (Γ : Context) (s : Stmt σ) : (Γ.after s).tail = Γ.tail :=
  after_eq tail_declare Γ s

end Context

/-- Marks do not matter for what a statement declares. -/
theorem Stmt.declared_map {τ : Type} (f : σ → τ) : ∀ s : Stmt σ, (s.map f).declared = s.declared
  | .var _ none | .var _ (some _) | .function .. | .classDecl .. => rfl
  | .cond _ yes none => yes.declared_map f
  | .cond _ yes (some no) => congrArg₂ (· ++ ·) (yes.declared_map f) (no.declared_map f)
  | .loop _ body => body.declared_map f
  | .expression _ | .print _ | .block _ | .ret _ none | .ret _ (some _) => rfl

theorem Context.after_map {τ : Type} (f : σ → τ) (Γ : Context) (s : Stmt σ) :
    Γ.after (s.map f) = Γ.after s := by
  rw [after, after, s.declared_map f]

/-- A node of a tree: an expression, a statement or the rest of a list of statements. -/
inductive Node (σ : Type)
  | expr (e : Expr σ)
  | stmt (s : Stmt σ)
  | stmts (ss : List (Stmt σ))

/-- The scope of a body with its parameters. -/
def Scope.ofParams (kind : BodyKind) (params : List Token) : Scope :=
  .body kind (params.map Token.lexeme)

/-- What the body of a method of a class is. A method named `init` is the initializer. -/
def Method.bodyKind (name : Token) : BodyKind :=
  if name.lexeme = "init" then .initializer else .method

/-- The walk tells initializers by their name too. -/
theorem BodyKind.ofMethod_eq (name : Token) : ofMethod name = Method.bodyKind name := rfl

/-- The body of a method in its context; `Γ` is that of the class. -/
def Method.node (Γ : Context) : Method σ → Context × Node σ
  | .mk name params body => (.ofParams (Method.bodyKind name) params :: Γ, .stmts body)

/-- The nodes directly below a node that stands in a context. The superclass a class names is read
like a variable. -/
def Node.children (Γ : Context) : Node σ → List (Context × Node σ)
  | .expr (.literal _) | .expr (.ref _) | .expr (.this _) | .expr (.super _ _) => []
  | .expr (.group e) | .expr (.unary _ e) | .expr (.get e _) | .expr (.assign _ e) =>
    [(Γ, .expr e)]
  | .expr (.binary _ a b) | .expr (.logical _ a b) | .expr (.set a _ b) =>
    [(Γ, .expr a), (Γ, .expr b)]
  | .expr (.call f _ args) => (Γ, .expr f) :: args.map fun e => (Γ, .expr e)
  | .expr (.lambda params body) => [(.ofParams .function params :: Γ, .stmts body)]
  | .stmt (.expression e) | .stmt (.print e) | .stmt (.ret _ (some e)) => [(Γ, .expr e)]
  | .stmt (.var name (some e)) => [(Γ.begin name.lexeme, .expr e)]
  | .stmt (.var _ none) | .stmt (.ret _ none) => []
  | .stmt (.block body) => [(.block :: Γ, .stmts body)]
  | .stmt (.cond e yes none) => [(Γ, .expr e), (Γ, .stmt yes)]
  | .stmt (.cond e yes (some no)) => [(Γ, .expr e), (Γ, .stmt yes), (Γ.after yes, .stmt no)]
  | .stmt (.loop e body) => [(Γ, .expr e), (Γ, .stmt body)]
  | .stmt (.function name params body) =>
    [(.ofParams .function params :: Γ.declare name.lexeme, .stmts body)]
  | .stmt (.classDecl name superclass methods) =>
    (superclass.toList.map fun s => (Γ.declare name.lexeme, .expr (.ref s))) ++
      methods.map (·.node (Γ.inClass name.lexeme superclass.isSome))
  | .stmts [] => []
  | .stmts (s :: ss) => [(Γ, .stmt s), (Γ.after s, .stmts ss)]

/-- A property holds of a node and of all nodes below it, each in its context. -/
inductive Node.Everywhere (P : Context → Node σ → Prop) : Context → Node σ → Prop
  | intro {Γ : Context} {node : Node σ} : P Γ node →
      (∀ p ∈ node.children Γ, Everywhere P p.1 p.2) → Everywhere P Γ node

namespace Node.Everywhere

variable {P Q : Context → Node σ → Prop} {Γ : Context} {node : Node σ}

theorem here (h : Everywhere P Γ node) : P Γ node := by
  cases h with
  | intro h _ => exact h

theorem child (h : Everywhere P Γ node) {Γ' : Context} {node' : Node σ}
    (hc : (Γ', node') ∈ node.children Γ) : Everywhere P Γ' node' := by
  cases h with
  | intro _ h => exact h _ hc

/-- A property holds everywhere in a tree if it holds at its root and everywhere in its parts. -/
theorem leaf (h : P Γ node) (hc : node.children Γ = []) : Everywhere P Γ node :=
  .intro h (by rw [hc]; exact List.forall_mem_nil _)

theorem one {Γ₁ : Context} {node₁ : Node σ}
    (h : P Γ node) (hc : node.children Γ = [(Γ₁, node₁)]) (h₁ : Everywhere P Γ₁ node₁) :
    Everywhere P Γ node :=
  .intro h (by rw [hc]; exact List.forall_mem_singleton.2 h₁)

theorem two {Γ₁ Γ₂ : Context} {node₁ node₂ : Node σ} (h : P Γ node)
    (hc : node.children Γ = [(Γ₁, node₁), (Γ₂, node₂)]) (h₁ : Everywhere P Γ₁ node₁)
    (h₂ : Everywhere P Γ₂ node₂) : Everywhere P Γ node :=
  .intro h (by
    rw [hc]
    exact List.forall_mem_cons.2 ⟨h₁, List.forall_mem_singleton.2 h₂⟩)

end Node.Everywhere

/-- The nodes of a line, each in its context. -/
inductive Line.Within (line : Line σ) : Context → Node σ → Prop
  | statements : Within line [] (.stmts line.statements)
  | trailing {e : Expr σ} : line.trailing = some e → Within line [] (.expr e)
  | child {Γ Γ' : Context} {node node' : Node σ} : Within line Γ node →
      (Γ', node') ∈ node.children Γ → Within line Γ' node'

/-- A property holds of all nodes of a line. -/
def Line.Everywhere (P : Context → Node σ → Prop) (line : Line σ) : Prop :=
  Node.Everywhere P [] (.stmts line.statements) ∧
    ∀ e, line.trailing = some e → Node.Everywhere P [] (.expr e)

/-- What holds everywhere in a line holds below each of its nodes. -/
theorem Line.Everywhere.within {P : Context → Node σ → Prop} {line : Line σ}
    (h : line.Everywhere P) {Γ : Context} {node : Node σ} (hw : line.Within Γ node) :
    Node.Everywhere P Γ node := by
  induction hw with
  | statements => exact h.1
  | trailing he => exact h.2 _ he
  | child _ hc ih => exact ih.child hc

end LoxLang
