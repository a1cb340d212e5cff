import LoxLang.Proofs.Scope.Context

/-!
# Linking by the text

A site can be linked from the text alone: its scope is the innermost one around it in which its name
is already declared at that point, and it is told by its nesting level, which does not depend on
where the site stands (`Scopes.level?`). A site whose name is declared in no scope around it belongs
to the global of that name. A variable is declared before its initializer, a function and a class
before their bodies.
-/

namespace LoxLang

/-- The names declared so far in the scopes around a point of the text, from the innermost out. -/
abbrev Scopes := List (List String)

namespace Scopes

/-- The nesting level of the innermost scope in which a name is declared; the outermost scope has
level `0`. -/
def level? : Scopes → String → Option Nat
  | [], _ => none
  | names :: outer, name => if name ∈ names then some outer.length else level? outer name

/-- The scopes behind a declaration; a name that is declared outside of all scopes is global. -/
def declare : Scopes → String → Scopes
  | [], _ => []
  | names :: outer, name => (name :: names) :: outer

/-- The scopes behind a statement. -/
def after {σ : Type} (scopes : Scopes) (s : Stmt σ) : Scopes := s.declared.foldl declare scopes

/-- The scopes around the methods of a class. -/
def inClass (scopes : Scopes) (name : String) (derived : Bool) : Scopes :=
  [thisName] :: ((if derived then [[superName]] else []) ++ scopes.declare name)

end Scopes

variable {σ τ : Type}

/-- Links a site with the level of its scope. -/
def Site.linkIn (scopes : Scopes) (s : Site σ) : Site (Option Nat) :=
  ⟨scopes.level? s.name.lexeme, s.name⟩

mutual

/-- Links the sites of an expression. -/
def Expr.linkIn (scopes : Scopes) : Expr σ → Expr (Option Nat)
  | .literal v => .literal v
  | .group e => .group (e.linkIn scopes)
  | .unary op e => .unary op (e.linkIn scopes)
  | .binary op a b => .binary op (a.linkIn scopes) (b.linkIn scopes)
  | .logical op a b => .logical op (a.linkIn scopes) (b.linkIn scopes)
  | .ref s => .ref (s.linkIn scopes)
  | .assign s e => .assign (s.linkIn scopes) (e.linkIn scopes)
  | .call e paren args => .call (e.linkIn scopes) paren (Expr.linkAllIn scopes args)
  | .get e name => .get (e.linkIn scopes) name
  | .set e name v => .set (e.linkIn scopes) name (v.linkIn scopes)
  | .this s => .this (s.linkIn scopes)
  | .super s m => .super (s.linkIn scopes) m
  | .lambda params body => .lambda params (Stmt.linkAllIn (params.map Token.lexeme :: scopes) body)

/-- Links the sites of expressions. -/
def Expr.linkAllIn (scopes : Scopes) : List (Expr σ) → List (Expr (Option Nat))
  | [] => []
  | e :: es => e.linkIn scopes :: Expr.linkAllIn scopes es

/-- Links the sites of a statement. -/
def Stmt.linkIn (scopes : Scopes) : Stmt σ → Stmt (Option Nat)
  | .expression e => .expression (e.linkIn scopes)
  | .print e => .print (e.linkIn scopes)
  | .var name none => .var name none
  | .var name (some e) => .var name (some (e.linkIn (scopes.declare name.lexeme)))
  | .block body => .block (Stmt.linkAllIn ([] :: scopes) body)
  | .cond e yes none => .cond (e.linkIn scopes) (yes.linkIn scopes) none
  | .cond e yes (some no) =>
    .cond (e.linkIn scopes) (yes.linkIn scopes) (some (no.linkIn (scopes.after yes)))
  | .loop e body => .loop (e.linkIn scopes) (body.linkIn scopes)
  | .function name params body =>
    .function name params
      (Stmt.linkAllIn (params.map Token.lexeme :: scopes.declare name.lexeme) body)
  | .ret keyword none => .ret keyword none
  | .ret keyword (some e) => .ret keyword (some (e.linkIn scopes))
  | .classDecl name superclass methods =>
    .classDecl name (superclass.map (Site.linkIn (scopes.declare name.lexeme)))
      (Method.linkAllIn (scopes.inClass name.lexeme superclass.isSome) methods)

/-- Links the sites of statements in order, each in the scopes behind the ones before it. -/
def Stmt.linkAllIn (scopes : Scopes) : List (Stmt σ) → List (Stmt (Option Nat))
  | [] => []
  | s :: ss => s.linkIn scopes :: Stmt.linkAllIn (scopes.after s) ss

/-- Links the sites of the methods of a class. -/
def Method.linkAllIn (scopes : Scopes) : List (Method σ) → List (Method (Option Nat))
  | [] => []
  | .mk name params body :: ms =>
    .mk name params (Stmt.linkAllIn (params.map Token.lexeme :: scopes) body) ::
      Method.linkAllIn scopes ms

end

/-- Links the sites of a line. -/
def Line.linkByText (line : Line σ) : Line (Option Nat) :=
  ⟨Stmt.linkAllIn [] line.statements, line.trailing.map (Expr.linkIn [])⟩

/-! ## Marks do not matter -/

theorem Scopes.after_map (f : σ → τ) (scopes : Scopes) (s : Stmt σ) :
    scopes.after (s.map f) = scopes.after s := by
  rw [after, after, s.declared_map f]

mutual

/-- Linking by the text does not look at marks. -/
theorem Expr.linkIn_map (f : σ → τ) : ∀ (scopes : Scopes) (e : Expr σ),
    (e.map f).linkIn scopes = e.linkIn scopes
  | _, .literal _ | _, .ref _ | _, .this _ | _, .super _ _ => rfl
  | scopes, .group e => congrArg Expr.group (e.linkIn_map f scopes)
  | scopes, .unary op e => congrArg (Expr.unary op) (e.linkIn_map f scopes)
  | scopes, .binary op a b =>
    congrArg₂ (Expr.binary op) (a.linkIn_map f scopes) (b.linkIn_map f scopes)
  | scopes, .logical op a b =>
    congrArg₂ (Expr.logical op) (a.linkIn_map f scopes) (b.linkIn_map f scopes)
  | scopes, .assign s e => congrArg (Expr.assign (s.linkIn scopes)) (e.linkIn_map f scopes)
  | scopes, .call e paren args =>
    congrArg₂ (Expr.call · paren ·) (e.linkIn_map f scopes) (Expr.linkAllIn_map f scopes args)
  | scopes, .get e name => congrArg (Expr.get · name) (e.linkIn_map f scopes)
  | scopes, .set e name v =>
    congrArg₂ (Expr.set · name ·) (e.linkIn_map f scopes) (v.linkIn_map f scopes)
  | _, .lambda params body => congrArg (Expr.lambda params) (Stmt.linkAllIn_map f _ body)

theorem Expr.linkAllIn_map (f : σ → τ) : ∀ (scopes : Scopes) (es : List (Expr σ)),
    Expr.linkAllIn scopes (Expr.mapAll f es) = Expr.linkAllIn scopes es
  | _, [] => rfl
  | scopes, e :: es =>
    congrArg₂ List.cons (e.linkIn_map f scopes) (Expr.linkAllIn_map f scopes es)

theorem Stmt.linkIn_map (f : σ → τ) : ∀ (scopes : Scopes) (s : Stmt σ),
    (s.map f).linkIn scopes = s.linkIn scopes
  | scopes, .expression e => congrArg Stmt.expression (e.linkIn_map f scopes)
  | scopes, .print e => congrArg Stmt.print (e.linkIn_map f scopes)
  | _, .var _ none | _, .ret _ none => rfl
  | scopes, .var name (some e) =>
    congrArg (Stmt.var name <| some ·) (e.linkIn_map f (scopes.declare name.lexeme))
  | scopes, .block body => congrArg Stmt.block (Stmt.linkAllIn_map f _ body)
  | scopes, .cond e yes none =>
    congrArg₂ (Stmt.cond · · none) (e.linkIn_map f scopes) (yes.linkIn_map f scopes)
  | scopes, .cond e yes (some no) => by
    have hno := no.linkIn_map f (scopes.after yes)
    rw [← scopes.after_map f yes] at hno
    change Stmt.cond _ _ _ = Stmt.cond _ _ _
    rw [e.linkIn_map f scopes, yes.linkIn_map f scopes, hno, scopes.after_map f yes]
  | scopes, .loop e body =>
    congrArg₂ Stmt.loop (e.linkIn_map f scopes) (body.linkIn_map f scopes)
  | scopes, .function name params body =>
    congrArg (Stmt.function name params) (Stmt.linkAllIn_map f _ body)
  | scopes, .ret keyword (some e) =>
    congrArg (Stmt.ret keyword <| some ·) (e.linkIn_map f scopes)
  | scopes, .classDecl name none methods =>
    congrArg (Stmt.classDecl name none) (Method.linkAllIn_map f _ methods)
  | scopes, .classDecl name (some s) methods =>
    congrArg (Stmt.classDecl name _) (Method.linkAllIn_map f _ methods)

theorem Stmt.linkAllIn_map (f : σ → τ) : ∀ (scopes : Scopes) (ss : List (Stmt σ)),
    Stmt.linkAllIn scopes (Stmt.mapAll f ss) = Stmt.linkAllIn scopes ss
  | _, [] => rfl
  | scopes, s :: ss => by
    have hss := Stmt.linkAllIn_map f (scopes.after s) ss
    rw [← scopes.after_map f s] at hss
    change _ :: _ = _ :: _
    rw [s.linkIn_map f scopes, hss, scopes.after_map f s]

theorem Method.linkAllIn_map (f : σ → τ) : ∀ (scopes : Scopes) (ms : List (Method σ)),
    Method.linkAllIn scopes (Method.mapAll f ms) = Method.linkAllIn scopes ms
  | _, [] => rfl
  | scopes, .mk name params body :: ms =>
    congrArg₂ List.cons (congrArg (Method.mk name params) (Stmt.linkAllIn_map f _ body))
      (Method.linkAllIn_map f scopes ms)

end

theorem Line.linkByText_map (f : σ → τ) (line : Line σ) :
    (line.map f).linkByText = line.linkByText := by
  obtain ⟨ss, trailing⟩ := line
  have hss := Stmt.linkAllIn_map f [] ss
  cases trailing with
  | none => exact congrArg (Line.mk · none) hss
  | some e => exact congrArg₂ (Line.mk · <| some ·) hss (e.linkIn_map f [])

end LoxLang
