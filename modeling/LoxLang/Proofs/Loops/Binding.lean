import LoxLang.Proofs.Lexical.Agreement

/-!
# Distances by the text

The distance of a site can be read off the text: it counts the scopes in front of the innermost one
around the site in which its name is already declared. So a bare tree can be linked in any scopes
one likes, not only in those that its place in a program gives it (`Stmt.bindIn`). Where resolving
has accepted a tree, its sites bear just these distances (`Stmt.bindIn_bare`).
-/

namespace LoxLang

/-- How many scopes stand in front of the innermost one that has a name. -/
def Scopes.distance? (scopes : Scopes) (name : String) : Option Nat :=
  scopes.findIdx? (name ∈ ·)

/-- Marks a site with its distance. -/
def Site.bindIn (scopes : Scopes) (s : Site Unit) : Site (Option Nat) :=
  ⟨scopes.distance? s.name.lexeme, s.name⟩

mutual

/-- Marks the sites of an expression with their distances in the scopes. -/
def Expr.bindIn (scopes : Scopes) : Expr Unit → Expr (Option Nat)
  | .literal v => .literal v
  | .group e => .group (e.bindIn scopes)
  | .unary op e => .unary op (e.bindIn scopes)
  | .binary op a b => .binary op (a.bindIn scopes) (b.bindIn scopes)
  | .logical op a b => .logical op (a.bindIn scopes) (b.bindIn scopes)
  | .ref s => .ref (s.bindIn scopes)
  | .assign s e => .assign (s.bindIn scopes) (e.bindIn scopes)
  | .call e paren args => .call (e.bindIn scopes) paren (Expr.bindAllIn scopes args)
  | .get e name => .get (e.bindIn scopes) name
  | .set e name v => .set (e.bindIn scopes) name (v.bindIn scopes)
  | .this s => .this (s.bindIn scopes)
  | .super s m => .super (s.bindIn scopes) m
  | .lambda params body => .lambda params (Stmt.bindAllIn (params.map Token.lexeme :: scopes) body)

/-- Marks the sites of expressions. -/
def Expr.bindAllIn (scopes : Scopes) : List (Expr Unit) → List (Expr (Option Nat))
  | [] => []
  | e :: es => e.bindIn scopes :: Expr.bindAllIn scopes es

/-- Marks the sites of a statement with their distances in the scopes. -/
def Stmt.bindIn (scopes : Scopes) : Stmt Unit → Code
  | .expression e => .expression (e.bindIn scopes)
  | .print e => .print (e.bindIn scopes)
  | .var name none => .var name none
  | .var name (some e) => .var name (some (e.bindIn (scopes.declare name.lexeme)))
  | .block body => .block (Stmt.bindAllIn ([] :: scopes) body)
  | .cond e yes none => .cond (e.bindIn scopes) (yes.bindIn scopes) none
  | .cond e yes (some no) =>
    .cond (e.bindIn scopes) (yes.bindIn scopes) (some (no.bindIn (scopes.after yes)))
  | .loop e body => .loop (e.bindIn scopes) (body.bindIn scopes)
  | .function name params body =>
    .function name params
      (Stmt.bindAllIn (params.map Token.lexeme :: scopes.declare name.lexeme) body)
  | .ret keyword none => .ret keyword none
  | .ret keyword (some e) => .ret keyword (some (e.bindIn scopes))
  | .classDecl name superclass methods =>
    .classDecl name (superclass.map (Site.bindIn (scopes.declare name.lexeme)))
      (Method.bindAllIn (scopes.inClass name.lexeme superclass.isSome) methods)

/-- Marks the sites of statements in order, each in the scopes behind the ones before it. -/
def Stmt.bindAllIn (scopes : Scopes) : List (Stmt Unit) → List Code
  | [] => []
  | s :: ss => s.bindIn scopes :: Stmt.bindAllIn (scopes.after s) ss

/-- Marks the sites of the methods of a class. -/
def Method.bindAllIn (scopes : Scopes) : List (Method Unit) → List (Method (Option Nat))
  | [] => []
  | .mk name params body :: ms =>
    .mk name params (Stmt.bindAllIn (params.map Token.lexeme :: scopes) body) ::
      Method.bindAllIn scopes ms

end

/-! ## Trees without their marks -/

variable {σ : Type}

/-- The expression as it was read. -/
abbrev Expr.bare (e : Expr σ) : Expr Unit := e.map fun _ => ()

/-- The expressions as they were read. -/
abbrev Expr.bareAll (es : List (Expr σ)) : List (Expr Unit) := Expr.mapAll (fun _ => ()) es

/-- The statement as it was read. -/
abbrev Stmt.bare (s : Stmt σ) : Stmt Unit := s.map fun _ => ()

/-- The statements as they were read. -/
abbrev Stmt.bareAll (ss : List (Stmt σ)) : List (Stmt Unit) := Stmt.mapAll (fun _ => ()) ss

/-- The methods as they were read. -/
abbrev Method.bareAll (ms : List (Method σ)) : List (Method Unit) := Method.mapAll (fun _ => ()) ms

/-! ## Resolving finds the distances of the text -/

theorem Context.distance?_names (Γ : Context) (name : String) :
    Γ.names.distance? name = Γ.distance? name := by
  unfold Context.names Scopes.distance? Context.distance?
  rw [List.findIdx?_map]
  rfl

theorem Site.bindIn_bare {Γ : Context} {s : Site (Option Nat)}
    (h : s.mark = Γ.distance? s.name.lexeme) : (s.map fun _ => ()).bindIn Γ.names = s := by
  obtain ⟨mark, name⟩ := s
  exact congrArg (Site.mk · name) ((Γ.distance?_names name.lexeme).trans h.symm)

theorem Scopes.after_bare (scopes : Scopes) (s : Stmt σ) : scopes.after s.bare = scopes.after s :=
  scopes.after_map _ s

/-- The scopes behind a statement, from its bare text. -/
theorem Context.names_after_bare (Γ : Context) (s : Stmt σ) :
    Γ.names.after s.bare = (Γ.after s).names := by
  rw [Scopes.after_bare, Context.names_after]

mutual

/-- The sites of an accepted expression bear the distances of the text. -/
theorem Expr.bindIn_bare {Γ : Context} : ∀ e : Expr (Option Nat),
    Node.Everywhere Node.Resolved Γ (.expr e) → e.bare.bindIn Γ.names = e
  | .literal _, _ => rfl
  | .group e, h => congrArg Expr.group (e.bindIn_bare (h.child (.head _)))
  | .unary op e, h => congrArg (Expr.unary op) (e.bindIn_bare (h.child (.head _)))
  | .binary op a b, h =>
    congrArg₂ (Expr.binary op) (a.bindIn_bare (h.child (.head _)))
      (b.bindIn_bare (h.child (.tail _ (.head _))))
  | .logical op a b, h =>
    congrArg₂ (Expr.logical op) (a.bindIn_bare (h.child (.head _)))
      (b.bindIn_bare (h.child (.tail _ (.head _))))
  | .ref _, h => congrArg Expr.ref (Site.bindIn_bare h.here.1)
  | .assign _ e, h =>
    congrArg₂ Expr.assign (Site.bindIn_bare h.here) (e.bindIn_bare (h.child (.head _)))
  | .call f paren args, h =>
    congrArg₂ (Expr.call · paren ·) (f.bindIn_bare (h.child (.head _)))
      (Expr.bindAllIn_bare args fun _ he =>
        h.child (List.mem_cons_of_mem _ (List.mem_map_of_mem he)))
  | .get e name, h => congrArg (Expr.get · name) (e.bindIn_bare (h.child (.head _)))
  | .set e name v, h =>
    congrArg₂ (Expr.set · name ·) (e.bindIn_bare (h.child (.head _)))
      (v.bindIn_bare (h.child (.tail _ (.head _))))
  | .this _, h => congrArg Expr.this (Site.bindIn_bare h.here.1)
  | .super _ m, h => congrArg (Expr.super · m) (Site.bindIn_bare h.here.1)
  | .lambda params body, h =>
    congrArg (Expr.lambda params) (Stmt.bindAllIn_bare body (h.child (.head _)))

theorem Expr.bindAllIn_bare {Γ : Context} : ∀ es : List (Expr (Option Nat)),
    (∀ e ∈ es, Node.Everywhere Node.Resolved Γ (.expr e)) →
    Expr.bindAllIn Γ.names (Expr.bareAll es) = es
  | [], _ => rfl
  | e :: es, h =>
    congrArg₂ List.cons (e.bindIn_bare (h e (.head _)))
      (Expr.bindAllIn_bare es fun e' he => h e' (.tail _ he))

/-- The sites of an accepted statement bear the distances of the text. -/
theorem Stmt.bindIn_bare {Γ : Context} : ∀ s : Code,
    Node.Everywhere Node.Resolved Γ (.stmt s) → s.bare.bindIn Γ.names = s
  | .expression e, h => congrArg Stmt.expression (e.bindIn_bare (h.child (.head _)))
  | .print e, h => congrArg Stmt.print (e.bindIn_bare (h.child (.head _)))
  | .var _ none, _ | .ret _ none, _ => rfl
  | .var name (some e), h => by
    have he := e.bindIn_bare (h.child (.head _))
    rw [Context.names_begin] at he
    exact congrArg (Stmt.var name <| some ·) he
  | .block body, h => congrArg Stmt.block (Stmt.bindAllIn_bare body (h.child (.head _)))
  | .cond e yes none, h =>
    congrArg₂ (Stmt.cond · · none) (e.bindIn_bare (h.child (.head _)))
      (yes.bindIn_bare (h.child (.tail _ (.head _))))
  | .cond e yes (some no), h => by
    have hno := no.bindIn_bare (h.child (.tail _ (.tail _ (.head _))))
    rw [← Context.names_after_bare] at hno
    change Stmt.cond _ _ _ = Stmt.cond _ _ _
    rw [e.bindIn_bare (h.child (.head _)), yes.bindIn_bare (h.child (.tail _ (.head _))), hno]
  | .loop e body, h =>
    congrArg₂ Stmt.loop (e.bindIn_bare (h.child (.head _)))
      (body.bindIn_bare (h.child (.tail _ (.head _))))
  | .function name params body, h => by
    have hbody := Stmt.bindAllIn_bare body (h.child (.head _))
    rw [Context.names_cons, Context.names_declare] at hbody
    exact congrArg (Stmt.function name params) hbody
  | .ret keyword (some e), h =>
    congrArg (Stmt.ret keyword <| some ·) (e.bindIn_bare (h.child (.head _)))
  | .classDecl name none methods, h => by
    have hms := Method.bindAllIn_bare methods fun _ hm => h.child (List.mem_map_of_mem hm)
    rw [Context.names_inClass] at hms
    exact congrArg (Stmt.classDecl name none) hms
  | .classDecl name (some s) methods, h => by
    have hs := Site.bindIn_bare (h.child (.head _)).here.1
    have hms := Method.bindAllIn_bare methods fun _ hm =>
      h.child (List.mem_cons_of_mem _ (List.mem_map_of_mem hm))
    rw [Context.names_declare] at hs
    rw [Context.names_inClass] at hms
    exact congrArg₂ (Stmt.classDecl name <| some ·) hs hms

theorem Stmt.bindAllIn_bare {Γ : Context} : ∀ ss : List Code,
    Node.Everywhere Node.Resolved Γ (.stmts ss) →
    Stmt.bindAllIn Γ.names (Stmt.bareAll ss) = ss
  | [], _ => rfl
  | s :: ss, h => by
    have hss := Stmt.bindAllIn_bare ss (h.child (.tail _ (.head _)))
    rw [← Context.names_after_bare] at hss
    exact congrArg₂ List.cons (s.bindIn_bare (h.child (.head _))) hss

theorem Method.bindAllIn_bare {Γ : Context} : ∀ ms : List (Method (Option Nat)),
    (∀ m ∈ ms, Node.Everywhere Node.Resolved (m.node Γ).1 (m.node Γ).2) →
    Method.bindAllIn Γ.names (Method.bareAll ms) = ms
  | [], _ => rfl
  | .mk name params body :: ms, h =>
    congrArg₂ List.cons
      (congrArg (Method.mk name params) (Stmt.bindAllIn_bare body (h _ (.head _))))
      (Method.bindAllIn_bare ms fun m hm => h m (.tail _ hm))

end

end LoxLang
