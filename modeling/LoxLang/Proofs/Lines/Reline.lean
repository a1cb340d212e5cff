import LoxLang.Tree.Label
import Mathlib.Logic.Basic

/-!
# Trees on other lines

A text that is moved down a page keeps its meaning; only the lines of its tokens change.
`Expr.reline f` moves each token of an expression from its line to the image of that line, and
nothing else. Two trees are the same up to lines if they agree once all lines are forgotten
(`Token.unplaced`). Labels and marks have nothing to do with lines, so labelling and mapping the
marks of a tree commute with moving it (`Stmt.labelAll_relineAll`, `Stmt.mapAll_relineAll`).
-/

namespace LoxLang

/-- The token on the image of its line. -/
def Token.reline (f : Nat → Nat) (t : Token) : Token := { t with line := f t.line }

@[simp] theorem Token.kind_reline (f : Nat → Nat) (t : Token) : (t.reline f).kind = t.kind := rfl

@[simp] theorem Token.lexeme_reline (f : Nat → Nat) (t : Token) : (t.reline f).lexeme = t.lexeme :=
  rfl

@[simp] theorem Token.isEnd_reline (f : Nat → Nat) (t : Token) : (t.reline f).isEnd = t.isEnd := rfl

@[simp] theorem Token.reline_id (t : Token) : t.reline id = t := rfl

variable {σ τ : Type}

/-- The site with its token on the image of its line. -/
def Site.reline (f : Nat → Nat) (s : Site σ) : Site σ := ⟨s.mark, s.name.reline f⟩

mutual

/-- The expression with each token on the image of its line. -/
def Expr.reline (f : Nat → Nat) : Expr σ → Expr σ
  | .literal v => .literal v
  | .group e => .group (e.reline f)
  | .unary op e => .unary (op.reline f) (e.reline f)
  | .binary op l r => .binary (op.reline f) (l.reline f) (r.reline f)
  | .logical op l r => .logical (op.reline f) (l.reline f) (r.reline f)
  | .ref s => .ref (s.reline f)
  | .assign s e => .assign (s.reline f) (e.reline f)
  | .call e paren args => .call (e.reline f) (paren.reline f) (Expr.relineAll f args)
  | .get e name => .get (e.reline f) (name.reline f)
  | .set e name v => .set (e.reline f) (name.reline f) (v.reline f)
  | .this s => .this (s.reline f)
  | .super s m => .super (s.reline f) (m.reline f)
  | .lambda params body => .lambda (params.map (Token.reline f)) (Stmt.relineAll f body)

/-- The expressions with each token on the image of its line. -/
def Expr.relineAll (f : Nat → Nat) : List (Expr σ) → List (Expr σ)
  | [] => []
  | e :: es => e.reline f :: Expr.relineAll f es

/-- The statement with each token on the image of its line. -/
def Stmt.reline (f : Nat → Nat) : Stmt σ → Stmt σ
  | .expression e => .expression (e.reline f)
  | .print e => .print (e.reline f)
  | .var name none => .var (name.reline f) none
  | .var name (some e) => .var (name.reline f) (some (e.reline f))
  | .block body => .block (Stmt.relineAll f body)
  | .cond e yes none => .cond (e.reline f) (yes.reline f) none
  | .cond e yes (some no) => .cond (e.reline f) (yes.reline f) (some (no.reline f))
  | .loop e body => .loop (e.reline f) (body.reline f)
  | .function name params body =>
    .function (name.reline f) (params.map (Token.reline f)) (Stmt.relineAll f body)
  | .ret keyword none => .ret (keyword.reline f) none
  | .ret keyword (some e) => .ret (keyword.reline f) (some (e.reline f))
  | .classDecl name superclass methods =>
    .classDecl (name.reline f) (superclass.map (Site.reline f)) (Method.relineAll f methods)

/-- The statements with each token on the image of its line. -/
def Stmt.relineAll (f : Nat → Nat) : List (Stmt σ) → List (Stmt σ)
  | [] => []
  | s :: ss => s.reline f :: Stmt.relineAll f ss

/-- The methods with each token on the image of its line. -/
def Method.relineAll (f : Nat → Nat) : List (Method σ) → List (Method σ)
  | [] => []
  | .mk name params body :: ms =>
    .mk (name.reline f) (params.map (Token.reline f)) (Stmt.relineAll f body) ::
      Method.relineAll f ms

end

/-! ## Trees that stay where they are -/

theorem map_reline_id (ts : List Token) : ts.map (Token.reline id) = ts :=
  List.map_id ts

theorem map_site_reline_id (s : Option (Site σ)) : s.map (Site.reline id) = s := by
  cases s <;> rfl

mutual

theorem Expr.reline_id : ∀ e : Expr σ, e.reline id = e
  | .literal _ | .ref _ | .this _ | .super _ _ => rfl
  | .group e => congrArg Expr.group e.reline_id
  | .unary op e => congrArg (Expr.unary op) e.reline_id
  | .binary op l r => congrArg₂ (Expr.binary op) l.reline_id r.reline_id
  | .logical op l r => congrArg₂ (Expr.logical op) l.reline_id r.reline_id
  | .assign s e => congrArg (Expr.assign s) e.reline_id
  | .call e paren args => congrArg₂ (Expr.call · paren) e.reline_id (Expr.relineAll_id args)
  | .get e name => congrArg (Expr.get · name) e.reline_id
  | .set e name v => congrArg₂ (Expr.set · name) e.reline_id v.reline_id
  | .lambda params body => congrArg₂ Expr.lambda (map_reline_id params) (Stmt.relineAll_id body)

theorem Expr.relineAll_id : ∀ es : List (Expr σ), Expr.relineAll id es = es
  | [] => rfl
  | e :: es => congrArg₂ List.cons e.reline_id (Expr.relineAll_id es)

theorem Stmt.reline_id : ∀ s : Stmt σ, s.reline id = s
  | .expression e => congrArg Stmt.expression e.reline_id
  | .print e => congrArg Stmt.print e.reline_id
  | .var _ none | .ret _ none => rfl
  | .var name (some e) => congrArg (Stmt.var name <| some ·) e.reline_id
  | .block body => congrArg Stmt.block (Stmt.relineAll_id body)
  | .cond e yes none => congrArg₂ (Stmt.cond · · none) e.reline_id yes.reline_id
  | .cond e yes (some no) => by
    rw [Stmt.reline, e.reline_id, yes.reline_id, no.reline_id]
  | .loop e body => congrArg₂ Stmt.loop e.reline_id body.reline_id
  | .function name params body =>
    congrArg₂ (Stmt.function name) (map_reline_id params) (Stmt.relineAll_id body)
  | .ret keyword (some e) => congrArg (Stmt.ret keyword <| some ·) e.reline_id
  | .classDecl name superclass methods =>
    congrArg₂ (Stmt.classDecl name) (map_site_reline_id superclass) (Method.relineAll_id methods)

theorem Stmt.relineAll_id : ∀ ss : List (Stmt σ), Stmt.relineAll id ss = ss
  | [] => rfl
  | s :: ss => congrArg₂ List.cons s.reline_id (Stmt.relineAll_id ss)

theorem Method.relineAll_id : ∀ ms : List (Method σ), Method.relineAll id ms = ms
  | [] => rfl
  | .mk name params body :: ms => congrArg₂ List.cons
    (congrArg₂ (Method.mk name) (map_reline_id params) (Stmt.relineAll_id body))
    (Method.relineAll_id ms)

end

/-! ## Trees that are moved twice -/

theorem map_reline_map_reline (f g : Nat → Nat) (ts : List Token) :
    (ts.map (Token.reline f)).map (Token.reline g) = ts.map (Token.reline (g ∘ f)) :=
  List.map_map

theorem map_site_reline_map_reline (f g : Nat → Nat) (s : Option (Site σ)) :
    (s.map (Site.reline f)).map (Site.reline g) = s.map (Site.reline (g ∘ f)) := by
  cases s <;> rfl

mutual

theorem Expr.reline_reline (f g : Nat → Nat) : ∀ e : Expr σ,
    (e.reline f).reline g = e.reline (g ∘ f)
  | .literal _ | .ref _ | .this _ | .super _ _ => rfl
  | .group e => congrArg Expr.group (e.reline_reline f g)
  | .unary _ e => congrArg (Expr.unary _) (e.reline_reline f g)
  | .binary _ l r => congrArg₂ (Expr.binary _) (l.reline_reline f g) (r.reline_reline f g)
  | .logical _ l r => congrArg₂ (Expr.logical _) (l.reline_reline f g) (r.reline_reline f g)
  | .assign _ e => congrArg (Expr.assign _) (e.reline_reline f g)
  | .call e _ args =>
    congrArg₂ (Expr.call · _) (e.reline_reline f g) (Expr.relineAll_relineAll f g args)
  | .get e _ => congrArg (Expr.get · _) (e.reline_reline f g)
  | .set e _ v => congrArg₂ (Expr.set · _) (e.reline_reline f g) (v.reline_reline f g)
  | .lambda params body =>
    congrArg₂ Expr.lambda (map_reline_map_reline f g params) (Stmt.relineAll_relineAll f g body)

theorem Expr.relineAll_relineAll (f g : Nat → Nat) : ∀ es : List (Expr σ),
    Expr.relineAll g (Expr.relineAll f es) = Expr.relineAll (g ∘ f) es
  | [] => rfl
  | e :: es => congrArg₂ List.cons (e.reline_reline f g) (Expr.relineAll_relineAll f g es)

theorem Stmt.reline_reline (f g : Nat → Nat) : ∀ s : Stmt σ,
    (s.reline f).reline g = s.reline (g ∘ f)
  | .expression e => congrArg Stmt.expression (e.reline_reline f g)
  | .print e => congrArg Stmt.print (e.reline_reline f g)
  | .var _ none | .ret _ none => rfl
  | .var _ (some e) => congrArg (Stmt.var _ <| some ·) (e.reline_reline f g)
  | .block body => congrArg Stmt.block (Stmt.relineAll_relineAll f g body)
  | .cond e yes none =>
    congrArg₂ (Stmt.cond · · none) (e.reline_reline f g) (yes.reline_reline f g)
  | .cond e yes (some no) => by
    simp only [Stmt.reline, e.reline_reline f g, yes.reline_reline f g, no.reline_reline f g]
  | .loop e body => congrArg₂ Stmt.loop (e.reline_reline f g) (body.reline_reline f g)
  | .function _ params body => congrArg₂ (Stmt.function _) (map_reline_map_reline f g params)
    (Stmt.relineAll_relineAll f g body)
  | .ret _ (some e) => congrArg (Stmt.ret _ <| some ·) (e.reline_reline f g)
  | .classDecl _ superclass methods => congrArg₂ (Stmt.classDecl _)
    (map_site_reline_map_reline f g superclass) (Method.relineAll_relineAll f g methods)

theorem Stmt.relineAll_relineAll (f g : Nat → Nat) : ∀ ss : List (Stmt σ),
    Stmt.relineAll g (Stmt.relineAll f ss) = Stmt.relineAll (g ∘ f) ss
  | [] => rfl
  | s :: ss => congrArg₂ List.cons (s.reline_reline f g) (Stmt.relineAll_relineAll f g ss)

theorem Method.relineAll_relineAll (f g : Nat → Nat) : ∀ ms : List (Method σ),
    Method.relineAll g (Method.relineAll f ms) = Method.relineAll (g ∘ f) ms
  | [] => rfl
  | .mk _ params body :: ms => congrArg₂ List.cons
    (congrArg₂ (Method.mk _) (map_reline_map_reline f g params)
      (Stmt.relineAll_relineAll f g body))
    (Method.relineAll_relineAll f g ms)

end

/-! ## Labels, marks and declarations -/

mutual

theorem Expr.label_reline (f : Nat → Nat) : ∀ (e : Expr σ) (n : Nat),
    (e.reline f).label n = ((e.label n).1.reline f, (e.label n).2)
  | .literal _, _ | .ref _, _ | .this _, _ | .super _ _, _ => rfl
  | .group e, n | .unary _ e, n | .get e _, n => by
    simp only [Expr.reline, Expr.label, e.label_reline f n]
  | .binary _ l r, n | .logical _ l r, n | .set l _ r, n => by
    simp only [Expr.reline, Expr.label, l.label_reline f n, r.label_reline f]
  | .assign s e, n => by
    simp only [Expr.reline, Expr.label, e.label_reline f]
    rfl
  | .call e _ args, n => by
    simp only [Expr.reline, Expr.label, e.label_reline f n, Expr.labelAll_relineAll f args]
  | .lambda _ body, n => by simp only [Expr.reline, Expr.label, Stmt.labelAll_relineAll f body n]

theorem Expr.labelAll_relineAll (f : Nat → Nat) : ∀ (es : List (Expr σ)) (n : Nat),
    Expr.labelAll (Expr.relineAll f es) n =
      (Expr.relineAll f (Expr.labelAll es n).1, (Expr.labelAll es n).2)
  | [], _ => rfl
  | e :: es, n => by
    simp only [Expr.relineAll, Expr.labelAll, e.label_reline f n, Expr.labelAll_relineAll f es]

theorem Stmt.label_reline (f : Nat → Nat) : ∀ (s : Stmt σ) (n : Nat),
    (s.reline f).label n = ((s.label n).1.reline f, (s.label n).2)
  | .var _ none, _ | .ret _ none, _ => rfl
  | .expression e, n | .print e, n | .var _ (some e), n | .ret _ (some e), n => by
    simp only [Stmt.reline, Stmt.label, e.label_reline f n]
  | .block body, n | .function _ _ body, n => by
    simp only [Stmt.reline, Stmt.label, Stmt.labelAll_relineAll f body n]
  | .cond e yes none, n => by
    simp only [Stmt.reline, Stmt.label, e.label_reline f n, yes.label_reline f]
  | .cond e yes (some no), n => by
    simp only [Stmt.reline, Stmt.label, e.label_reline f n, yes.label_reline f, no.label_reline f]
  | .loop e body, n => by
    simp only [Stmt.reline, Stmt.label, e.label_reline f n, body.label_reline f]
  | .classDecl _ none methods, n => by
    simp only [Stmt.reline, Stmt.label, Method.labelAll_relineAll f methods, Option.map_none]
  | .classDecl _ (some s) methods, n => by
    simp only [Stmt.reline, Stmt.label, Method.labelAll_relineAll f methods, Option.map_some]
    rfl

theorem Stmt.labelAll_relineAll (f : Nat → Nat) : ∀ (ss : List (Stmt σ)) (n : Nat),
    Stmt.labelAll (Stmt.relineAll f ss) n =
      (Stmt.relineAll f (Stmt.labelAll ss n).1, (Stmt.labelAll ss n).2)
  | [], _ => rfl
  | s :: ss, n => by
    simp only [Stmt.relineAll, Stmt.labelAll, s.label_reline f n, Stmt.labelAll_relineAll f ss]

theorem Method.labelAll_relineAll (f : Nat → Nat) : ∀ (ms : List (Method σ)) (n : Nat),
    Method.labelAll (Method.relineAll f ms) n =
      (Method.relineAll f (Method.labelAll ms n).1, (Method.labelAll ms n).2)
  | [], _ => rfl
  | .mk _ _ body :: ms, n => by
    simp only [Method.relineAll, Method.labelAll, Stmt.labelAll_relineAll f body n,
      Method.labelAll_relineAll f ms]

end

mutual

theorem Expr.map_reline (f : Nat → Nat) (g : σ → τ) : ∀ e : Expr σ,
    (e.reline f).map g = (e.map g).reline f
  | .literal _ | .ref _ | .this _ | .super _ _ => rfl
  | .group e | .unary _ e | .get e _ => by simp only [Expr.reline, Expr.map, e.map_reline f g]
  | .assign s e => congrArg (Expr.assign ((s.map g).reline f)) (e.map_reline f g)
  | .binary _ l r | .logical _ l r | .set l _ r => by
    simp only [Expr.reline, Expr.map, l.map_reline f g, r.map_reline f g]
  | .call e _ args => by
    simp only [Expr.reline, Expr.map, e.map_reline f g, Expr.mapAll_relineAll f g args]
  | .lambda _ body => by simp only [Expr.reline, Expr.map, Stmt.mapAll_relineAll f g body]

theorem Expr.mapAll_relineAll (f : Nat → Nat) (g : σ → τ) : ∀ es : List (Expr σ),
    Expr.mapAll g (Expr.relineAll f es) = Expr.relineAll f (Expr.mapAll g es)
  | [] => rfl
  | e :: es => congrArg₂ List.cons (e.map_reline f g) (Expr.mapAll_relineAll f g es)

theorem Stmt.map_reline (f : Nat → Nat) (g : σ → τ) : ∀ s : Stmt σ,
    (s.reline f).map g = (s.map g).reline f
  | .var _ none | .ret _ none => rfl
  | .expression e | .print e | .var _ (some e) | .ret _ (some e) => by
    simp only [Stmt.reline, Stmt.map, e.map_reline f g]
  | .block body | .function _ _ body => by
    simp only [Stmt.reline, Stmt.map, Stmt.mapAll_relineAll f g body]
  | .cond e yes none => by simp only [Stmt.reline, Stmt.map, e.map_reline f g, yes.map_reline f g]
  | .cond e yes (some no) => by
    simp only [Stmt.reline, Stmt.map, e.map_reline f g, yes.map_reline f g, no.map_reline f g]
  | .loop e body => by simp only [Stmt.reline, Stmt.map, e.map_reline f g, body.map_reline f g]
  | .classDecl _ superclass methods => by
    simp only [Stmt.reline, Stmt.map, Method.mapAll_relineAll f g methods, Option.map_map]
    rfl

theorem Stmt.mapAll_relineAll (f : Nat → Nat) (g : σ → τ) : ∀ ss : List (Stmt σ),
    Stmt.mapAll g (Stmt.relineAll f ss) = Stmt.relineAll f (Stmt.mapAll g ss)
  | [] => rfl
  | s :: ss => congrArg₂ List.cons (s.map_reline f g) (Stmt.mapAll_relineAll f g ss)

theorem Method.mapAll_relineAll (f : Nat → Nat) (g : σ → τ) : ∀ ms : List (Method σ),
    Method.mapAll g (Method.relineAll f ms) = Method.relineAll f (Method.mapAll g ms)
  | [] => rfl
  | .mk name params body :: ms => congrArg₂ List.cons
    (congrArg (Method.mk (name.reline f) (params.map (Token.reline f)))
      (Stmt.mapAll_relineAll f g body)) (Method.mapAll_relineAll f g ms)

end

end LoxLang
