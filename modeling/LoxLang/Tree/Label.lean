import LoxLang.Tree

/-!
# Marks of a tree

`Expr.label` numbers the sites of a tree consecutively in the order in which they stand in the text
of the tree: an assignment's own site before those of its value, a superclass before the methods.
The numbers tell the sites apart and nothing else. `Expr.map` replaces each mark by its image.
-/

namespace LoxLang

/-- Numbers a site with the next free number. -/
def Site.label {σ : Type} (s : Site σ) (next : Nat) : Site Nat × Nat :=
  (⟨next, s.name⟩, next + 1)

/-- Replaces the mark of a site by its image. -/
def Site.map {σ τ : Type} (f : σ → τ) (s : Site σ) : Site τ := ⟨f s.mark, s.name⟩

variable {σ : Type}

mutual

/-- Numbers the sites of an expression from `next` on; also returns the next free number. -/
def Expr.label (e : Expr σ) (next : Nat) : Expr Nat × Nat :=
  match e with
  | .literal v => (.literal v, next)
  | .group e => let (e, next) := e.label next; (.group e, next)
  | .unary op e => let (e, next) := e.label next; (.unary op e, next)
  | .binary op l r =>
    let (l, next) := l.label next
    let (r, next) := r.label next
    (.binary op l r, next)
  | .logical op l r =>
    let (l, next) := l.label next
    let (r, next) := r.label next
    (.logical op l r, next)
  | .ref s => let (s, next) := s.label next; (.ref s, next)
  | .assign s e =>
    let (s, next) := s.label next
    let (e, next) := e.label next
    (.assign s e, next)
  | .call f paren args =>
    let (f, next) := f.label next
    let (args, next) := Expr.labelAll args next
    (.call f paren args, next)
  | .get e name => let (e, next) := e.label next; (.get e name, next)
  | .set e name v =>
    let (e, next) := e.label next
    let (v, next) := v.label next
    (.set e name v, next)
  | .this s => let (s, next) := s.label next; (.this s, next)
  | .super s m => let (s, next) := s.label next; (.super s m, next)
  | .lambda params body =>
    let (body, next) := Stmt.labelAll body next
    (.lambda params body, next)

/-- Numbers the sites of a list of expressions. -/
def Expr.labelAll (es : List (Expr σ)) (next : Nat) : List (Expr Nat) × Nat :=
  match es with
  | [] => ([], next)
  | e :: es =>
    let (e, next) := e.label next
    let (es, next) := Expr.labelAll es next
    (e :: es, next)

/-- Numbers the sites of a statement from `next` on; also returns the next free number. -/
def Stmt.label (s : Stmt σ) (next : Nat) : Stmt Nat × Nat :=
  match s with
  | .expression e => let (e, next) := e.label next; (.expression e, next)
  | .print e => let (e, next) := e.label next; (.print e, next)
  | .var name none => (.var name none, next)
  | .var name (some e) => let (e, next) := e.label next; (.var name (some e), next)
  | .block body => let (body, next) := Stmt.labelAll body next; (.block body, next)
  | .cond e yes none =>
    let (e, next) := e.label next
    let (yes, next) := yes.label next
    (.cond e yes none, next)
  | .cond e yes (some no) =>
    let (e, next) := e.label next
    let (yes, next) := yes.label next
    let (no, next) := no.label next
    (.cond e yes (some no), next)
  | .loop e body =>
    let (e, next) := e.label next
    let (body, next) := body.label next
    (.loop e body, next)
  | .function name params body =>
    let (body, next) := Stmt.labelAll body next
    (.function name params body, next)
  | .ret keyword none => (.ret keyword none, next)
  | .ret keyword (some e) => let (e, next) := e.label next; (.ret keyword (some e), next)
  | .classDecl name none methods =>
    let (methods, next) := Method.labelAll methods next
    (.classDecl name none methods, next)
  | .classDecl name (some s) methods =>
    let (s, next) := s.label next
    let (methods, next) := Method.labelAll methods next
    (.classDecl name (some s) methods, next)

/-- Numbers the sites of a list of statements. -/
def Stmt.labelAll (ss : List (Stmt σ)) (next : Nat) : List (Stmt Nat) × Nat :=
  match ss with
  | [] => ([], next)
  | s :: ss =>
    let (s, next) := s.label next
    let (ss, next) := Stmt.labelAll ss next
    (s :: ss, next)

/-- Numbers the sites of the methods of a class. -/
def Method.labelAll (ms : List (Method σ)) (next : Nat) : List (Method Nat) × Nat :=
  match ms with
  | [] => ([], next)
  | .mk name params body :: ms =>
    let (body, next) := Stmt.labelAll body next
    let (ms, next) := Method.labelAll ms next
    (.mk name params body :: ms, next)

end

/-- Numbers the sites of a line. -/
def Line.label (line : Line σ) (next : Nat) : Line Nat × Nat :=
  let (ss, next) := Stmt.labelAll line.statements next
  match line.trailing with
  | none => (⟨ss, none⟩, next)
  | some e => let (e, next) := e.label next; (⟨ss, some e⟩, next)

variable {τ : Type}

mutual

/-- The expression with each mark replaced by its image. -/
def Expr.map (f : σ → τ) : Expr σ → Expr τ
  | .literal v => .literal v
  | .group e => .group (e.map f)
  | .unary op e => .unary op (e.map f)
  | .binary op l r => .binary op (l.map f) (r.map f)
  | .logical op l r => .logical op (l.map f) (r.map f)
  | .ref s => .ref (s.map f)
  | .assign s e => .assign (s.map f) (e.map f)
  | .call e paren args => .call (e.map f) paren (Expr.mapAll f args)
  | .get e name => .get (e.map f) name
  | .set e name v => .set (e.map f) name (v.map f)
  | .this s => .this (s.map f)
  | .super s m => .super (s.map f) m
  | .lambda params body => .lambda params (Stmt.mapAll f body)

/-- The expressions with each mark replaced by its image. -/
def Expr.mapAll (f : σ → τ) : List (Expr σ) → List (Expr τ)
  | [] => []
  | e :: es => e.map f :: Expr.mapAll f es

/-- The statement with each mark replaced by its image. -/
def Stmt.map (f : σ → τ) : Stmt σ → Stmt τ
  | .expression e => .expression (e.map f)
  | .print e => .print (e.map f)
  | .var name none => .var name none
  | .var name (some e) => .var name (some (e.map f))
  | .block body => .block (Stmt.mapAll f body)
  | .cond e yes none => .cond (e.map f) (yes.map f) none
  | .cond e yes (some no) => .cond (e.map f) (yes.map f) (some (no.map f))
  | .loop e body => .loop (e.map f) (body.map f)
  | .function name params body => .function name params (Stmt.mapAll f body)
  | .ret keyword none => .ret keyword none
  | .ret keyword (some e) => .ret keyword (some (e.map f))
  | .classDecl name superclass methods =>
    .classDecl name (superclass.map (Site.map f)) (Method.mapAll f methods)

/-- The statements with each mark replaced by its image. -/
def Stmt.mapAll (f : σ → τ) : List (Stmt σ) → List (Stmt τ)
  | [] => []
  | s :: ss => s.map f :: Stmt.mapAll f ss

/-- The methods with each mark replaced by its image. -/
def Method.mapAll (f : σ → τ) : List (Method σ) → List (Method τ)
  | [] => []
  | .mk name params body :: ms => .mk name params (Stmt.mapAll f body) :: Method.mapAll f ms

end

/-- The line with each mark replaced by its image. -/
def Line.map (f : σ → τ) (line : Line σ) : Line τ :=
  ⟨Stmt.mapAll f line.statements, line.trailing.map (Expr.map f)⟩

end LoxLang
