import LoxLang.Proofs.Grammar.Words
import LoxLang.Proofs.Session.Sources

/-!
# How a tree lies in the tokens

A phrase is a part of a tree that is read from a stretch of tokens of its own, and `Laid` relates
the two: which token stands where, of which kind, and which stretches the parts of the phrase are
read from. Other than the words of a tree it covers `for` loops, whose parts stand in the tokens in
another order than in the tree (`Laid.forLoop`). Every reading returns a tree that is laid in the
tokens that it has read (`Reading.laidOn`).
-/

namespace LoxLang

/-- A part of a tree that is read from a stretch of tokens. -/
inductive Phrase
  | expr (e : Expr Unit)
  | optional (o : Option (Expr Unit))
  | args (es : List (Expr Unit))
  | params (ps : List Token)
  | routine (params : List Token) (body : List (Stmt Unit))
  | stmt (s : Stmt Unit)
  | start (o : Option (Stmt Unit))
  | stmts (ss : List (Stmt Unit))
  | methods (ms : List (Method Unit))

/-- The phrase is read from the tokens. -/
inductive Laid : Phrase → List Token → Prop
  | literal {t : Token} {v : Literal} (ht : t.kind = v.kind) : Laid (.expr (.literal v)) [t]
  | group {l r : Token} {e : Expr Unit} {w : List Token} (hl : l.kind = .leftParen)
      (he : Laid (.expr e) w) (hr : r.kind = .rightParen) :
      Laid (.expr (.group e)) (l :: (w ++ [r]))
  | unary {op : Token} {e : Expr Unit} {w : List Token} (hop : op.kind = .bang ∨ op.kind = .minus)
      (he : Laid (.expr e) w) : Laid (.expr (.unary op e)) (op :: w)
  | binary {op : Token} {a b : Expr Unit} {u v : List Token} {level : Nat}
      (hop : op.kind.level? = some level) (hlevel : 2 ≤ level) (ha : Laid (.expr a) u)
      (hb : Laid (.expr b) v) : Laid (.expr (.binary op a b)) (u ++ op :: v)
  | logical {op : Token} {a b : Expr Unit} {u v : List Token}
      (hop : op.kind = .kwOr ∨ op.kind = .kwAnd) (ha : Laid (.expr a) u)
      (hb : Laid (.expr b) v) : Laid (.expr (.logical op a b)) (u ++ op :: v)
  | ref {t : Token} (ht : t.kind = .identifier) : Laid (.expr (.ref ⟨(), t⟩)) [t]
  | assign {t equals : Token} {e : Expr Unit} {w : List Token} (ht : t.kind = .identifier)
      (hequals : equals.kind = .equal) (he : Laid (.expr e) w) :
      Laid (.expr (.assign ⟨(), t⟩ e)) (t :: equals :: w)
  | call {l paren : Token} {f : Expr Unit} {es : List (Expr Unit)} {u v : List Token}
      (hf : Laid (.expr f) u) (hl : l.kind = .leftParen) (hes : Laid (.args es) v)
      (hparen : paren.kind = .rightParen) :
      Laid (.expr (.call f paren es)) (u ++ l :: (v ++ [paren]))
  | get {dot name : Token} {e : Expr Unit} {u : List Token} (he : Laid (.expr e) u)
      (hdot : dot.kind = .dot) (hname : name.kind = .identifier) :
      Laid (.expr (.get e name)) (u ++ [dot, name])
  | set {dot name equals : Token} {a b : Expr Unit} {u v : List Token} (ha : Laid (.expr a) u)
      (hdot : dot.kind = .dot) (hname : name.kind = .identifier) (hequals : equals.kind = .equal)
      (hb : Laid (.expr b) v) : Laid (.expr (.set a name b)) (u ++ dot :: name :: equals :: v)
  | this {t : Token} (ht : t.kind = .kwThis) : Laid (.expr (.this ⟨(), t⟩)) [t]
  | super {t dot method : Token} (ht : t.kind = .kwSuper) (hdot : dot.kind = .dot)
      (hmethod : method.kind = .identifier) :
      Laid (.expr (.super ⟨(), t⟩ method)) [t, dot, method]
  | lambda {t l : Token} {params : List Token} {body : List (Stmt Unit)} {w : List Token}
      (ht : t.kind = .kwFun) (hl : l.kind = .leftParen) (hroutine : Laid (.routine params body) w) :
      Laid (.expr (.lambda params body)) (t :: l :: w)
  | none : Laid (.optional .none) []
  | some {e : Expr Unit} {w : List Token} (he : Laid (.expr e) w) : Laid (.optional (.some e)) w
  | noArgs : Laid (.args []) []
  | oneArg {e : Expr Unit} {w : List Token} (he : Laid (.expr e) w) : Laid (.args [e]) w
  | moreArgs {comma : Token} {e e' : Expr Unit} {es : List (Expr Unit)} {u v : List Token}
      (he : Laid (.expr e) u) (hcomma : comma.kind = .comma) (hes : Laid (.args (e' :: es)) v) :
      Laid (.args (e :: e' :: es)) (u ++ comma :: v)
  | noParams : Laid (.params []) []
  | oneParam {p : Token} (hp : p.kind = .identifier) : Laid (.params [p]) [p]
  | moreParams {comma p p' : Token} {ps w : List Token} (hp : p.kind = .identifier)
      (hcomma : comma.kind = .comma) (hps : Laid (.params (p' :: ps)) w) :
      Laid (.params (p :: p' :: ps)) (p :: comma :: w)
  | routine {r left right : Token} {params : List Token} {body : List (Stmt Unit)}
      {u v : List Token} (hparams : Laid (.params params) u) (hr : r.kind = .rightParen)
      (hleft : left.kind = .leftBrace) (hbody : Laid (.stmts body) v)
      (hright : right.kind = .rightBrace) :
      Laid (.routine params body) (u ++ r :: left :: (v ++ [right]))
  | expression {semicolon : Token} {e : Expr Unit} {w : List Token} (he : Laid (.expr e) w)
      (hsemicolon : semicolon.kind = .semicolon) : Laid (.stmt (.expression e)) (w ++ [semicolon])
  | print {t semicolon : Token} {e : Expr Unit} {w : List Token} (ht : t.kind = .kwPrint)
      (he : Laid (.expr e) w) (hsemicolon : semicolon.kind = .semicolon) :
      Laid (.stmt (.print e)) (t :: (w ++ [semicolon]))
  | var {t name semicolon : Token} (ht : t.kind = .kwVar) (hname : name.kind = .identifier)
      (hsemicolon : semicolon.kind = .semicolon) :
      Laid (.stmt (.var name .none)) [t, name, semicolon]
  | varInit {t name equals semicolon : Token} {e : Expr Unit} {w : List Token}
      (ht : t.kind = .kwVar) (hname : name.kind = .identifier) (hequals : equals.kind = .equal)
      (he : Laid (.expr e) w) (hsemicolon : semicolon.kind = .semicolon) :
      Laid (.stmt (.var name (.some e))) (t :: name :: equals :: (w ++ [semicolon]))
  | block {left right : Token} {body : List (Stmt Unit)} {w : List Token}
      (hleft : left.kind = .leftBrace) (hbody : Laid (.stmts body) w)
      (hright : right.kind = .rightBrace) :
      Laid (.stmt (.block body)) (left :: (w ++ [right]))
  | cond {t l r : Token} {e : Expr Unit} {yes : Stmt Unit} {u v : List Token}
      (ht : t.kind = .kwIf) (hl : l.kind = .leftParen) (he : Laid (.expr e) u)
      (hr : r.kind = .rightParen) (hyes : Laid (.stmt yes) v) (hdeclared : yes.declared = []) :
      Laid (.stmt (.cond e yes .none)) (t :: l :: (u ++ r :: v))
  | condElse {t l r t' : Token} {e : Expr Unit} {yes no : Stmt Unit} {u v w : List Token}
      (ht : t.kind = .kwIf) (hl : l.kind = .leftParen) (he : Laid (.expr e) u)
      (hr : r.kind = .rightParen) (hyes : Laid (.stmt yes) v) (hdeclared : yes.declared = [])
      (ht' : t'.kind = .kwElse) (hno : Laid (.stmt no) w) (hdeclared' : no.declared = []) :
      Laid (.stmt (.cond e yes (.some no))) (t :: l :: (u ++ r :: (v ++ t' :: w)))
  | loop {t l r : Token} {e : Expr Unit} {body : Stmt Unit} {u v : List Token}
      (ht : t.kind = .kwWhile) (hl : l.kind = .leftParen) (he : Laid (.expr e) u)
      (hr : r.kind = .rightParen) (hbody : Laid (.stmt body) v) (hdeclared : body.declared = []) :
      Laid (.stmt (.loop e body)) (t :: l :: (u ++ r :: v))
  | noStart {semicolon : Token} (hsemicolon : semicolon.kind = .semicolon) :
      Laid (.start .none) [semicolon]
  | start {s : Stmt Unit} {w : List Token} (hs : Laid (.stmt s) w) : Laid (.start (.some s)) w
  | forLoop {t l semicolon r : Token} {init : Option (Stmt Unit)} {test step : Option (Expr Unit)}
      {body : Stmt Unit} {u v x y : List Token} (ht : t.kind = .kwFor) (hl : l.kind = .leftParen)
      (hinit : Laid (.start init) u) (htest : Laid (.optional test) v)
      (hsemicolon : semicolon.kind = .semicolon) (hstep : Laid (.optional step) x)
      (hr : r.kind = .rightParen) (hbody : Laid (.stmt body) y) (hdeclared : body.declared = []) :
      Laid (.stmt (.forLoop init test step body))
        (t :: l :: (u ++ (v ++ semicolon :: (x ++ r :: y))))
  | function {t name l : Token} {params : List Token} {body : List (Stmt Unit)} {w : List Token}
      (ht : t.kind = .kwFun) (hname : name.kind = .identifier) (hl : l.kind = .leftParen)
      (hroutine : Laid (.routine params body) w) :
      Laid (.stmt (.function name params body)) (t :: name :: l :: w)
  | ret {t semicolon : Token} {value : Option (Expr Unit)} {w : List Token}
      (ht : t.kind = .kwReturn) (hvalue : Laid (.optional value) w)
      (hsemicolon : semicolon.kind = .semicolon) :
      Laid (.stmt (.ret t value)) (t :: (w ++ [semicolon]))
  | classDecl {t name left right : Token} {ms : List (Method Unit)} {w : List Token}
      (ht : t.kind = .kwClass) (hname : name.kind = .identifier) (hleft : left.kind = .leftBrace)
      (hms : Laid (.methods ms) w) (hright : right.kind = .rightBrace) :
      Laid (.stmt (.classDecl name .none ms)) (t :: name :: left :: (w ++ [right]))
  | subclass {t name less s left right : Token} {ms : List (Method Unit)} {w : List Token}
      (ht : t.kind = .kwClass) (hname : name.kind = .identifier) (hless : less.kind = .less)
      (hs : s.kind = .identifier) (hleft : left.kind = .leftBrace) (hms : Laid (.methods ms) w)
      (hright : right.kind = .rightBrace) :
      Laid (.stmt (.classDecl name (.some ⟨(), s⟩) ms))
        (t :: name :: less :: s :: left :: (w ++ [right]))
  | nil : Laid (.stmts []) []
  | cons {s : Stmt Unit} {ss : List (Stmt Unit)} {u v : List Token} (hs : Laid (.stmt s) u)
      (hss : Laid (.stmts ss) v) : Laid (.stmts (s :: ss)) (u ++ v)
  | noMethods : Laid (.methods []) []
  | method {name l : Token} {params : List Token} {body : List (Stmt Unit)}
      {ms : List (Method Unit)} {u v : List Token} (hname : name.kind = .identifier)
      (hl : l.kind = .leftParen) (hroutine : Laid (.routine params body) u)
      (hms : Laid (.methods ms) v) :
      Laid (.methods (.mk name params body :: ms)) (name :: l :: (u ++ v))

/-- Two operands are joined as the level of the operator says. -/
theorem Laid.join {op : Token} {a b : Expr Unit} {u v : List Token} {level : Nat}
    (hop : op.kind.level? = Option.some level) (ha : Laid (.expr a) u) (hb : Laid (.expr b) v) :
    Laid (.expr (.join op a b)) (u ++ op :: v) := by
  unfold Expr.join
  split
  · next hor => exact .logical (.inl hor) ha hb
  · next hand => exact .logical (.inr hand) ha hb
  · next hor hand =>
    refine .binary hop ?_ ha hb
    unfold Kind.level? at hop
    split at hop
    · next h => exact absurd h hor
    · next h => exact absurd h hand
    all_goals cases hop <;> decide

namespace Reading

/-- A list that is not empty is laid in the tokens. -/
def LaidList {α : Type} (L : List α → List Token → Prop) (xs : List α) (w : List Token) : Prop :=
  xs ≠ [] ∧ L xs w

/-- All readings on the given fuel return what is laid in the tokens that are read. -/
structure LaidOn (n : Nat) : Prop where
  assignment : Sound none (assignment n) fun e w => Laid (.expr e) w
  operators : ∀ l, Sound none (operators n l) fun e w => Laid (.expr e) w
  operatorsAfter : ∀ l left, Sound none (operatorsAfter n l left) fun e v =>
    ∀ u, Laid (.expr left) u → Laid (.expr e) (u ++ v)
  unary : Sound none (unary n) fun e w => Laid (.expr e) w
  suffixes : ∀ e₀, Sound none (suffixes n e₀) fun e v =>
    ∀ u, Laid (.expr e₀) u → Laid (.expr e) (u ++ v)
  arguments : ∀ count, Sound none (arguments n count) (LaidList fun es => Laid (.args es))
  primary : Sound none (primary n) fun e w => Laid (.expr e) w
  routine : ∀ role, Sound none (routine n role) fun r w => Laid (.routine r.1 r.2) w
  block : Sound none (block n) fun ss w =>
    ∃ u right, w = u ++ [right] ∧ Laid (.stmts ss) u ∧ right.kind = .rightBrace
  declaration : Sound none (declaration n) fun o w => ∃ s ∈ o, Laid (.stmt s) w
  declared : Sound none (declared n) fun s w => Laid (.stmt s) w
  classDeclared : Sound none (classDeclared n) fun s w =>
    ∀ t : Token, t.kind = .kwClass → Laid (.stmt s) (t :: w)
  methods : Sound none (methods n) fun ms w => Laid (.methods ms) w
  named : ∀ role, Sound none (named n role) fun r w => ∃ name l u, w = name :: l :: u ∧
    r.1 = name ∧ name.kind = .identifier ∧ l.kind = .leftParen ∧ Laid (.routine r.2.1 r.2.2) u
  variableDeclared : Sound none (variableDeclared n) fun s w =>
    ∀ t : Token, t.kind = .kwVar → Laid (.stmt s) (t :: w)
  expressionStatement : Sound none (expressionStatement n) fun s w =>
    Laid (.stmt s) w ∧ s.declared = []
  forStatement : Sound none (forStatement n) fun s w =>
    (∀ t : Token, t.kind = .kwFor → Laid (.stmt s) (t :: w)) ∧ s.declared = []
  statement : Sound none (statement n) fun s w => Laid (.stmt s) w ∧ s.declared = []

namespace LaidOn

variable {n : Nat}

/-! ## Expressions -/

theorem assignment_succ (ih : LaidOn n) :
    Sound none (Reading.assignment (n + 1)) fun e w => Laid (.expr e) w := by
  refine .bind (ih.operators 0) fun e => .peek fun equals => ?_
  split
  · next heq =>
    refine .bind (.advance (by rw [heq]; nofun)) fun _ => .bind ih.assignment fun value => ?_
    cases e with
    | ref s =>
      refine .pure ?_
      rintro v hv _ rfl u hu
      cases hu with
      | ref hs => simpa using Laid.assign hs heq hv
    | get object name =>
      refine .pure ?_
      rintro v hv _ rfl u hu
      cases hu with
      | get hobject hdot hname => simpa using Laid.set hobject hdot hname heq hv
    | _ => exact .throw _
  · refine .pure fun u hu => ?_
    rwa [List.append_nil]

theorem operators_succ (ih : LaidOn n) (l : Nat) :
    Sound none (Reading.operators (n + 1) l) fun e w => Laid (.expr e) w :=
  .bind ih.unary fun left => (ih.operatorsAfter l left).mono fun _ _ h u hu => h u hu

theorem operatorsAfter_succ (ih : LaidOn n) (l : Nat) (left : Expr Unit) :
    Sound none (Reading.operatorsAfter (n + 1) l left) fun e v =>
      ∀ u, Laid (.expr left) u → Laid (.expr e) (u ++ v) := by
  have hdone : ∀ {front : Option Token}, Sound front (pure left) fun e v =>
      ∀ u, Laid (.expr left) u → Laid (.expr e) (u ++ v) :=
    .pure fun u hu => by rwa [List.append_nil]
  refine .peek fun op => ?_
  split
  · exact hdone
  · next k hk =>
    split
    · refine .bind (.advance fun h => by rw [h] at hk; cases hk) fun _ => ?_
      refine .bind (ih.operators (k + 1)) fun right => ?_
      refine (ih.operatorsAfter l (.join op left right)).mono ?_
      rintro e v he w hw _ rfl u hu
      simpa using he _ (.join hk hu hw)
    · exact hdone

theorem unary_succ (ih : LaidOn n) :
    Sound none (Reading.unary (n + 1)) fun e w => Laid (.expr e) w := by
  have hprefix : ∀ op : Token, op.kind = .bang ∨ op.kind = .minus →
      Sound (some op) (do Reading.advance; return Expr.unary op (← Reading.unary n)) fun e w =>
        Laid (.expr e) w := by
    intro op hop
    refine .bind (.advance fun h => by rw [h] at hop; cases hop <;> contradiction) fun _ => ?_
    refine .bind ih.unary fun e => .pure ?_
    rintro w hw _ rfl
    rw [List.append_nil]
    exact .unary hop hw
  refine .peek fun op => ?_
  split
  · next hop => exact hprefix op (.inl hop)
  · next hop => exact hprefix op (.inr hop)
  · exact .bind ih.primary.anywhere fun e => (ih.suffixes e).mono fun _ _ h u hu => h u hu

theorem suffixes_succ (ih : LaidOn n) (e₀ : Expr Unit) :
    Sound none (Reading.suffixes (n + 1) e₀) fun e v =>
      ∀ u, Laid (.expr e₀) u → Laid (.expr e) (u ++ v) := by
  refine .peek fun t => ?_
  split
  · next ht =>
    refine .bind (.advance (by simp [ht])) fun _ => ?_
    refine .bind (.unlessAt _ (ih.arguments 0)) fun args => ?_
    refine .bind (.expect _) fun paren => ?_
    refine (ih.suffixes (.call e₀ paren (args.getD []))).mono ?_
    rintro e v he _ ⟨rfl, hparen⟩ w hargs _ rfl u hu
    have hlist : Laid (.args (args.getD [])) w := by
      obtain ⟨rfl, rfl⟩ | ⟨es, hes, -, hw⟩ := hargs
      · exact .noArgs
      · cases hes
        exact hw
    simpa using he _ (.call hu ht hlist hparen)
  · next ht =>
    refine .bind (.advance (by simp [ht])) fun _ => .bind (.expect _) fun name => ?_
    refine (ih.suffixes (.get e₀ name)).mono ?_
    rintro e v he _ ⟨rfl, hname⟩ _ rfl u hu
    simpa using he _ (.get hu ht hname)
  · exact .pure fun u hu => by rwa [List.append_nil]

/-- A limited list with commas is read from its entries. -/
theorem listed {α : Type} {L : List α → List Token → Prop} {count : Nat} {cause : GrammarCause}
    {item : Reading α} {rest : Reading (List α)}
    (hmore : ∀ {x y xs u v} {comma : Token}, L [x] u → comma.kind = .comma → L (y :: xs) v →
      L (x :: y :: xs) (u ++ comma :: v))
    (hitem : Sound none item fun x w => L [x] w) (hrest : Sound none rest (LaidList L)) :
    Sound none (do
      if mostArguments ≤ count then Reading.note cause
      let x ← item
      if ← Reading.accept .comma then return x :: (← rest) else return [x]) (LaidList L) := by
  have hlist : Sound none (do
      let x ← item
      if ← Reading.accept .comma then return x :: (← rest) else return [x]) (LaidList L) := by
    refine .bind hitem fun x => .bind .accept fun comma => ?_
    cases comma with
    | true =>
      refine .bind hrest fun xs => .pure ?_
      rintro v ⟨hne, hv⟩ _ ⟨t, rfl, ht⟩ u hu
      obtain ⟨y, ys, rfl⟩ := List.exists_cons_of_ne_nil hne
      refine ⟨nofun, ?_⟩
      simpa using hmore hu ht hv
    | false =>
      refine .pure ?_
      rintro _ rfl u hu
      refine ⟨nofun, ?_⟩
      simpa using hu
  dsimp only
  split
  · exact .bind (.note cause) fun _ => hlist.mono fun _ _ _ _ => False.elim
  · exact hlist

theorem arguments_succ (ih : LaidOn n) (count : Nat) :
    Sound none (Reading.arguments (n + 1) count) (LaidList fun es => Laid (.args es)) := by
  refine listed (fun hx hcomma hxs => ?_) (ih.assignment.mono fun _ _ => .oneArg)
    (ih.arguments (count + 1))
  cases hx with
  | oneArg hx => exact .moreArgs hx hcomma hxs

/-- A constant is the kind of its token. -/
theorem literal {t : Token} {v : Literal} (ht : t.kind = v.kind) :
    Sound (some t) (do Reading.advance; return (Expr.literal v : Expr Unit)) fun e w =>
      Laid (.expr e) w := by
  refine .bind (.advance (by rw [ht]; cases v <;> nofun)) fun _ => .pure ?_
  rintro _ rfl
  exact .literal ht

theorem primary_succ (ih : LaidOn n) :
    Sound none (Reading.primary (n + 1)) fun e w => Laid (.expr e) w := by
  refine .peek fun t => ?_
  split
  · next ht => exact literal ht
  · next ht => exact literal ht
  · next ht => exact literal ht
  · next ht => exact literal ht
  · next ht => exact literal ht
  · next ht =>
    refine .bind (.advance (by simp [ht])) fun _ => .bind (.expect _) fun dot => ?_
    refine .bind (.expect _) fun method => .pure ?_
    rintro _ ⟨rfl, hmethod⟩ _ ⟨rfl, hdot⟩ _ rfl
    exact .super ht hdot hmethod
  · next ht =>
    refine .bind (.advance (by simp [ht])) fun _ => .pure ?_
    rintro _ rfl
    exact .this ht
  · next ht =>
    refine .bind (.advance (by simp [ht])) fun _ => .pure ?_
    rintro _ rfl
    exact .ref ht
  · next ht =>
    refine .bind (.advance (by simp [ht])) fun _ => .bind (.expect _) fun paren => ?_
    refine .bind (ih.routine .function) fun r => .pure ?_
    rintro u hu _ ⟨rfl, hparen⟩ _ rfl
    rw [List.append_nil]
    exact .lambda ht hparen hu
  · next ht =>
    refine .bind (.advance (by simp [ht])) fun _ => .bind ih.assignment fun e => ?_
    refine .bind (.expect _) fun paren => .pure ?_
    rintro _ ⟨rfl, hparen⟩ u hu _ rfl
    exact .group ht hu hparen
  · exact .fail _

/-! ## Bodies -/

theorem parameters (n count : Nat) :
    Sound none (Reading.parameters n count) (LaidList fun ps => Laid (.params ps)) := by
  induction n generalizing count with
  | zero => exact .outOfFuel
  | succ n ih =>
    refine listed (fun hx hcomma hxs => ?_) ((Sound.expect _).mono ?_) (ih (count + 1))
    · cases hx with
      | oneParam hx => exact .moreParams hx hcomma hxs
    · rintro t _ ⟨rfl, ht⟩
      exact .oneParam ht

theorem routine_succ (ih : LaidOn n) (role : Role) :
    Sound none (Reading.routine (n + 1) role) fun r w => Laid (.routine r.1 r.2) w := by
  refine .bind (.unlessAt _ (parameters n 0)) fun params => ?_
  refine .bind (.expect _) fun paren => .bind (.expect _) fun brace => ?_
  refine .bind ih.block fun body => .pure ?_
  rintro _ ⟨w, right, rfl, hw, hright⟩ _ ⟨rfl, hbrace⟩ _ ⟨rfl, hparen⟩ u hparams
  have hlist : Laid (.params (params.getD [])) u := by
    obtain ⟨rfl, rfl⟩ | ⟨ps, hps, -, hu⟩ := hparams
    · exact .noParams
    · cases hps
      exact hu
  simpa using Laid.routine hlist hparen hbrace hw hright

theorem block_succ (ih : LaidOn n) : Sound none (Reading.block (n + 1)) fun ss w =>
    ∃ u right, w = u ++ [right] ∧ Laid (.stmts ss) u ∧ right.kind = .rightBrace := by
  refine .peek fun t => ?_
  split
  · next ht =>
    refine .bind (.advance (by simp [ht])) fun _ => .pure ?_
    rintro _ rfl
    exact ⟨[], t, rfl, .nil, ht⟩
  · exact .fail _
  · refine .bind ih.declaration.anywhere fun o => .bind ih.block fun ss => .pure ?_
    rintro _ ⟨v, right, rfl, hv, hright⟩ u ⟨s, rfl, hu⟩
    exact ⟨u ++ v, right, by simp, .cons hu hv, hright⟩

theorem named_succ (ih : LaidOn n) (role : Role) :
    Sound none (Reading.named (n + 1) role) fun r w => ∃ name l u, w = name :: l :: u ∧
      r.1 = name ∧ name.kind = .identifier ∧ l.kind = .leftParen ∧
        Laid (.routine r.2.1 r.2.2) u := by
  refine .bind (.expect _) fun name => .bind (.expect _) fun paren => ?_
  refine .bind (ih.routine role) fun r => .pure ?_
  rintro u hu _ ⟨rfl, hparen⟩ _ ⟨rfl, hname⟩
  exact ⟨name, paren, u, by simp, rfl, hname, hparen, hu⟩

/-! ## Declarations -/

theorem declaration_succ (ih : LaidOn n) :
    Sound none (Reading.declaration (n + 1)) fun o w => ∃ s ∈ o, Laid (.stmt s) w :=
  ih.declared.declaration

theorem declared_succ (ih : LaidOn n) :
    Sound none (Reading.declared (n + 1)) fun s w => Laid (.stmt s) w := by
  refine .peek fun t => ?_
  split
  · next ht =>
    refine .bind (.advance (by simp [ht])) fun _ => ih.classDeclared.mono ?_
    rintro s w hw _ rfl
    exact hw t ht
  · next ht =>
    refine .get fun c => ?_
    split
    · refine .bind (.advance (by simp [ht])) fun _ => .bind (ih.named .function) fun r => .pure ?_
      rintro _ ⟨name, l, u, rfl, hname, hkind, hl, hu⟩ _ rfl
      rw [List.append_nil, hname]
      exact .function ht hkind hl hu
    · exact ih.statement.anywhere.mono fun _ _ h => h.1
  · next ht =>
    refine .bind (.advance (by simp [ht])) fun _ => ih.variableDeclared.mono ?_
    rintro s w hw _ rfl
    exact hw t ht
  · exact ih.statement.anywhere.mono fun _ _ h => h.1

theorem variableDeclared_succ (ih : LaidOn n) :
    Sound none (Reading.variableDeclared (n + 1)) fun s w =>
      ∀ t : Token, t.kind = .kwVar → Laid (.stmt s) (t :: w) := by
  refine .bind (.expect _) fun name => .optional ih.assignment fun init => ?_
  refine .bind (.expect _) fun semicolon => .pure ?_
  rintro _ ⟨rfl, hsemicolon⟩ u hu _ ⟨rfl, hname⟩ t ht
  obtain ⟨rfl, rfl⟩ | ⟨e, equals, v, rfl, hequals, rfl, hv⟩ := hu
  · exact .var ht hname hsemicolon
  · exact .varInit ht hname hequals hv hsemicolon

theorem methods_succ (ih : LaidOn n) :
    Sound none (Reading.methods (n + 1)) fun ms w => Laid (.methods ms) w := by
  refine .peek fun t => ?_
  split
  · exact .pure .noMethods
  · exact .pure .noMethods
  · refine .bind (ih.named .method).anywhere fun r => .bind ih.methods fun ms => .pure ?_
    rintro w hw _ ⟨name, l, u, rfl, hname, hkind, hl, hu⟩
    rw [List.append_nil, hname]
    exact .method hkind hl hu hw

theorem classDeclared_succ (ih : LaidOn n) :
    Sound none (Reading.classDeclared (n + 1)) fun s w =>
      ∀ t : Token, t.kind = .kwClass → Laid (.stmt s) (t :: w) := by
  refine .bind (.expect _) fun name => .optional (.expect _) fun superclass => ?_
  refine .bind (.expect _) fun left => .bind ih.methods fun ms => ?_
  refine .bind (.expect _) fun right => .pure ?_
  rintro _ ⟨rfl, hright⟩ w hw _ ⟨rfl, hleft⟩ u hu _ ⟨rfl, hname⟩ t ht
  obtain ⟨rfl, rfl⟩ | ⟨s, less, _, rfl, hless, rfl, rfl, hs⟩ := hu
  · exact .classDecl ht hname hleft hw hright
  · exact .subclass ht hname hless hs hleft hw hright

/-! ## Statements -/

theorem expressionStatement_succ (ih : LaidOn n) :
    Sound none (Reading.expressionStatement (n + 1)) fun s w =>
      Laid (.stmt s) w ∧ s.declared = [] := by
  refine .bind ih.assignment fun e => .bind (.expect _) fun semicolon => .pure ?_
  rintro _ ⟨rfl, hsemicolon⟩ u hu
  exact ⟨.expression hu hsemicolon, rfl⟩

/-- An expression that may be left out. -/
theorem expression? (ih : LaidOn n) (kind : Kind) :
    Sound none (Reading.unlessAt kind (Reading.assignment n)) fun o w =>
      Laid (.optional o) w := by
  refine (Sound.unlessAt kind ih.assignment).mono ?_
  rintro o w (⟨rfl, rfl⟩ | ⟨e, rfl, hw⟩)
  · exact .none
  · exact .some hw

theorem forStatement_succ (ih : LaidOn n) : Sound none (Reading.forStatement (n + 1)) fun s w =>
    (∀ t : Token, t.kind = .kwFor → Laid (.stmt s) (t :: w)) ∧ s.declared = [] := by
  have hrest : ∀ init : Option (Stmt Unit), Sound none (do
      let test ← Reading.unlessAt .semicolon (Reading.assignment n)
      let _ ← Reading.expect .semicolon .forCondition
      let step ← Reading.unlessAt .rightParen (Reading.assignment n)
      let _ ← Reading.expect .rightParen .forEnd
      let body ← Reading.statement n
      return Stmt.forLoop init test step body) fun s v => ∀ u, Laid (.start init) u →
        ∀ l : Token, l.kind = .leftParen →
        (∀ t : Token, t.kind = .kwFor → Laid (.stmt s) (t :: l :: (u ++ v))) ∧
          s.declared = [] := by
    intro init
    refine .bind (ih.expression? _) fun test => .bind (.expect _) fun semicolon => ?_
    refine .bind (ih.expression? _) fun step => .bind (.expect _) fun right => ?_
    refine .bind ih.statement fun body => .pure ?_
    rintro w ⟨hw, hdeclared⟩ _ ⟨rfl, hright⟩ y hy _ ⟨rfl, hsemicolon⟩ x hx u hu l hl
    refine ⟨fun t ht => ?_, SoundOn.declared_forLoop init test step hdeclared⟩
    simpa using Laid.forLoop ht hl hu hx hsemicolon hy hright hw hdeclared
  refine .bind (.expect _) fun paren => .peek fun t => ?_
  split
  · next ht =>
    refine .bind (.advance (by simp [ht])) fun _ => ?_
    refine .bind (.pure (P := fun o w => o = none ∧ w = []) ⟨rfl, rfl⟩) fun init => ?_
    refine (hrest init).mono ?_
    rintro s v hv _ ⟨rfl, rfl⟩ _ rfl _ ⟨rfl, hparen⟩
    exact hv [t] (.noStart ht) paren hparen
  · next ht =>
    refine .bind (.advance (by simp [ht])) fun _ => ?_
    refine .bind ih.variableDeclared.some fun init => (hrest init).mono ?_
    rintro s v hv u ⟨s', rfl, hu⟩ _ rfl _ ⟨rfl, hparen⟩
    exact hv (t :: u) (.start (hu t ht)) paren hparen
  · refine .bind ih.expressionStatement.some.anywhere fun init => (hrest init).mono ?_
    rintro s v hv u ⟨s', rfl, hu, -⟩ _ ⟨rfl, hparen⟩
    exact hv u (.start hu) paren hparen

theorem statement_succ (ih : LaidOn n) :
    Sound none (Reading.statement (n + 1)) fun s w => Laid (.stmt s) w ∧ s.declared = [] := by
  refine .peek fun t => ?_
  split
  · next ht =>
    refine .bind (.advance (by simp [ht])) fun _ => ih.forStatement.mono ?_
    rintro s w ⟨hw, hdeclared⟩ _ rfl
    exact ⟨hw t ht, hdeclared⟩
  · next ht =>
    refine .bind (.advance (by simp [ht])) fun _ => .bind (.expect _) fun left => ?_
    refine .bind ih.assignment fun e => .bind (.expect _) fun right => ?_
    refine .bind ih.statement fun yes => .optional ih.statement fun no => .pure ?_
    rintro v hv w ⟨hw, hyes⟩ _ ⟨rfl, hright⟩ u hu _ ⟨rfl, hleft⟩ _ rfl
    obtain ⟨rfl, rfl⟩ | ⟨s, t', v', rfl, ht', rfl, hv', hno⟩ := hv
    · refine ⟨?_, hyes⟩
      simpa using Laid.cond ht hleft hu hright hw hyes
    · refine ⟨?_, ?_⟩
      · simpa using Laid.condElse ht hleft hu hright hw hyes ht' hv' hno
      · rw [Stmt.declared, hyes, hno, List.append_nil]
  · next ht =>
    refine .bind (.advance (by simp [ht])) fun _ => .bind (.expect _) fun left => ?_
    refine .bind ih.assignment fun e => .bind (.expect _) fun right => ?_
    refine .bind ih.statement fun body => .pure ?_
    rintro w ⟨hw, hdeclared⟩ _ ⟨rfl, hright⟩ u hu _ ⟨rfl, hleft⟩ _ rfl
    refine ⟨?_, hdeclared⟩
    simpa using Laid.loop ht hleft hu hright hw hdeclared
  · next ht =>
    refine .bind (.advance (by simp [ht])) fun _ => .bind (ih.expression? _) fun value => ?_
    refine .bind (.expect _) fun semicolon => .pure ?_
    rintro _ ⟨rfl, hsemicolon⟩ u hu _ rfl
    exact ⟨.ret ht hu hsemicolon, rfl⟩
  · next ht =>
    refine .bind (.advance (by simp [ht])) fun _ => .bind ih.block fun body => .pure ?_
    rintro _ ⟨w, right, rfl, hw, hright⟩ _ rfl
    refine ⟨?_, rfl⟩
    simpa using Laid.block ht hw hright
  · next ht =>
    refine .bind (.advance (by simp [ht])) fun _ => .bind ih.assignment fun e => ?_
    refine .bind (.expect _) fun semicolon => .pure ?_
    rintro _ ⟨rfl, hsemicolon⟩ u hu _ rfl
    exact ⟨.print ht hu hsemicolon, rfl⟩
  · exact ih.expressionStatement.anywhere

end LaidOn

/-- **Every reading returns a tree that is laid in the tokens it has read**, by induction on the
fuel. -/
theorem laidOn (n : Nat) : LaidOn n := by
  induction n with
  | zero =>
    exact ⟨.outOfFuel, fun _ => .outOfFuel, fun _ _ => .outOfFuel, .outOfFuel, fun _ => .outOfFuel,
      fun _ => .outOfFuel, .outOfFuel, fun _ => .outOfFuel, .outOfFuel, .outOfFuel, .outOfFuel,
      .outOfFuel, .outOfFuel, fun _ => .outOfFuel, .outOfFuel, .outOfFuel, .outOfFuel, .outOfFuel⟩
  | succ n ih =>
    exact ⟨ih.assignment_succ, ih.operators_succ, ih.operatorsAfter_succ, ih.unary_succ,
      ih.suffixes_succ, ih.arguments_succ, ih.primary_succ, ih.routine_succ, ih.block_succ,
      ih.declaration_succ, ih.declared_succ, ih.classDeclared_succ, ih.methods_succ, ih.named_succ,
      ih.variableDeclared_succ, ih.expressionStatement_succ, ih.forStatement_succ,
      ih.statement_succ⟩

/-! ## Programs and lines -/

theorem program_laid (n : Nat) : Sound none (program n) fun ss w => Laid (.stmts ss) w := by
  induction n with
  | zero => exact .outOfFuel
  | succ n ih =>
    refine .get fun c => ?_
    split
    · exact .pure .nil
    · refine .bind (laidOn n).declaration fun s => .bind ih fun ss => .pure ?_
      rintro v hv u ⟨s, rfl, hu⟩
      rw [List.append_nil]
      exact .cons hu hv

theorem trailing_laid (n : Nat) :
    Sound none (trailing? n) fun o w => Laid (.optional o) w := by
  intro c hc _
  have h := (laidOn n).assignment c hc nofun
  unfold trailing?
  generalize assignment n c = x at h
  cases h with
  | ok hc' hP =>
    dsimp only
    split
    · exact .ok hc' fun he => .some (hP he)
    · exact .ok (.refl c) fun _ => .none
  | error => exact .ok (.refl c) fun _ => .none
  | outOfFuel => exact .outOfFuel

end Reading

/-- The statements of a line are laid in the tokens, and behind them the expression at its end. -/
def Line.Laid (line : Line Unit) (w : List Token) : Prop :=
  ∃ u v, w = u ++ v ∧ LoxLang.Laid (.stmts line.statements) u ∧
    LoxLang.Laid (.optional line.trailing) v

namespace Reading

theorem line_laid (n : Nat) : Sound none (line n) Line.Laid := by
  induction n with
  | zero => exact .outOfFuel
  | succ n ih =>
    have hstatements : Sound none (do
        let s ← declaration n
        let more ← line n
        return (⟨s.toList ++ more.statements, more.trailing⟩ : Line Unit)) Line.Laid := by
      refine .bind (laidOn n).declaration fun s => .bind ih fun more => .pure ?_
      rintro _ ⟨v, x, rfl, hv, hx⟩ u ⟨s, rfl, hu⟩
      exact ⟨u ++ v, x, by simp, .cons hu hv, hx⟩
    refine .get fun c => ?_
    split
    · exact .pure ⟨[], [], rfl, .nil, .none⟩
    · split
      · refine .bind (.pure (P := fun o w => o = none ∧ w = []) ⟨rfl, rfl⟩) fun o => ?_
        cases o with
        | none =>
          refine hstatements.mono ?_
          rintro l v hl _ ⟨-, rfl⟩
          exact hl
        | some e => exact .pure fun _ h => nomatch h.1
      · refine .bind (trailing_laid n).anywhere fun o => ?_
        cases o with
        | none =>
          refine hstatements.mono fun l v hl u hu => ?_
          cases hu with
          | none => exact hl
        | some e => exact .pure fun u hu => ⟨[], u, by simp, .nil, hu⟩

end Reading

/-- **What is read from tokens is laid in them**, in front of the first end mark. -/
theorem Style.laid_of_read {style : Style} {tokens : List Token} {line : Line Unit}
    (h : style.read tokens = .ok line) : ∃ w, w <+: tokens.takeWhile (!·.isEnd) ∧ line.Laid w := by
  cases style with
  | program =>
    unfold Style.read at h
    cases hread : Stmt.readAll tokens with
    | error es =>
      rw [hread] at h
      cases h
    | ok ss =>
      rw [hread] at h
      cases h
      obtain ⟨c, hrun, hc⟩ := Reading.run_ok_iff.1 hread
      obtain ⟨w, hw, hss⟩ := Reading.Sound.of_run Reading.program_laid hrun hc
      exact ⟨w, ⟨_, hw.symm⟩, w, [], (List.append_nil w).symm, hss, .none⟩
  | interactive =>
    obtain ⟨c, hrun, hc⟩ := Reading.run_ok_iff.1 h
    obtain ⟨w, hw, hline⟩ := Reading.Sound.of_run Reading.line_laid hrun hc
    exact ⟨w, ⟨_, hw.symm⟩, hline⟩

end LoxLang
