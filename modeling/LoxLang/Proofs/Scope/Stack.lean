import LoxLang.Proofs.Scope.Resolution

/-!
# What a walk leaves behind

A walk opens and closes scopes by hand, and it keeps the kinds of body and class in flags that it
sets and sets back. What resolving a node leaves behind is nevertheless simple, whatever state it
starts in: the names that the node declares are ready in the innermost scope, and nothing else has
changed (`Node.declares_resolve`).
-/

namespace LoxLang

/-- The innermost scope with a name that is ready. -/
def markReady (scopes : List (Table Bool)) (name : String) : List (Table Bool) :=
  scopes.modifyHead (·.insert name true)

/-- A name that is put in twice has the value put in last. -/
theorem Table.insert_insert {α : Type} (t : Table α) (name : String) (a b : α) :
    (t.insert name a).insert name b = t.insert name b := by
  obtain ⟨entries⟩ := t
  refine congrArg Table.mk ?_
  change insertIn name b (insertIn name a entries) = insertIn name b entries
  induction entries with
  | nil => simp [insertIn]
  | cons entry rest ih =>
    by_cases h : entry.1 = name
    · simp [insertIn, h]
    · simp [insertIn, h, ih]

theorem length_markReady (scopes : List (Table Bool)) (name : String) :
    (markReady scopes name).length = scopes.length :=
  List.length_modifyHead

theorem tail_markReady (scopes : List (Table Bool)) (name : String) :
    (markReady scopes name).tail = scopes.tail := by
  cases scopes <;> rfl

theorem length_foldl_markReady (names : List String) (scopes : List (Table Bool)) :
    (names.foldl markReady scopes).length = scopes.length := by
  induction names generalizing scopes with
  | nil => rfl
  | cons name names ih => exact (ih _).trans (length_markReady scopes name)

theorem tail_foldl_markReady (names : List String) (scopes : List (Table Bool)) :
    (names.foldl markReady scopes).tail = scopes.tail := by
  induction names generalizing scopes with
  | nil => rfl
  | cons name names ih => exact (ih _).trans (tail_markReady scopes name)

/-- The innermost scope has the new names, ready, and its other names as before. -/
theorem find?_foldl_markReady (names : List String) (t : Table Bool) (outer : List (Table Bool)) :
    ∃ t', names.foldl markReady (t :: outer) = t' :: outer ∧
      ∀ x, t'.find? x = if x ∈ names then some true else t.find? x := by
  induction names generalizing t with
  | nil => exact ⟨t, rfl, fun x => by simp⟩
  | cons name names ih =>
    obtain ⟨t', ht', hfind⟩ := ih (t.insert name true)
    refine ⟨t', ht', fun x => ?_⟩
    rw [hfind, Table.find?_insert]
    by_cases hx : x ∈ names
    · simp [hx]
    · by_cases hname : name = x
      · simp [hname]
      · simp [hx, hname, Ne.symm hname]

namespace Walk

/-- From one state to another a walk has declared names in the innermost scope; they are ready, and
nothing else about scopes, body and class has changed. -/
structure Declares (names : List String) (w w' : Walk) : Prop where
  scopes : w'.scopes = names.foldl markReady w.scopes
  body : w'.body = w.body
  cls : w'.cls = w.cls

namespace Declares

variable {names names' : List String} {w w₁ w₂ : Walk}

theorem refl (w : Walk) : Declares [] w w := ⟨rfl, rfl, rfl⟩

theorem trans (h : Declares names w w₁) (h' : Declares names' w₁ w₂) :
    Declares (names ++ names') w w₂ :=
  ⟨by rw [List.foldl_append, ← h.scopes, h'.scopes], h'.body.trans h.body, h'.cls.trans h.cls⟩

/-- One stretch of a walk after another, where the first declares nothing. -/
theorem after (h : Declares [] w w₁) (h' : Declares names w₁ w₂) : Declares names w w₂ :=
  h.trans h'

/-! ### Steps -/

theorem report (w : Walk) (t : Token) (cause : ScopeCause) : Declares [] w (w.report t cause) :=
  ⟨rfl, rfl, rfl⟩

theorem bind (w : Walk) (s : Site Nat) : Declares [] w (w.bind s) :=
  ⟨scopes_bind w s, body_bind w s, cls_bind w s⟩

theorem read (w : Walk) (s : Site Nat) : Declares [] w (w.read s) :=
  ⟨scopes_read w s, body_read w s, cls_read w s⟩

theorem readThis (w : Walk) (s : Site Nat) : Declares [] w (w.readThis s) := by
  unfold Walk.readThis
  split
  · exact report w _ _
  · exact bind w s

theorem readSuper (w : Walk) (s : Site Nat) : Declares [] w (w.readSuper s) := by
  unfold Walk.readSuper
  refine after ?_ (bind _ s)
  split
  · exact report w _ _
  · exact report w _ _
  · exact refl w

theorem checkReturn (w : Walk) (keyword : Token) (hasValue : Bool) :
    Declares [] w (w.checkReturn keyword hasValue) := by
  unfold Walk.checkReturn
  dsimp only
  split <;> split <;> exact ⟨rfl, rfl, rfl⟩

theorem introduce (w : Walk) (name : Token) : Declares [name.lexeme] w (w.introduce name) := by
  refine ⟨?_, body_introduce w name, cls_introduce w name⟩
  rw [scopes_introduce]
  refine congrArg (List.modifyHead · w.scopes) (funext fun t => ?_)
  split
  · rfl
  · exact Table.insert_insert t name.lexeme false true

/-- A variable is declared, its initializer resolved, and then it is ready. -/
theorem initializer {name : Token} (h : Declares [] (w.declare name) w₁) :
    Declares [name.lexeme] w (w₁.define name) := by
  have hintroduce := introduce w name
  refine ⟨?_, ?_, ?_⟩
  · rw [define, scopes_enter, h.scopes, List.foldl_nil, ← hintroduce.scopes, Walk.introduce, define,
      scopes_enter]
  · rw [define, body_enter, h.body, body_declare]
  · rw [define, cls_enter, h.cls, cls_declare]

/-- A block leaves nothing behind. -/
theorem block (h : Declares names w.openScope w₁) : Declares [] w w₁.closeScope := by
  refine ⟨?_, h.body, h.cls⟩
  rw [closeScope, h.scopes, tail_foldl_markReady]
  rfl

theorem foldl_introduce (params : List Token) (w : Walk) :
    Declares (params.map Token.lexeme) w (params.foldl Walk.introduce w) := by
  induction params generalizing w with
  | nil => exact refl w
  | cons p params ih => exact (introduce w p).trans (ih _)

/-- A body leaves nothing behind. -/
theorem inBody {kind : BodyKind} {params : List Token}
    (h : Declares names (w.enterBody kind params) w₁) : Declares [] w (w₁.leaveBody w.body) := by
  have h := (foldl_introduce params { w with body := kind }.openScope).trans h
  refine ⟨?_, rfl, h.cls⟩
  rw [leaveBody, closeScope, h.scopes, tail_foldl_markReady]
  rfl

end Declares

/-- The state in which the name of a superclass is resolved. -/
def beforeSuperclass (w : Walk) (name : Token) (s : Site Nat) : Walk :=
  let w := { w with cls := .base }.introduce name
  let w := if s.name.lexeme = name.lexeme then w.report s.name .ownSuperclass else w
  { w with cls := .derived }

theorem enterClass_some (w : Walk) (name : Token) (s : Site Nat) :
    w.enterClass name (some s) = (((w.beforeSuperclass name s).read s).openScope.enter superName
      true).openScope.enter thisName true :=
  rfl

theorem scopes_beforeSuperclass (w : Walk) (name : Token) (s : Site Nat) :
    (w.beforeSuperclass name s).scopes = markReady w.scopes name.lexeme := by
  have h := (Declares.introduce { w with cls := .base } name).scopes
  unfold beforeSuperclass
  dsimp only
  split <;> exact h

theorem body_beforeSuperclass (w : Walk) (name : Token) (s : Site Nat) :
    (w.beforeSuperclass name s).body = w.body := by
  have h := body_introduce { w with cls := .base } name
  unfold beforeSuperclass
  dsimp only
  split <;> exact h

/-- A class leaves its name behind. -/
theorem Declares.inClass {w w₁ : Walk} {name : Token} {superclass : Option (Site Nat)}
    (h : Declares [] (w.enterClass name superclass) w₁) :
    Declares [name.lexeme] w (w₁.leaveClass superclass.isSome w.cls) := by
  have hs := h.scopes
  have hb := h.body
  rw [List.foldl_nil] at hs
  cases superclass with
  | none =>
    refine ⟨?_, hb.trans (body_introduce { w with cls := .base } name), rfl⟩
    change w₁.scopes.tail = _
    rw [hs]
    exact (introduce { w with cls := .base } name).scopes
  | some s =>
    rw [enterClass_some] at hs hb
    refine ⟨?_, hb.trans ((body_read _ s).trans (body_beforeSuperclass w name s)), rfl⟩
    change w₁.scopes.tail.tail = _
    rw [hs]
    exact (scopes_read _ s).trans (scopes_beforeSuperclass w name s)

end Walk

open Walk (Declares)

mutual

/-- Resolving an expression leaves nothing behind. -/
theorem Expr.declares_resolve : ∀ (e : Expr Nat) (w : Walk), Declares [] w (e.resolve w)
  | .literal _, w => .refl w
  | .group e, w => e.declares_resolve w
  | .unary _ e, w => e.declares_resolve w
  | .get e _, w => e.declares_resolve w
  | .binary _ a b, w => (a.declares_resolve w).after (b.declares_resolve _)
  | .logical _ a b, w => (a.declares_resolve w).after (b.declares_resolve _)
  | .set a _ b, w => (b.declares_resolve w).after (a.declares_resolve _)
  | .ref s, w => .read w s
  | .this s, w => .readThis w s
  | .super s _, w => .readSuper w s
  | .assign s e, w => (e.declares_resolve w).after (.bind _ s)
  | .call f _ args, w => (f.declares_resolve w).after (Expr.declares_resolveAll args _)
  | .lambda params body, w => .inBody (Stmt.declares_resolveAll body (w.enterBody .function params))

theorem Expr.declares_resolveAll : ∀ (es : List (Expr Nat)) (w : Walk),
    Declares [] w (Expr.resolveAll es w)
  | [], w => .refl w
  | e :: es, w => (e.declares_resolve w).after (Expr.declares_resolveAll es _)

/-- Resolving a statement leaves behind what the statement declares. -/
theorem Stmt.declares_resolve : ∀ (s : Stmt Nat) (w : Walk), Declares s.declared w (s.resolve w)
  | .expression e, w => e.declares_resolve w
  | .print e, w => e.declares_resolve w
  | .var name none, w => .introduce w name
  | .var name (some e), w => .initializer (e.declares_resolve (w.declare name))
  | .block body, w => .block (Stmt.declares_resolveAll body w.openScope)
  | .cond e yes none, w => (e.declares_resolve w).after (yes.declares_resolve _)
  | .cond e yes (some no), w =>
    (e.declares_resolve w).after ((yes.declares_resolve _).trans (no.declares_resolve _))
  | .loop e body, w => (e.declares_resolve w).after (body.declares_resolve _)
  | .function name params body, w => by
    have hname := Declares.introduce w name
    have hbody := Declares.inBody
      (Stmt.declares_resolveAll body ((w.introduce name).enterBody .function params))
    rw [hname.body] at hbody
    exact hname.trans hbody
  | .ret keyword none, w => .checkReturn w keyword false
  | .ret keyword (some e), w => (Declares.checkReturn w keyword true).after (e.declares_resolve _)
  | .classDecl name superclass methods, w =>
    .inClass (Method.declares_resolveAll methods (w.enterClass name superclass))

theorem Stmt.declares_resolveAll : ∀ (ss : List (Stmt Nat)) (w : Walk),
    Declares (ss.flatMap Stmt.declared) w (Stmt.resolveAll ss w)
  | [], w => .refl w
  | s :: ss, w => (s.declares_resolve w).trans (Stmt.declares_resolveAll ss _)

/-- Resolving methods leaves nothing behind. -/
theorem Method.declares_resolveAll : ∀ (ms : List (Method Nat)) (w : Walk),
    Declares [] w (Method.resolveAll ms w)
  | [], w => .refl w
  | .mk name params body :: ms, w =>
    (Declares.inBody (Stmt.declares_resolveAll body (w.enterBody (.ofMethod name) params))).after
      (Method.declares_resolveAll ms _)

end

/-- The walk behind a node. -/
def Node.resolve (w : Walk) : Node Nat → Walk
  | .expr e => e.resolve w
  | .stmt s => s.resolve w
  | .stmts ss => Stmt.resolveAll ss w

/-- The names that a node declares in the scope it stands in. -/
def Node.declared {σ : Type} : Node σ → List String
  | .expr _ => []
  | .stmt s => s.declared
  | .stmts ss => ss.flatMap Stmt.declared

/-- **Resolving a node declares the names that the node declares**, and that is all that is left of
it in the state of the walk. -/
theorem Node.declares_resolve (node : Node Nat) (w : Walk) :
    Declares node.declared w (node.resolve w) := by
  cases node with
  | expr e => exact e.declares_resolve w
  | stmt s => exact s.declares_resolve w
  | stmts ss => exact Stmt.declares_resolveAll ss w

end LoxLang
