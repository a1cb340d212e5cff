import LoxLang.Proofs.Scope.Stack

/-!
# The nodes that a walk meets

`Node.visits` lists the parts of a node with the state in which the walk comes to each, and
`Walk.Meets` says which nodes it comes to in which states; they are all the nodes of the tree
(`Line.exists_meets`). The bindings that resolving adds are those of the nodes that it meets, each
from the state in which the node is met (`Node.records_resolve`), however the walk gets on with
violations.
-/

namespace LoxLang

open Walk (Declares)

/-- The expressions of a list, each with the state in which the walk comes to it. -/
def Expr.visits : List (Expr Nat) → Walk → List (Walk × Node Nat)
  | [], _ => []
  | e :: es, w => (w, .expr e) :: Expr.visits es (e.resolve w)

/-- The bodies of methods, each with the state in which the walk comes to it. -/
def Method.visits : List (Method Nat) → Walk → List (Walk × Node Nat)
  | [], _ => []
  | .mk name params body :: ms, w =>
    (w.enterBody (.ofMethod name) params, .stmts body) ::
      Method.visits ms (Method.resolveAll [.mk name params body] w)

/-- The nodes directly below a node, each with the state in which the walk comes to it, in the order
of the walk. The value of a property is resolved before its object. -/
def Node.visits (w : Walk) : Node Nat → List (Walk × Node Nat)
  | .expr (.literal _) | .expr (.ref _) | .expr (.this _) | .expr (.super _ _) => []
  | .expr (.group e) | .expr (.unary _ e) | .expr (.get e _) | .expr (.assign _ e) =>
    [(w, .expr e)]
  | .expr (.binary _ a b) | .expr (.logical _ a b) => [(w, .expr a), (a.resolve w, .expr b)]
  | .expr (.set a _ b) => [(w, .expr b), (b.resolve w, .expr a)]
  | .expr (.call f _ args) => (w, .expr f) :: Expr.visits args (f.resolve w)
  | .expr (.lambda params body) => [(w.enterBody .function params, .stmts body)]
  | .stmt (.expression e) | .stmt (.print e) => [(w, .expr e)]
  | .stmt (.var name (some e)) => [(w.declare name, .expr e)]
  | .stmt (.ret keyword (some e)) => [(w.checkReturn keyword true, .expr e)]
  | .stmt (.var _ none) | .stmt (.ret _ none) => []
  | .stmt (.block body) => [(w.openScope, .stmts body)]
  | .stmt (.cond e yes none) => [(w, .expr e), (e.resolve w, .stmt yes)]
  | .stmt (.cond e yes (some no)) =>
    [(w, .expr e), (e.resolve w, .stmt yes), (yes.resolve (e.resolve w), .stmt no)]
  | .stmt (.loop e body) => [(w, .expr e), (e.resolve w, .stmt body)]
  | .stmt (.function name params body) =>
    [((w.introduce name).enterBody .function params, .stmts body)]
  | .stmt (.classDecl name superclass methods) =>
    (superclass.toList.map fun s => (w.beforeSuperclass name s, .expr (.ref s))) ++
      Method.visits methods (w.enterClass name superclass)
  | .stmts [] => []
  | .stmts (s :: ss) => [(w, .stmt s), (s.resolve w, .stmts ss)]

/-- A walk that resolves a node from a state on comes to another one in another state. -/
inductive Walk.Meets : Walk → Node Nat → Walk → Node Nat → Prop
  | here (w : Walk) (node : Node Nat) : Meets w node w node
  | part {w w₁ w' : Walk} {node node₁ node' : Node Nat} : (w₁, node₁) ∈ node.visits w →
      Meets w₁ node₁ w' node' → Meets w node w' node'

open Walk (Meets)

/-- The site at which a node looks a name up. -/
def Node.lookup? {σ : Type} : Node σ → Option (Site σ)
  | .expr (.ref s) | .expr (.assign s _) | .expr (.this s) | .expr (.super s _) => some s
  | _ => none

/-- What a walk records at a node that it comes to. -/
def Node.bound? (w : Walk) : Node Nat → Option (Nat × Nat)
  | .expr (.ref s) | .expr (.assign s _) | .expr (.super s _) =>
    (w.distance? s.name.lexeme).map (s.mark, ·)
  | .expr (.this s) =>
    if w.cls = .outside then none else (w.distance? s.name.lexeme).map (s.mark, ·)
  | _ => none

/-- An entry is recorded at one of the nodes that a walk comes to. -/
def Node.Noted (w : Walk) (node : Node Nat) (x : Nat × Nat) : Prop :=
  ∃ w' node', Meets w node w' node' ∧ node'.bound? w' = some x

/-- An entry is recorded at one of some nodes or below it. -/
def Node.NotedIn (ps : List (Walk × Node Nat)) (x : Nat × Nat) : Prop := ∃ p ∈ ps, p.2.Noted p.1 x

/-- An entry is recorded at the node or below it. -/
theorem Node.noted_iff (w : Walk) (node : Node Nat) (x : Nat × Nat) :
    node.Noted w x ↔ node.bound? w = some x ∨ Node.NotedIn (node.visits w) x := by
  constructor
  · rintro ⟨w', node', hmeets, hentry⟩
    cases hmeets with
    | here => exact .inl hentry
    | part hvisit hmeets => exact .inr ⟨_, hvisit, w', node', hmeets, hentry⟩
  · rintro (hentry | ⟨p, hp, w', node', hmeets, hentry⟩)
    · exact ⟨w, node, .here w node, hentry⟩
    · exact ⟨w', node', .part hp hmeets, hentry⟩

namespace Walk

/-- Between two points of a walk just the given entries are recorded. -/
def Records (w w' : Walk) (S : Nat × Nat → Prop) : Prop :=
  ∃ new, w'.bindings = new ++ w.bindings ∧ ∀ x, x ∈ new ↔ S x

namespace Records

variable {w w₁ w₂ : Walk} {S S₁ S₂ : Nat × Nat → Prop}

/-- A step that records nothing. -/
theorem step (h : w₁.bindings = w.bindings) : Records w w₁ fun _ => False :=
  ⟨[], h, fun x => by simp⟩

theorem congr (h : Records w w₁ S₁) (hS : ∀ x, S₁ x ↔ S₂ x) : Records w w₁ S₂ := by
  obtain ⟨new, hnew, hmem⟩ := h
  exact ⟨new, hnew, fun x => (hmem x).trans (hS x)⟩

/-- Only the bindings matter. -/
theorem of_eq {w' w₁' : Walk} (h : Records w w₁ S) (hw : w.bindings = w'.bindings)
    (hw₁ : w₁.bindings = w₁'.bindings) : Records w' w₁' S := by
  obtain ⟨new, hnew, hmem⟩ := h
  exact ⟨new, by rw [← hw₁, hnew, hw], hmem⟩

/-- One stretch of a walk after another. -/
theorem seq (h₁ : Records w w₁ S₁) (h₂ : Records w₁ w₂ S₂) :
    Records w w₂ fun x => S₁ x ∨ S₂ x := by
  obtain ⟨new₁, hnew₁, hmem₁⟩ := h₁
  obtain ⟨new₂, hnew₂, hmem₂⟩ := h₂
  refine ⟨new₂ ++ new₁, by rw [hnew₂, hnew₁, List.append_assoc], fun x => ?_⟩
  rw [List.mem_append, hmem₁, hmem₂, or_comm]

/-- A step that records nothing comes first. -/
theorem behind (h : w₁.bindings = w.bindings) (h₂ : Records w₁ w₂ S) : Records w w₂ S :=
  h₂.of_eq h rfl

/-- A step that records nothing comes last. -/
theorem before (h₁ : Records w w₁ S) (h : w₂.bindings = w₁.bindings) : Records w w₂ S :=
  h₁.of_eq rfl h.symm

theorem bind (w : Walk) (s : Site Nat) :
    Records w (w.bind s) fun x => (w.distance? s.name.lexeme).map (s.mark, ·) = some x := by
  unfold Walk.bind
  cases w.distance? s.name.lexeme with
  | none => exact ⟨[], rfl, fun x => by simp⟩
  | some d => exact ⟨[(s.mark, d)], rfl, fun x => by simp [eq_comm]⟩

theorem read (w : Walk) (s : Site Nat) :
    Records w (w.read s) fun x => (Node.expr (.ref s)).bound? w = some x := by
  unfold Walk.read
  dsimp only
  split
  · exact behind rfl (bind (w.report s.name .readInInitializer) s)
  · exact bind w s

theorem readThis (w : Walk) (s : Site Nat) :
    Records w (w.readThis s) fun x => (Node.expr (.this s)).bound? w = some x := by
  unfold Walk.readThis Node.bound?
  cases w.cls with
  | outside => exact ⟨[], rfl, fun x => by simp⟩
  | base => exact bind w s
  | derived => exact bind w s

theorem readSuper (w : Walk) (s : Site Nat) (method : Token) :
    Records w (w.readSuper s) fun x => (Node.expr (.super s method)).bound? w = some x := by
  unfold Walk.readSuper
  dsimp only
  split
  · exact behind rfl (bind (w.report s.name .superOutsideClass) s)
  · exact behind rfl (bind (w.report s.name .superWithoutSuperclass) s)
  · exact bind w s

end Records

/-! ### Steps that record nothing -/

theorem bindings_enter (w : Walk) (name : String) (ready : Bool) :
    (w.enter name ready).bindings = w.bindings := by
  unfold enter
  split <;> rfl

theorem bindings_declare (w : Walk) (name : Token) : (w.declare name).bindings = w.bindings := by
  unfold declare
  split
  · rfl
  · split
    · rfl
    · exact bindings_enter w _ _

theorem bindings_introduce (w : Walk) (name : Token) :
    (w.introduce name).bindings = w.bindings :=
  (bindings_enter _ _ _).trans (bindings_declare w name)

theorem bindings_enterBody (w : Walk) (kind : BodyKind) (params : List Token) :
    (w.enterBody kind params).bindings = w.bindings := by
  have hparams : ∀ w : Walk, (params.foldl introduce w).bindings = w.bindings := by
    induction params with
    | nil => exact fun _ => rfl
    | cons p params ih => exact fun w => (ih _).trans (bindings_introduce w p)
  exact hparams _

theorem bindings_checkReturn (w : Walk) (keyword : Token) (hasValue : Bool) :
    (w.checkReturn keyword hasValue).bindings = w.bindings := by
  unfold checkReturn
  dsimp only
  split <;> split <;> rfl

theorem bindings_beforeSuperclass (w : Walk) (name : Token) (s : Site Nat) :
    (w.beforeSuperclass name s).bindings = w.bindings := by
  have h := bindings_introduce { w with cls := .base } name
  unfold beforeSuperclass
  dsimp only
  split <;> exact h

theorem bindings_leaveClass (w : Walk) (derived : Bool) (around : ClassKind) :
    (w.leaveClass derived around).bindings = w.bindings := by
  cases derived <;> rfl

/-- Entering a class records where its superclass is. -/
theorem Records.enterClass (w : Walk) (name : Token) (superclass : Option (Site Nat)) :
    Records w (w.enterClass name superclass) fun x => ∃ s ∈ superclass,
      (Node.expr (.ref s)).bound? (w.beforeSuperclass name s) = some x := by
  cases superclass with
  | none =>
    refine (step ?_).congr fun x => by simp
    exact (bindings_enter _ _ _).trans (bindings_introduce { w with cls := .base } name)
  | some s =>
    rw [enterClass_some]
    have hread := behind (bindings_beforeSuperclass w name s)
      (Records.read (w.beforeSuperclass name s) s)
    refine (hread.before ?_).congr fun x => by simp
    exact (bindings_enter _ _ _).trans (bindings_enter _ _ _)

end Walk

open Walk (Records)

/-- What is recorded in a leaf is recorded at it. -/
theorem Node.noted_leaf {w : Walk} {node : Node Nat} (hv : node.visits w = []) (x : Nat × Nat) :
    node.Noted w x ↔ node.bound? w = some x := by
  rw [noted_iff, hv, NotedIn]
  simp

namespace Walk.Records

variable {w w₁ w₂ : Walk} {node : Node Nat} {ps qs : List (Walk × Node Nat)}

/-! ### Trees -/

/-- Only the node itself records anything. -/
theorem leaf (h : Records w w₁ fun x => node.bound? w = some x) (hv : node.visits w = []) :
    Records w w₁ (node.Noted w) :=
  h.congr fun x => (Node.noted_leaf hv x).symm

/-- Only the nodes below record anything. -/
theorem inner (hentry : node.bound? w = none) (h : Records w w₁ (Node.NotedIn (node.visits w))) :
    Records w w₁ (node.Noted w) :=
  h.congr fun x => by rw [Node.noted_iff, hentry]; simp

theorem nil (h : w₁.bindings = w.bindings) : Records w w₁ (Node.NotedIn []) :=
  (step h).congr fun x => by simp [Node.NotedIn]

theorem cons {p : Walk × Node Nat} (hp : Records w w₁ (p.2.Noted p.1))
    (hps : Records w₁ w₂ (Node.NotedIn ps)) : Records w w₂ (Node.NotedIn (p :: ps)) :=
  (hp.seq hps).congr fun x => by simp [Node.NotedIn]

theorem one {p : Walk × Node Nat} (hp : Records w w₁ (p.2.Noted p.1)) :
    Records w w₁ (Node.NotedIn [p]) :=
  hp.cons (nil rfl)

theorem append (hps : Records w w₁ (Node.NotedIn ps)) (hqs : Records w₁ w₂ (Node.NotedIn qs)) :
    Records w w₂ (Node.NotedIn (ps ++ qs)) :=
  (hps.seq hqs).congr fun x => by simp [Node.NotedIn, or_and_right, exists_or]

/-- The superclass of a class is recorded, then what is in its methods. -/
theorem inClass {name : Token} {superclass : Option (Site Nat)} {methods : List (Method Nat)}
    (h : Records (w.enterClass name superclass) w₁
      (Node.NotedIn (Method.visits methods (w.enterClass name superclass)))) :
    Records w w₁ ((Node.stmt (.classDecl name superclass methods)).Noted w) := by
  refine inner rfl (append ((enterClass w name superclass).congr fun x => ?_) h)
  cases superclass with
  | none => simp [Node.NotedIn]
  | some s =>
    have hleaf : (Node.expr (.ref s)).Noted (w.beforeSuperclass name s) x ↔
        (Node.expr (.ref s)).bound? (w.beforeSuperclass name s) = some x := Node.noted_leaf rfl x
    simp [Node.NotedIn, hleaf]

end Walk.Records

mutual

/-- Resolving an expression records the entries of the nodes it meets. -/
theorem Expr.records_resolve : ∀ (e : Expr Nat) (w : Walk),
    Records w (e.resolve w) ((Node.expr e).Noted w)
  | .literal _, _ => .inner rfl (.nil rfl)
  | .group e, w => .inner rfl (.one (e.records_resolve w))
  | .unary _ e, w => .inner rfl (.one (e.records_resolve w))
  | .get e _, w => .inner rfl (.one (e.records_resolve w))
  | .binary _ a b, w => .inner rfl (.cons (a.records_resolve w) (.one (b.records_resolve _)))
  | .logical _ a b, w => .inner rfl (.cons (a.records_resolve w) (.one (b.records_resolve _)))
  | .set a _ b, w => .inner rfl (.cons (b.records_resolve w) (.one (a.records_resolve _)))
  | .ref s, w => .leaf (.read w s) rfl
  | .this s, w => .leaf (.readThis w s) rfl
  | .super s method, w => .leaf (.readSuper w s method) rfl
  | .assign s e, w => by
    -- the target is looked up behind the value, where the scopes are the same
    have hscopes := (e.declares_resolve w).scopes
    have hdistance : (e.resolve w).distance? = w.distance? := by
      unfold Walk.distance?
      rw [hscopes]
      rfl
    have hbind := (e.records_resolve w).seq (.bind (e.resolve w) s)
    rw [hdistance] at hbind
    refine hbind.congr fun x => ?_
    rw [Node.noted_iff _ (.expr (.assign s e)), or_comm]
    simp [Node.NotedIn, Node.visits, Node.bound?]
  | .call f _ args, w =>
    .inner rfl (.cons (f.records_resolve w) (Expr.records_resolveAll args _))
  | .lambda params body, w =>
    .inner rfl (.one ((Stmt.records_resolveAll body (w.enterBody .function params)).of_eq
      (Walk.bindings_enterBody w _ _) rfl))

theorem Expr.records_resolveAll : ∀ (es : List (Expr Nat)) (w : Walk),
    Records w (Expr.resolveAll es w) (Node.NotedIn (Expr.visits es w))
  | [], _ => .nil rfl
  | e :: es, w => .cons (e.records_resolve w) (Expr.records_resolveAll es _)

/-- Resolving a statement records the entries of the nodes it meets. -/
theorem Stmt.records_resolve : ∀ (s : Stmt Nat) (w : Walk),
    Records w (s.resolve w) ((Node.stmt s).Noted w)
  | .expression e, w => .inner rfl (.one (e.records_resolve w))
  | .print e, w => .inner rfl (.one (e.records_resolve w))
  | .var name none, w => .inner rfl (.nil (Walk.bindings_introduce w name))
  | .var name (some e), w =>
    .inner rfl (.one (((e.records_resolve (w.declare name)).behind
      (Walk.bindings_declare w name)).before (Walk.bindings_enter _ _ _)))
  | .block body, w => .inner rfl (.one ((Stmt.records_resolveAll body w.openScope).of_eq rfl rfl))
  | .cond e yes none, w => .inner rfl (.cons (e.records_resolve w) (.one (yes.records_resolve _)))
  | .cond e yes (some no), w =>
    .inner rfl (.cons (e.records_resolve w)
      (.cons (yes.records_resolve _) (.one (no.records_resolve _))))
  | .loop e body, w => .inner rfl (.cons (e.records_resolve w) (.one (body.records_resolve _)))
  | .function name params body, w =>
    .inner rfl (.one ((Stmt.records_resolveAll body
      ((w.introduce name).enterBody .function params)).of_eq
        ((Walk.bindings_enterBody _ _ _).trans (Walk.bindings_introduce w name)) rfl))
  | .ret keyword none, w => .inner rfl (.nil (Walk.bindings_checkReturn w keyword false))
  | .ret keyword (some e), w =>
    .inner rfl (.one ((e.records_resolve (w.checkReturn keyword true)).behind
      (Walk.bindings_checkReturn w keyword true)))
  | .classDecl name superclass methods, w =>
    (Records.inClass (Method.records_resolveAll methods (w.enterClass name superclass))).before
      (Walk.bindings_leaveClass _ _ _)

theorem Stmt.records_resolveAll : ∀ (ss : List (Stmt Nat)) (w : Walk),
    Records w (Stmt.resolveAll ss w) ((Node.stmts ss).Noted w)
  | [], _ => .inner rfl (.nil rfl)
  | s :: ss, w => .inner rfl (.cons (s.records_resolve w) (.one (Stmt.records_resolveAll ss _)))

theorem Method.records_resolveAll : ∀ (ms : List (Method Nat)) (w : Walk),
    Records w (Method.resolveAll ms w) (Node.NotedIn (Method.visits ms w))
  | [], _ => .nil rfl
  | .mk name params body :: ms, w =>
    .cons ((Stmt.records_resolveAll body (w.enterBody (.ofMethod name) params)).of_eq
      (Walk.bindings_enterBody w _ _) rfl) (Method.records_resolveAll ms _)

end

/-- **Resolving a node records the entries of the nodes that the walk meets**, and no others. -/
theorem Node.records_resolve (node : Node Nat) (w : Walk) :
    Records w (node.resolve w) (node.Noted w) := by
  cases node with
  | expr e => exact e.records_resolve w
  | stmt s => exact s.records_resolve w
  | stmts ss => exact Stmt.records_resolveAll ss w

/-! ## The nodes met are those of the tree -/

theorem Expr.map_snd_visits (es : List (Expr Nat)) (w : Walk) :
    (Expr.visits es w).map Prod.snd = es.map Node.expr := by
  induction es generalizing w with
  | nil => rfl
  | cons e es ih => exact congrArg (Node.expr e :: ·) (ih _)

theorem Method.map_snd_visits (ms : List (Method Nat)) (w : Walk) (Γ : Context) :
    (Method.visits ms w).map Prod.snd = (ms.map (·.node Γ)).map Prod.snd := by
  induction ms generalizing w with
  | nil => rfl
  | cons m ms ih =>
    obtain ⟨name, params, body⟩ := m
    exact congrArg (Node.stmts body :: ·) (ih _)

/-- A walk comes to each node directly below a node once. -/
theorem Node.visits_perm (w : Walk) (Γ : Context) (node : Node Nat) :
    ((node.visits w).map Prod.snd).Perm ((node.children Γ).map Prod.snd) := by
  cases node with
  | expr e =>
    cases e with
    | set a name b => exact .swap ..
    | call f paren args =>
      refine .cons _ (.of_eq ?_)
      rw [Expr.map_snd_visits, List.map_map]
      rfl
    | _ => exact .refl _
  | stmt s =>
    cases s with
    | var name init => cases init <;> exact .refl _
    | ret keyword value => cases value <;> exact .refl _
    | cond test yes no => cases no <;> exact .refl _
    | classDecl name superclass methods =>
      rw [visits, children, List.map_append, List.map_append, List.map_map, List.map_map,
        Method.map_snd_visits]
      exact .refl _
    | _ => exact .refl _
  | stmts ss => cases ss <;> exact .refl _

/-- A walk that meets a node goes on to meet what it meets below. -/
theorem Walk.Meets.trans {w w₁ w₂ : Walk} {node node₁ node₂ : Node Nat}
    (h : Meets w node w₁ node₁) (h' : Meets w₁ node₁ w₂ node₂) : Meets w node w₂ node₂ := by
  induction h with
  | here => exact h'
  | part hvisit _ ih => exact .part hvisit (ih h')

/-- The walk that resolves a line from the start comes to a node in a state. -/
def Line.Meets (line : Line Nat) (w : Walk) (node : Node Nat) : Prop :=
  Walk.Meets .start (.stmts line.statements) w node ∨ ∃ e, line.trailing = some e ∧
    Walk.Meets (Stmt.resolveAll line.statements .start) (.expr e) w node

/-- **Every node of a line is met.** -/
theorem Line.exists_meets {line : Line Nat} {Γ : Context} {node : Node Nat}
    (h : line.Within Γ node) : ∃ w, line.Meets w node := by
  induction h with
  | statements => exact ⟨_, .inl (.here _ _)⟩
  | trailing he => exact ⟨_, .inr ⟨_, he, .here _ _⟩⟩
  | @child Γ Γ' node node' _ hc ih =>
    obtain ⟨w, hmeets⟩ := ih
    have hmem := (node.visits_perm w Γ).mem_iff.2 (List.mem_map_of_mem hc)
    obtain ⟨⟨w', part⟩, hvisit, rfl⟩ := List.mem_map.1 hmem
    have hpart := Walk.Meets.part hvisit (.here w' part)
    refine ⟨w', hmeets.imp (·.trans hpart) ?_⟩
    exact fun ⟨e, he, hmeets⟩ => ⟨e, he, hmeets.trans hpart⟩

end LoxLang
