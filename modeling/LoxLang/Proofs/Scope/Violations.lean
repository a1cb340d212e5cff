import LoxLang.Proofs.Scope.Resolution
import Mathlib.Data.List.Perm.Basic

/-!
# What resolving reports

The rules of scope are rules about single nodes: `Node.violations` lists how a node breaks them
where it stands, once for each rule and each token that it is broken at. `Node.nodes` lists all
nodes of a tree, each in its context, so the violations of a tree are those of its nodes
(`Node.allViolations`). A walk keeps what it knows of the context in flags and tables that it sets
and resets, and it goes on behind a violation; still it reports each violation of the tree once and
nothing else (`reports_violations`). Reports pile up in the order of the walk, which is not that of
the text, so the two lists agree up to their order.
-/

namespace LoxLang

variable {σ : Type}

/-- The violation of a declaration whose name the innermost scope has already. Globals may be
declared again. -/
def Context.redeclared (Γ : Context) (name : Token) : List ScopeError :=
  match Γ with
  | [] => []
  | sc :: _ => if name.lexeme ∈ sc.names then [⟨name, .declaredTwice⟩] else []

/-- The violations of parameters that have the name of an earlier one. The names in `seen` stand
before the first. -/
def Scope.repeated (seen : List String) : List Token → List ScopeError
  | [] => []
  | p :: ps =>
    (if p.lexeme ∈ seen then [⟨p, .declaredTwice⟩] else []) ++ repeated (p.lexeme :: seen) ps

/-- The violations among the parameters of a method. -/
def Method.repeated : Method σ → List ScopeError
  | .mk _ params _ => Scope.repeated [] params

/-- How a node that stands in a context breaks the rules of scope; what its parts break is left
out. -/
def Node.violations (Γ : Context) : Node σ → List ScopeError
  | .expr (.ref s) =>
    if ∃ sc ∈ Γ.head?, sc.pending = some s.name.lexeme then [⟨s.name, .readInInitializer⟩] else []
  | .expr (.this s) => if Γ.classKind = .outside then [⟨s.name, .thisOutsideClass⟩] else []
  | .expr (.super s _) =>
    match Γ.classKind with
    | .outside => [⟨s.name, .superOutsideClass⟩]
    | .base => [⟨s.name, .superWithoutSuperclass⟩]
    | .derived => []
  | .expr (.lambda params _) => Scope.repeated [] params
  | .stmt (.var name _) => Γ.redeclared name
  | .stmt (.function name params _) => Γ.redeclared name ++ Scope.repeated [] params
  | .stmt (.ret keyword value) =>
    match Γ.bodyKind with
    | .topLevel => [⟨keyword, .topLevelReturn⟩]
    | .initializer => if value.isSome then [⟨keyword, .initializerValue⟩] else []
    | .function | .method => []
  | .stmt (.classDecl name superclass methods) =>
    Γ.redeclared name ++
      (superclass.toList.filter (·.name.lexeme = name.lexeme)).map (⟨·.name, .ownSuperclass⟩) ++
      methods.flatMap Method.repeated
  | _ => []

/-- The nodes directly below a node are smaller. -/
theorem Node.sizeOf_lt_of_mem_children {Γ : Context} {node : Node σ} {p : Context × Node σ}
    (h : p ∈ node.children Γ) : sizeOf p.2 < sizeOf node := by
  unfold children at h
  split at h
  all_goals
    simp only [List.mem_cons, List.not_mem_nil, or_false, List.mem_append, List.mem_map,
      Option.mem_toList] at h
  case h_12 =>
    rcases h with rfl | ⟨e, he, rfl⟩
    · simp +arith
    · have := List.sizeOf_lt_of_mem he
      simp
      omega
  case h_25 =>
    rcases h with ⟨s, rfl, rfl⟩ | ⟨⟨_, params, body⟩, hm, rfl⟩
    · simp +arith
    · have := List.sizeOf_lt_of_mem hm
      simp [Method.node] at this ⊢
      omega
  all_goals rcases h with rfl | rfl | rfl <;> simp +arith

/-- A node and all nodes below it, each in its context. -/
def Node.nodes (Γ : Context) (node : Node σ) : List (Context × Node σ) :=
  (Γ, node) :: (node.children Γ).attach.flatMap fun p => p.1.2.nodes p.1.1
termination_by sizeOf node
decreasing_by exact sizeOf_lt_of_mem_children p.2

/-- All violations in a tree whose root stands in a context. -/
def Node.allViolations (Γ : Context) (node : Node σ) : List ScopeError :=
  (node.nodes Γ).flatMap fun p => p.2.violations p.1

/-- The violations of a tree are those of its root and those in its parts. -/
theorem Node.allViolations_eq (Γ : Context) (node : Node σ) :
    node.allViolations Γ =
      node.violations Γ ++ (node.children Γ).flatMap fun p => p.2.allViolations p.1 := by
  have hmap := List.flatMap_map Subtype.val
    (fun p : Context × Node σ => (p.2.nodes p.1).flatMap fun p => p.2.violations p.1)
    (node.children Γ).attach
  rw [List.attach_map_subtype_val] at hmap
  unfold allViolations
  rw [nodes, List.flatMap_cons, List.flatMap_assoc, hmap]

/-! ## Reports of a walk -/

/-- Between two points of a walk the given violations are reported, in any order. -/
def Walk.Reports (w w' : Walk) (vs : List ScopeError) : Prop := w'.errors.Perm (vs ++ w.errors)

namespace Walk.Reports

variable {w w₁ w₂ : Walk} {Γ : Context} {vs vs₁ vs₂ : List ScopeError}

/-- A step that reports nothing. -/
theorem step (h : w₁.errors = w.errors) : Reports w w₁ [] := .of_eq h

/-- Only what is reported matters. -/
theorem congr {w' w₁' : Walk} (h : Reports w w₁ vs) (he : w.errors = w'.errors)
    (he₁ : w₁.errors = w₁'.errors) : Reports w' w₁' vs := by
  unfold Reports at h ⊢
  rwa [← he, ← he₁]

theorem perm (h : Reports w w₁ vs₁) (hvs : vs₁.Perm vs₂) : Reports w w₁ vs₂ :=
  h.trans (hvs.append_right _)

/-- One stretch of a walk after another. -/
theorem seq (h₁ : Reports w w₁ vs₁) (h₂ : Reports w₁ w₂ vs₂) : Reports w w₂ (vs₁ ++ vs₂) := by
  have h : w₂.errors.Perm (vs₂ ++ (vs₁ ++ w.errors)) := h₂.trans (h₁.append_left vs₂)
  refine h.trans ?_
  rw [← List.append_assoc]
  exact List.perm_append_comm.append_right _

/-- One step that may report a violation. -/
theorem check (w : Walk) (t : Token) (cause : ScopeCause) (p : Prop) [Decidable p] :
    Reports w (if p then w.report t cause else w) (if p then [⟨t, cause⟩] else []) := by
  split
  · exact .refl _
  · exact .refl _

theorem bind (w : Walk) (s : Site Nat) : Reports w (w.bind s) [] := by
  refine step ?_
  unfold Walk.bind
  split <;> rfl

theorem enter (w : Walk) (name : String) (ready : Bool) : Reports w (w.enter name ready) [] := by
  refine step ?_
  unfold Walk.enter
  split <;> rfl

/-! ### Steps that may report -/

theorem read (h : List.Forall₂ Scope.ShownBy w.scopes Γ) (s : Site Nat) :
    Reports w (w.read s) ((Node.expr (.ref s)).violations Γ) := by
  have hunready := check w s.name .readInInitializer (w.isUnready s.name.lexeme = true)
  have hread := hunready.seq (bind _ s)
  rw [List.append_nil] at hread
  have hvs : (Node.expr (.ref s)).violations Γ =
      if w.isUnready s.name.lexeme = true then [⟨s.name, .readInInitializer⟩] else [] :=
    if_congr (isUnready_iff h s.name.lexeme).symm rfl rfl
  rw [hvs]
  exact hread

theorem readThis (h : w.At Γ) (s : Site Nat) :
    Reports w (w.readThis s) ((Node.expr (.this s)).violations Γ) := by
  change Reports w (w.readThis s)
    (if Γ.classKind = .outside then [⟨s.name, .thisOutsideClass⟩] else [])
  unfold Walk.readThis
  rw [← h.cls]
  cases w.cls with
  | outside => exact .refl _
  | base => exact bind w s
  | derived => exact bind w s

theorem readSuper (h : w.At Γ) (s : Site Nat) (method : Token) :
    Reports w (w.readSuper s) ((Node.expr (.super s method)).violations Γ) := by
  change Reports w (w.readSuper s) (match Γ.classKind with
    | .outside => [⟨s.name, .superOutsideClass⟩]
    | .base => [⟨s.name, .superWithoutSuperclass⟩]
    | .derived => [])
  unfold Walk.readSuper
  rw [← h.cls]
  cases w.cls with
  | outside => exact bind (w.report s.name .superOutsideClass) s
  | base => exact bind (w.report s.name .superWithoutSuperclass) s
  | derived => exact bind w s

theorem checkReturn (h : w.At Γ) (keyword : Token) (value : Option (Expr Nat)) :
    Reports w (w.checkReturn keyword value.isSome)
      ((Node.stmt (.ret keyword value)).violations Γ) := by
  change Reports w (w.checkReturn keyword value.isSome) (match Γ.bodyKind with
    | .topLevel => [⟨keyword, .topLevelReturn⟩]
    | .initializer => if value.isSome then [⟨keyword, .initializerValue⟩] else []
    | .function | .method => [])
  unfold Walk.checkReturn
  rw [← h.body]
  cases hb : w.body with
  | topLevel =>
    simp [report, hb]
    exact .refl _
  | function => simpa [hb] using step rfl
  | method => simpa [hb] using step rfl
  | initializer => simpa [hb] using check w keyword .initializerValue (value.isSome = true)

/-- A name that the innermost scope has already is reported. -/
theorem declare (hs : List.Forall₂ Scope.ShownBy w.scopes Γ) (name : Token) :
    Reports w (w.declare name) (Γ.redeclared name) := by
  unfold Walk.declare
  split
  · next hnil =>
    rw [hnil] at hs
    cases hs
    exact .step rfl
  · next hcons =>
    rw [hcons] at hs
    cases hs with
    | @cons t sc ts Γ ht hts =>
    have hn := ht.names name.lexeme
    change Reports w _ (if name.lexeme ∈ sc.names then _ else _)
    by_cases hmem : name.lexeme ∈ sc.names
    · rw [if_pos (hn.2 hmem), if_pos hmem]
      exact .refl _
    · rw [if_neg fun hc => hmem (hn.1 hc), if_neg hmem]
      exact enter w _ _

theorem introduce (hs : List.Forall₂ Scope.ShownBy w.scopes Γ) (name : Token) :
    Reports w (w.introduce name) (Γ.redeclared name) := by
  have h := (declare hs name).seq (enter (w.declare name) name.lexeme true)
  rwa [List.append_nil] at h

/-- Parameters are introduced one after the other. -/
theorem foldl_introduce {sc : Scope} (h : w.At (sc :: Γ)) (params : List Token) :
    Reports w (params.foldl Walk.introduce w) (Scope.repeated sc.names params) := by
  induction params generalizing w sc with
  | nil => exact step rfl
  | cons p params ih => exact (introduce h.scopes p).seq (ih (h.introduce p))

/-- Entering a body, walking through it and leaving it. -/
theorem inBody (h : w.At Γ) (kind around : BodyKind) {params : List Token}
    (hbody : Reports (w.enterBody kind params) w₁ vs) :
    Reports w (w₁.leaveBody around) (Scope.repeated [] params ++ vs) := by
  have hopen : ({ w with body := kind }.openScope).At (⟨.body kind, [], none⟩ :: Γ) :=
    ⟨.cons (.empty _) h.scopes, rfl, h.cls⟩
  exact ((foldl_introduce hopen params).seq hbody).congr rfl rfl

/-- The scopes of a class are opened without a report. -/
theorem enterOpened (w : Walk) (name : String) : Reports w (w.openScope.enter name true) [] :=
  (enter w.openScope name true).congr rfl rfl

/-- Entering a class reports what is wrong with its name and with the superclass that it names. -/
theorem enterClass (h : w.At Γ) (name : Token) (superclass : Option (Site Nat)) :
    Reports w (w.enterClass name superclass) (Γ.redeclared name ++
      ((superclass.toList.filter (·.name.lexeme = name.lexeme)).map (⟨·.name, .ownSuperclass⟩) ++
        superclass.toList.flatMap fun s =>
          (Node.expr (.ref s)).violations (Γ.declare name.lexeme))) := by
  have hname : Reports w ({ w with cls := .base }.introduce name) (Γ.redeclared name) :=
    (introduce (w := { w with cls := .base }) h.scopes name).congr rfl rfl
  have hshown : List.Forall₂ Scope.ShownBy ({ w with cls := .base }.introduce name).scopes
      (Γ.declare name.lexeme) := by
    have hscopes := (h.introduce name).scopes
    rw [scopes_introduce] at hscopes ⊢
    exact hscopes
  unfold Walk.enterClass
  generalize { w with cls := .base }.introduce name = w₁ at hname hshown
  refine hname.seq ?_
  cases superclass with
  | none => exact enterOpened w₁ thisName
  | some s =>
    have hown := check w₁ s.name .ownSuperclass (s.name.lexeme = name.lexeme)
    have hsame : (if s.name.lexeme = name.lexeme then w₁.report s.name .ownSuperclass
        else w₁).scopes = w₁.scopes := by
      split <;> rfl
    rw [← hsame] at hshown
    dsimp only
    generalize (if s.name.lexeme = name.lexeme then w₁.report s.name .ownSuperclass
      else w₁) = w₂ at hown hshown
    have hread : Reports w₂ _ _ := (read (w := { w₂ with cls := .derived }) hshown s).congr rfl rfl
    have hopen := (enterOpened ({ w₂ with cls := .derived }.read s) superName).seq
      (enterOpened _ thisName)
    refine ((hown.seq hread).seq hopen).perm (.of_eq ?_)
    by_cases h : s.name.lexeme = name.lexeme <;> simp [h]

/-! ### Trees -/

variable {node node₁ node₂ : Node Nat} {Γ₁ Γ₂ : Context}

theorem leaf (h : Reports w w₁ (node.violations Γ)) (hc : node.children Γ = []) :
    Reports w w₁ (node.allViolations Γ) := by
  rwa [node.allViolations_eq, hc, List.flatMap_nil, List.append_nil]

theorem one (h : Reports w w₁ (node.violations Γ ++ node₁.allViolations Γ₁))
    (hc : node.children Γ = [(Γ₁, node₁)]) : Reports w w₁ (node.allViolations Γ) := by
  rwa [node.allViolations_eq, hc, List.flatMap_singleton]

theorem two
    (h : Reports w w₁ (node.violations Γ ++ (node₁.allViolations Γ₁ ++ node₂.allViolations Γ₂)))
    (hc : node.children Γ = [(Γ₁, node₁), (Γ₂, node₂)]) :
    Reports w w₁ (node.allViolations Γ) := by
  rwa [node.allViolations_eq, hc, List.flatMap_cons, List.flatMap_singleton]

end Walk.Reports

open Walk (Reports)

mutual

/-- Resolving an expression reports its violations. -/
theorem Expr.reports_resolve : ∀ (e : Expr Nat) {w : Walk} {Γ : Context}, w.At Γ →
    Reports w (e.resolve w) ((Node.expr e).allViolations Γ)
  | .literal _, _, _, _ => .leaf (.step rfl) rfl
  | .group e, _, _, h => .one (e.reports_resolve h) rfl
  | .unary _ e, _, _, h => .one (e.reports_resolve h) rfl
  | .get e _, _, _, h => .one (e.reports_resolve h) rfl
  | .binary _ a b, _, _, h =>
    .two ((a.reports_resolve h).seq (b.reports_resolve (a.at_resolve h))) rfl
  | .logical _ a b, _, _, h =>
    .two ((a.reports_resolve h).seq (b.reports_resolve (a.at_resolve h))) rfl
  | .set e _ v, _, _, h =>
    .two (((v.reports_resolve h).seq (e.reports_resolve (v.at_resolve h))).perm
      List.perm_append_comm) rfl
  | .ref s, _, _, h => .leaf (.read h.scopes s) rfl
  | .this s, _, _, h => .leaf (.readThis h s) rfl
  | .super s method, _, _, h => .leaf (.readSuper h s method) rfl
  | .assign s e, _, _, h => by
    have he := (e.reports_resolve h).seq (.bind (e.resolve _) s)
    rw [List.append_nil] at he
    exact .one he rfl
  | .call f _ args, _, Γ, h => by
    have hargs := (f.reports_resolve h).seq (Expr.reports_resolveAll args (f.at_resolve h))
    rw [Node.allViolations_eq, Node.children, List.flatMap_cons, List.flatMap_map]
    exact hargs
  | .lambda params body, w, _, h =>
    .one (.inBody h .function w.body
      (Stmt.reports_resolveAll body (h.enterBody .function params) (.ofParams _ params _))) rfl

theorem Expr.reports_resolveAll : ∀ (es : List (Expr Nat)) {w : Walk} {Γ : Context}, w.At Γ →
    Reports w (Expr.resolveAll es w) (es.flatMap fun e => (Node.expr e).allViolations Γ)
  | [], _, _, _ => .step rfl
  | e :: es, _, _, h => by
    rw [List.flatMap_cons]
    exact (e.reports_resolve h).seq (Expr.reports_resolveAll es (e.at_resolve h))

/-- Resolving a statement reports its violations. -/
theorem Stmt.reports_resolve : ∀ (s : Stmt Nat) {w : Walk} {Γ : Context}, w.At Γ → Γ.Settled →
    Reports w (s.resolve w) ((Node.stmt s).allViolations Γ)
  | .expression e, _, _, h, _ => .one (e.reports_resolve h) rfl
  | .print e, _, _, h, _ => .one (e.reports_resolve h) rfl
  | .var name none, _, _, h, _ => .leaf (.introduce h.scopes name) rfl
  | .var name (some e), w, Γ, h, hΓ => by
    have he := (Reports.declare h.scopes name).seq (e.reports_resolve (h.declare hΓ name))
    have hdefine := he.seq (.enter (e.resolve (w.declare name)) name.lexeme true)
    rw [List.append_nil] at hdefine
    exact .one hdefine rfl
  | .block body, _, Γ, h, _ =>
    .one ((Stmt.reports_resolveAll body h.openScope (.block Γ)).congr rfl rfl) rfl
  | .cond e yes none, _, _, h, hΓ =>
    .two ((e.reports_resolve h).seq (yes.reports_resolve (e.at_resolve h) hΓ)) rfl
  | .cond e yes (some no), _, Γ, h, hΓ => by
    have hyes := (e.reports_resolve h).seq (yes.reports_resolve (e.at_resolve h) hΓ)
    have hno := no.reports_resolve (yes.at_resolve (e.at_resolve h) hΓ) (hΓ.after yes)
    rw [Node.allViolations_eq, Node.children, List.flatMap_cons, List.flatMap_cons,
      List.flatMap_singleton, ← List.append_assoc (Node.allViolations ..)]
    exact hyes.seq hno
  | .loop e body, _, _, h, hΓ =>
    .two ((e.reports_resolve h).seq (body.reports_resolve (e.at_resolve h) hΓ)) rfl
  | .function name params body, w, Γ, h, _ => by
    have hbody := Stmt.reports_resolveAll body ((h.introduce name).enterBody .function params)
      (.ofParams _ params _)
    have hall := (Reports.introduce h.scopes name).seq (.inBody (h.introduce name) _ w.body hbody)
    rw [← List.append_assoc] at hall
    exact .one hall rfl
  | .ret keyword none, _, _, h, _ => .leaf (.checkReturn h keyword none) rfl
  | .ret keyword (some e), _, _, h, _ =>
    .one ((Reports.checkReturn h keyword (some e)).seq
      (e.reports_resolve (h.checkReturn keyword true))) rfl
  | .classDecl name superclass methods, w, Γ, h, hΓ => by
    have henter := Reports.enterClass h name superclass
    have hmethods := Method.reports_resolveAll methods (h.enterClass hΓ name superclass)
    refine ((henter.seq hmethods).perm ?_).congr rfl ?_
    · have href : ∀ s : Site Nat, (Node.expr (.ref s)).allViolations (Γ.declare name.lexeme) =
          (Node.expr (.ref s)).violations (Γ.declare name.lexeme) := fun s => by
        rw [Node.allViolations_eq, Node.children, List.flatMap_nil, List.append_nil]
      rw [Node.allViolations_eq, Node.children, List.flatMap_append, List.flatMap_map,
        List.flatMap_map, Node.violations]
      simp only [href, List.append_assoc]
      refine .append_left _ (.append_left _ ?_)
      refine .trans (.append_left _ (List.flatMap_append_perm methods _ _).symm) ?_
      exact List.perm_append_comm_assoc ..
    · cases superclass <;> rfl

theorem Stmt.reports_resolveAll : ∀ (ss : List (Stmt Nat)) {w : Walk} {Γ : Context}, w.At Γ →
    Γ.Settled → Reports w (Stmt.resolveAll ss w) ((Node.stmts ss).allViolations Γ)
  | [], _, _, _, _ => .leaf (.step rfl) rfl
  | s :: ss, _, _, h, hΓ =>
    .two ((s.reports_resolve h hΓ).seq
      (Stmt.reports_resolveAll ss (s.at_resolve h hΓ) (hΓ.after s))) rfl

/-- Resolving the methods of a class reports what is wrong with their parameters and bodies. -/
theorem Method.reports_resolveAll : ∀ (ms : List (Method Nat)) {w : Walk} {Γ : Context}, w.At Γ →
    Reports w (Method.resolveAll ms w) (ms.flatMap fun m =>
      m.repeated ++ (m.node Γ).2.allViolations (m.node Γ).1)
  | [], _, _, _ => .step rfl
  | .mk name params body :: ms, w, _, h => by
    have hbody := Reports.inBody h (.ofMethod name) w.body
      (Stmt.reports_resolveAll body (h.enterBody (.ofMethod name) params) (.ofParams _ params _))
    have hat := Method.at_resolveAll [.mk name params body] h
    rw [List.flatMap_cons, Method.node, ← BodyKind.ofMethod_eq]
    exact hbody.seq (Method.reports_resolveAll ms hat)

end

/-- **Resolving reports exactly the violations of the rules of scope.** A program gets its bindings
if none of its nodes violates a rule where it stands, and else the violations of its nodes, each
once and nothing else. -/
theorem reports_violations (ss : List (Stmt Nat)) :
    match Stmt.bindings ss with
    | .ok _ => (Node.stmts ss).allViolations [] = []
    | .error es => (Node.stmts ss).allViolations [] ≠ [] ∧
        es.Perm ((Node.stmts ss).allViolations []) := by
  have h := Stmt.reports_resolveAll ss Walk.At.start .nil
  unfold Walk.Reports at h
  rw [show Walk.start.errors = [] from rfl, List.append_nil] at h
  unfold Stmt.bindings Walk.finish
  split_ifs with hempty
  · rw [List.isEmpty_iff.1 hempty] at h
    exact h.nil_eq.symm
  · refine ⟨fun hnil => hempty ?_, (List.reverse_perm _).trans h⟩
    rw [hnil] at h
    exact List.isEmpty_iff.2 h.eq_nil

end LoxLang
