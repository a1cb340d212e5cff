import LoxLang.Proofs.Scope.Walk
import LoxLang.Session

/-!
# What resolving finds
-/

namespace LoxLang

namespace Context

/-- Declarations change the innermost scope alone, and not what it belongs to. -/
theorem foldl_declare_cons (names : List String) (sc : Scope) (Γ : Context) :
    ∃ sc', names.foldl declare (sc :: Γ) = sc' :: Γ ∧ sc'.kind = sc.kind := by
  induction names generalizing sc with
  | nil => exact ⟨sc, rfl, rfl⟩
  | cons name names ih => exact ih (sc.declare name)

/-- Declarations outside of all scopes are global and open none. -/
theorem foldl_declare_nil (names : List String) : names.foldl declare ([] : Context) = [] := by
  induction names with
  | nil => rfl
  | cons name names ih => exact ih

theorem afterAll_nil {σ : Type} (ss : List (Stmt σ)) : afterAll [] ss = [] := by
  induction ss with
  | nil => rfl
  | cons s ss ih =>
    change afterAll (s.declared.foldl declare []) ss = []
    rw [foldl_declare_nil]
    exact ih

theorem after_cons {σ : Type} (s : Stmt σ) (sc : Scope) (Γ : Context) :
    ∃ sc', after (sc :: Γ) s = sc' :: Γ ∧ sc'.kind = sc.kind :=
  foldl_declare_cons s.declared sc Γ

theorem afterAll_cons {σ : Type} (ss : List (Stmt σ)) (sc : Scope) (Γ : Context) :
    ∃ sc', afterAll (sc :: Γ) ss = sc' :: Γ ∧ sc'.kind = sc.kind := by
  induction ss generalizing sc with
  | nil => exact ⟨sc, rfl, rfl⟩
  | cons s ss ih =>
    obtain ⟨sc₁, h₁, hk₁⟩ := after_cons s sc Γ
    obtain ⟨sc₂, h₂, hk₂⟩ := ih sc₁
    refine ⟨sc₂, ?_, hk₂.trans hk₁⟩
    rw [← h₂, ← h₁]
    rfl

end Context

/-! ## The walk follows the contexts -/

namespace Walk

variable {w : Walk} {Γ : Context}

theorem At.read (h : w.At Γ) (site : Site Nat) : (w.read site).At Γ :=
  h.of_eq (scopes_read w site) (body_read w site) (cls_read w site)

theorem At.readThis (h : w.At Γ) (site : Site Nat) : (w.readThis site).At Γ := by
  unfold Walk.readThis
  split
  · exact h.report _ _
  · exact h.bind site

theorem At.readSuper (h : w.At Γ) (site : Site Nat) : (w.readSuper site).At Γ := by
  refine At.bind ?_ site
  split
  · exact h.report _ _
  · exact h.report _ _
  · exact h

theorem At.checkReturn (h : w.At Γ) (keyword : Token) (hasValue : Bool) :
    (w.checkReturn keyword hasValue).At Γ := by
  unfold Walk.checkReturn
  dsimp only
  split <;> split
  · exact (h.report _ _).report _ _
  · exact h.report _ _
  · exact h.report _ _
  · exact h

/-- Leaving a body whose statements have been walked through. -/
theorem At.leaveBodyAfter {σ : Type} {kind : BodyKind} {params : List Token} {ss : List (Stmt σ)}
    (h : w.At (Context.afterAll (.ofParams kind params :: Γ) ss)) :
    (w.leaveBody Γ.bodyKind).At Γ := by
  obtain ⟨sc, hs, hk⟩ := Context.afterAll_cons ss (.ofParams kind params) Γ
  rw [hs] at h
  exact h.leaveBody hk

/-- Leaving a block whose statements have been walked through. -/
theorem At.closeBlockAfter {σ : Type} {ss : List (Stmt σ)}
    (h : w.At (Context.afterAll (.block :: Γ) ss)) : w.closeScope.At Γ := by
  obtain ⟨sc, hs, hk⟩ := Context.afterAll_cons ss .block Γ
  rw [hs] at h
  exact h.closeBlock hk

end Walk

mutual

/-- Resolving an expression leaves the walk where it was. -/
theorem Expr.at_resolve : ∀ (e : Expr Nat) {w : Walk} {Γ : Context}, w.At Γ → (e.resolve w).At Γ
  | .literal _, _, _, h => h
  | .group e, _, _, h => e.at_resolve h
  | .unary _ e, _, _, h => e.at_resolve h
  | .binary _ a b, _, _, h => b.at_resolve (a.at_resolve h)
  | .logical _ a b, _, _, h => b.at_resolve (a.at_resolve h)
  | .ref s, _, _, h => h.read s
  | .assign s e, _, _, h => (e.at_resolve h).bind s
  | .call e _ args, _, _, h => Expr.at_resolveAll args (e.at_resolve h)
  | .get e _, _, _, h => e.at_resolve h
  | .set e _ v, _, _, h => e.at_resolve (v.at_resolve h)
  | .this s, _, _, h => h.readThis s
  | .super s _, _, _, h => h.readSuper s
  | .lambda params body, _, Γ, h => by
    have hb := Stmt.at_resolveAll body (h.enterBody .function params) (.ofParams _ params _)
    rw [Expr.resolve, h.body]
    exact hb.leaveBodyAfter

theorem Expr.at_resolveAll : ∀ (es : List (Expr Nat)) {w : Walk} {Γ : Context}, w.At Γ →
    (Expr.resolveAll es w).At Γ
  | [], _, _, h => h
  | e :: es, _, _, h => Expr.at_resolveAll es (e.at_resolve h)

/-- Resolving a statement leads behind its declarations. -/
theorem Stmt.at_resolve : ∀ (s : Stmt Nat) {w : Walk} {Γ : Context}, w.At Γ → Γ.Settled →
    (s.resolve w).At (Γ.after s)
  | .expression e, _, _, h, _ => e.at_resolve h
  | .print e, _, _, h, _ => e.at_resolve h
  | .var name none, _, _, h, _ => h.introduce name
  | .var name (some e), _, _, h, hΓ => (e.at_resolve (h.declare hΓ name)).define_begin hΓ
  | .block body, _, Γ, h, _ =>
    (Stmt.at_resolveAll body h.openScope (.block Γ)).closeBlockAfter
  | .cond e yes none, _, _, h, hΓ => yes.at_resolve (e.at_resolve h) hΓ
  | .cond e yes (some no), _, Γ, h, hΓ => by
    have hno := no.at_resolve (yes.at_resolve (e.at_resolve h) hΓ) (hΓ.after yes)
    rw [Context.after, Stmt.declared, List.foldl_append]
    exact hno
  | .loop e body, _, _, h, hΓ => body.at_resolve (e.at_resolve h) hΓ
  | .function name params body, w, Γ, h, hΓ => by
    have hn := h.introduce name
    have hb := Stmt.at_resolveAll body (hn.enterBody .function params) (.ofParams _ params _)
    have hw : w.body = (Γ.declare name.lexeme).bodyKind := by
      rw [Context.bodyKind_declare, h.body]
    rw [Stmt.resolve, hw]
    exact hb.leaveBodyAfter
  | .ret keyword none, _, _, h, _ => h.checkReturn keyword false
  | .ret keyword (some e), _, _, h, _ => e.at_resolve (h.checkReturn keyword true)
  | .classDecl name superclass methods, w, Γ, h, hΓ => by
    have hm := Method.at_resolveAll methods (h.enterClass hΓ name superclass)
    rw [Stmt.resolve, h.cls]
    exact hm.leaveClass

theorem Stmt.at_resolveAll : ∀ (ss : List (Stmt Nat)) {w : Walk} {Γ : Context}, w.At Γ →
    Γ.Settled → (Stmt.resolveAll ss w).At (Γ.afterAll ss)
  | [], _, _, h, _ => h
  | s :: ss, _, _, h, hΓ => Stmt.at_resolveAll ss (s.at_resolve h hΓ) (hΓ.after s)

theorem Method.at_resolveAll : ∀ (ms : List (Method Nat)) {w : Walk} {Γ : Context}, w.At Γ →
    (Method.resolveAll ms w).At Γ
  | [], _, _, h => h
  | .mk name params body :: ms, w, Γ, h => by
    have hb := Stmt.at_resolveAll body (h.enterBody (.ofMethod name) params) (.ofParams _ params _)
    rw [Method.resolveAll, h.body]
    exact Method.at_resolveAll ms hb.leaveBodyAfter

end

/-! ## The walk records the distances -/

/-- What the marks of the sites of a node are when resolving has accepted it: the distances of their
names in the context. No variable is read right in its own initializer, `this` and `super` stand in
classes that have them, and a `return` stands in a body. -/
def Node.Resolved : Context → Node (Option Nat) → Prop
  | Γ, .expr (.ref s) =>
    s.mark = Γ.distance? s.name.lexeme ∧ ∀ sc ∈ Γ.head?, sc.pending ≠ some s.name.lexeme
  | Γ, .expr (.assign s _) => s.mark = Γ.distance? s.name.lexeme
  | Γ, .expr (.this s) => s.mark = Γ.distance? s.name.lexeme ∧ Γ.classKind ≠ .outside
  | Γ, .expr (.super s _) => s.mark = Γ.distance? s.name.lexeme ∧ Γ.classKind = .derived
  | Γ, .stmt (.ret _ _) => Γ.bodyKind ≠ .topLevel
  | _, .stmt (.classDecl name (some s) _) => s.name.lexeme ≠ name.lexeme
  | _, _ => True

/-- Between two points of a walk the sites with numbers from `n` up to `n'` are resolved: no
violation is forgotten, no other number gets a distance, and if there is no violation, then `Q`
holds of all bindings that agree with those of the walk on these numbers. -/
structure Walk.Resolves (n n' : Nat) (w w' : Walk) (Q : Bindings → Prop) : Prop where
  le : n ≤ n'
  errors : w'.errors = [] → w.errors = []
  outside : ∀ k, k < n ∨ n' ≤ k → w'.bindings.lookup k = w.bindings.lookup k
  inside : w'.errors = [] → (∀ k, n ≤ k → k < n' → w.bindings.lookup k = none) → ∀ b : Bindings,
    (∀ k, n ≤ k → k < n' → b.lookup k = w'.bindings.lookup k) → Q b

namespace Walk.Resolves

variable {n n₁ n₂ : Nat} {w w₁ w₂ : Walk} {Γ : Context} {Q Q₁ Q₂ : Bindings → Prop}

theorem mono (h : Resolves n n₁ w w₁ Q₁) (hQ : ∀ b, Q₁ b → Q₂ b) : Resolves n n₁ w w₁ Q₂ :=
  ⟨h.le, h.errors, h.outside, fun he hn b hb => hQ b (h.inside he hn b hb)⟩

/-- Only the violations and the bindings of the two walks matter. -/
theorem congr {w' w₁' : Walk} (h : Resolves n n₁ w w₁ Q) (he : w.errors = w'.errors)
    (hb : w.bindings = w'.bindings) (he₁ : w₁.errors = w₁'.errors)
    (hb₁ : w₁.bindings = w₁'.bindings) : Resolves n n₁ w' w₁' Q :=
  ⟨h.le, he ▸ he₁ ▸ h.errors, hb ▸ hb₁ ▸ h.outside, he₁ ▸ hb ▸ hb₁ ▸ h.inside⟩

/-- One stretch of a walk after another. -/
theorem seq (h₁ : Resolves n n₁ w w₁ Q₁) (h₂ : Resolves n₁ n₂ w₁ w₂ Q₂) :
    Resolves n n₂ w w₂ fun b => Q₁ b ∧ Q₂ b := by
  have le₁ := h₁.le
  have le₂ := h₂.le
  refine ⟨Nat.le_trans le₁ le₂, fun he => h₁.errors (h₂.errors he), fun k hk => ?_,
    fun he hfree b hb => ⟨?_, ?_⟩⟩
  · rw [h₂.outside k (by omega), h₁.outside k (by omega)]
  · refine h₁.inside (h₂.errors he) (fun k hl hr => hfree k hl (by omega)) b fun k hl hr => ?_
    rw [hb k hl (by omega), h₂.outside k (.inl hr)]
  · refine h₂.inside he (fun k hl hr => ?_) b fun k hl hr => hb k (by omega) hr
    rw [h₁.outside k (.inr hl)]
    exact hfree k (by omega) hr

/-- The walk may also come first to the sites with the larger numbers. -/
theorem seqBefore (h₂ : Resolves n₁ n₂ w w₁ Q₂) (h₁ : Resolves n n₁ w₁ w₂ Q₁) :
    Resolves n n₂ w w₂ fun b => Q₁ b ∧ Q₂ b := by
  have le₁ := h₁.le
  have le₂ := h₂.le
  refine ⟨Nat.le_trans le₁ le₂, fun he => h₂.errors (h₁.errors he), fun k hk => ?_,
    fun he hfree b hb => ⟨?_, ?_⟩⟩
  · rw [h₁.outside k (by omega), h₂.outside k (by omega)]
  · refine h₁.inside he (fun k hl hr => ?_) b fun k hl hr => hb k hl (by omega)
    rw [h₂.outside k (.inl hr)]
    exact hfree k hl (by omega)
  · refine h₂.inside (h₁.errors he) (fun k hl hr => hfree k (by omega) hr) b fun k hl hr => ?_
    rw [hb k (by omega) hr, h₁.outside k (.inr hl)]

/-- A step that resolves no site; it may find a violation. -/
theorem step (n : Nat) (he : w₁.errors = [] → w.errors = []) (hb : w₁.bindings = w.bindings) :
    Resolves n n w w₁ fun _ => True :=
  ⟨Nat.le_refl _, he, fun _ _ => hb ▸ rfl, fun _ _ _ _ => trivial⟩

/-- A step that resolves no site and finds a violation unless `P` holds. -/
theorem check (n : Nat) {P : Prop} (he : w₁.errors = [] → P ∧ w.errors = [])
    (hb : w₁.bindings = w.bindings) : Resolves n n w w₁ fun _ => P :=
  ⟨Nat.le_refl _, fun h => (he h).2, fun _ _ => hb ▸ rfl, fun h _ _ _ => (he h).1⟩

/-- Where a violation is reported nothing is promised. -/
theorem report (n : Nat) (t : Token) (cause : ScopeCause) (P : Prop) :
    Resolves n n w (w.report t cause) fun _ => P :=
  check n nofun rfl

/-- A site is bound to the distance of its name. -/
theorem bind (h : List.Forall₂ Scope.ShownBy w.scopes Γ) (n : Nat) (name : Token) :
    Resolves n (n + 1) w (w.bind ⟨n, name⟩) fun b => b.distance? n = Γ.distance? name.lexeme := by
  have hd := distance?_eq h name.lexeme
  unfold Walk.bind
  dsimp only
  rw [hd]
  split
  · next d hΓ =>
    refine ⟨n.le_succ, id, fun k hk => ?_, fun _ _ b hb => ?_⟩
    · have hne : (k == n) = false := beq_false_of_ne (by omega)
      rw [List.lookup_cons, hne]
    · rw [Bindings.distance?, hb n n.le_refl n.lt_succ_self, List.lookup_cons, beq_self_eq_true, hΓ]
  · next hΓ =>
    refine ⟨n.le_succ, id, fun _ _ => rfl, fun _ hfree b hb => ?_⟩
    rw [Bindings.distance?, hb n n.le_refl n.lt_succ_self, hfree n n.le_refl n.lt_succ_self, hΓ]

/-- A variable that is read is bound, and not in its own initializer. -/
theorem read (h : List.Forall₂ Scope.ShownBy w.scopes Γ) (n : Nat) (name : Token) :
    Resolves n (n + 1) w (w.read ⟨n, name⟩) fun b => b.distance? n = Γ.distance? name.lexeme ∧
      ∀ sc ∈ Γ.head?, sc.pending ≠ some name.lexeme := by
  unfold Walk.read
  dsimp only
  split
  · have hbind := bind (w := w.report name .readInInitializer) h n name
    exact ((report n name _ _).seq hbind).mono fun b hb => hb.symm
  · next hu =>
    refine (bind h n name).mono fun b hb => ⟨hb, fun sc hsc hp => ?_⟩
    exact hu ((isUnready_iff h name.lexeme).2 ⟨sc, hsc, hp⟩)

/-- The receiver is bound, and in a class. -/
theorem readThis (h : w.At Γ) (n : Nat) (name : Token) :
    Resolves n (n + 1) w (w.readThis ⟨n, name⟩) fun b =>
      b.distance? n = Γ.distance? name.lexeme ∧ Γ.classKind ≠ .outside := by
  unfold Walk.readThis
  split
  · exact ⟨n.le_succ, nofun, fun _ _ => rfl, nofun⟩
  · next hc => exact (bind h.scopes n name).mono fun b hb => ⟨hb, fun ho => hc (h.cls.trans ho)⟩

/-- The superclass is bound, and in a class that has one. -/
theorem readSuper (h : w.At Γ) (n : Nat) (name : Token) :
    Resolves n (n + 1) w (w.readSuper ⟨n, name⟩) fun b =>
      b.distance? n = Γ.distance? name.lexeme ∧ Γ.classKind = .derived := by
  unfold Walk.readSuper
  dsimp only
  split
  · have hbind := bind (h.report name .superOutsideClass).scopes n name
    exact ((report n name _ _).seq hbind).mono fun b hb => hb.symm
  · have hbind := bind (h.report name .superWithoutSuperclass).scopes n name
    exact ((report n name _ _).seq hbind).mono fun b hb => hb.symm
  · next hc => exact (bind h.scopes n name).mono fun b hb => ⟨hb, h.cls ▸ hc⟩

/-- A `return` stands in a body. -/
theorem checkReturn (h : w.At Γ) (n : Nat) (keyword : Token) (hasValue : Bool) :
    Resolves n n w (w.checkReturn keyword hasValue) fun _ => Γ.bodyKind ≠ .topLevel := by
  refine check n (fun he => ?_) ?_
  · rw [← h.body]
    unfold Walk.checkReturn at he
    dsimp only at he
    split at he <;> split at he
    · cases he
    · cases he
    · cases he
    · next hb _ => exact ⟨hb, he⟩
  · unfold Walk.checkReturn
    dsimp only
    split <;> split <;> rfl

/-! ### Steps that resolve no site -/

theorem enter (n : Nat) (w : Walk) (name : String) (ready : Bool) :
    Resolves n n w (w.enter name ready) fun _ => True := by
  refine step n (fun he => ?_) ?_
  · unfold Walk.enter at he
    split at he <;> exact he
  · unfold Walk.enter
    split <;> rfl

theorem declare (n : Nat) (w : Walk) (name : Token) :
    Resolves n n w (w.declare name) fun _ => True := by
  unfold Walk.declare
  split
  · exact step n id rfl
  · split
    · exact report n name _ _
    · exact enter n w _ _

theorem introduce (n : Nat) (w : Walk) (name : Token) :
    Resolves n n w (w.introduce name) fun _ => True :=
  ((declare n w name).seq (enter n _ _ _)).mono fun _ _ => trivial

theorem foldl_introduce (n : Nat) (w : Walk) (params : List Token) :
    Resolves n n w (params.foldl Walk.introduce w) fun _ => True := by
  induction params generalizing w with
  | nil => exact step n id rfl
  | cons p params ih => exact ((introduce n w p).seq (ih _)).mono fun _ _ => trivial

/-- Entering a body, walking through it and leaving it resolves what is in it. -/
theorem inBody {kind : BodyKind} (around : BodyKind) {params : List Token}
    (h : Resolves n n₁ (w.enterBody kind params) w₁ Q) :
    Resolves n n₁ w (w₁.leaveBody around) Q := by
  have hparams := foldl_introduce n { w with body := kind }.openScope params
  exact ((hparams.seq h).mono fun b hb => hb.2).congr rfl rfl rfl rfl

theorem enterOpened (n : Nat) (w : Walk) (name : String) :
    Resolves n n w (w.openScope.enter name true) fun _ => True :=
  (enter n w.openScope name true).congr rfl rfl rfl rfl

/-- Entering a class resolves the superclass it names, which is not the class itself. -/
theorem enterClass (h : w.At Γ) (n : Nat) (name : Token) (s : Token) :
    Resolves n (n + 1) w (w.enterClass name (some ⟨n, s⟩)) fun b =>
      s.lexeme ≠ name.lexeme ∧ b.distance? n = (Γ.declare name.lexeme).distance? s.lexeme ∧
        ∀ sc ∈ (Γ.declare name.lexeme).head?, sc.pending ≠ some s.lexeme := by
  have hname : Resolves n n w ({ w with cls := .base }.introduce name) fun _ => True :=
    (introduce n { w with cls := .base } name).congr rfl rfl rfl rfl
  have hs : List.Forall₂ Scope.ShownBy ({ w with cls := .base }.introduce name).scopes
      (Γ.declare name.lexeme) := by
    have hi := (h.introduce name).scopes
    rw [scopes_introduce] at hi ⊢
    exact hi
  unfold Walk.enterClass
  generalize { w with cls := .base }.introduce name = w₀ at hname hs
  have hown : Resolves n n w₀ (if s.lexeme = name.lexeme then w₀.report s .ownSuperclass else w₀)
      fun _ => s.lexeme ≠ name.lexeme := by
    split
    · exact report n s _ _
    · next hne => exact check n (fun he => ⟨hne, he⟩) rfl
  have hsame : (if s.lexeme = name.lexeme then w₀.report s .ownSuperclass else w₀).scopes =
      w₀.scopes := by
    split <;> rfl
  rw [← hsame] at hs
  dsimp only
  generalize (if s.lexeme = name.lexeme then w₀.report s .ownSuperclass else w₀) = w₁ at hown hs
  have hread := read (w := { w₁ with cls := .derived }) hs n s
  generalize { w₁ with cls := .derived }.read ⟨n, s⟩ = w₂ at hread
  have hsuper := enterOpened (n + 1) w₂ superName
  have hthis := enterOpened (n + 1) (w₂.openScope.enter superName true) thisName
  exact ((((hname.seq hown).seq (hread.congr rfl rfl rfl rfl)).seq hsuper).seq hthis).mono
    fun b hb => ⟨hb.1.1.1.2, hb.1.1.2⟩

/-- Entering a class without a superclass resolves nothing. -/
theorem enterClass_none (n : Nat) (w : Walk) (name : Token) :
    Resolves n n w (w.enterClass name none) fun _ => True := by
  have hname := introduce n { w with cls := .base } name
  have hthis := enterOpened n ({ w with cls := .base }.introduce name) thisName
  exact ((hname.seq hthis).mono fun _ _ => trivial).congr rfl rfl rfl rfl

theorem leaveClass (n : Nat) (w : Walk) (derived : Bool) (around : ClassKind) :
    Resolves n n w (w.leaveClass derived around) fun _ => True := by
  unfold Walk.leaveClass
  cases derived <;> exact step n id rfl

end Walk.Resolves

variable {σ τ : Type}

open Walk (Resolves)

mutual

theorem Expr.resolves_label : ∀ (e : Expr σ) (n : Nat) {w : Walk} {Γ : Context}, w.At Γ →
    Resolves n (e.label n).2 w ((e.label n).1.resolve w) fun b =>
      Node.Everywhere Node.Resolved Γ (.expr ((e.label n).1.map b.distance?))
  | .literal _, n, _, _, _ => (Resolves.step n id rfl).mono fun _ _ => .leaf trivial rfl
  | .group e, n, _, _, h => (e.resolves_label n h).mono fun _ hb => .one trivial rfl hb
  | .unary _ e, n, _, _, h => (e.resolves_label n h).mono fun _ hb => .one trivial rfl hb
  | .get e _, n, _, _, h => (e.resolves_label n h).mono fun _ hb => .one trivial rfl hb
  | .binary _ l r, n, _, _, h =>
    ((l.resolves_label n h).seq (r.resolves_label _ (Expr.at_resolve _ h))).mono
      fun _ hb => .two trivial rfl hb.1 hb.2
  | .logical _ l r, n, _, _, h =>
    ((l.resolves_label n h).seq (r.resolves_label _ (Expr.at_resolve _ h))).mono
      fun _ hb => .two trivial rfl hb.1 hb.2
  | .set e _ v, n, _, _, h =>
    ((v.resolves_label _ h).seqBefore (e.resolves_label n (Expr.at_resolve _ h))).mono
      fun _ hb => .two trivial rfl hb.1 hb.2
  | .ref s, n, _, _, h => (Resolves.read h.scopes n s.name).mono fun _ hb => .leaf hb rfl
  | .this s, n, _, _, h => (Resolves.readThis h n s.name).mono fun _ hb => .leaf hb rfl
  | .super s _, n, _, _, h => (Resolves.readSuper h n s.name).mono fun _ hb => .leaf hb rfl
  | .assign s e, n, _, _, h =>
    ((e.resolves_label (n + 1) h).seqBefore
      (Resolves.bind (Expr.at_resolve _ h).scopes n s.name)).mono
      fun _ hb => .one hb.1 rfl hb.2
  | .call f _ args, n, _, _, h =>
    ((f.resolves_label n h).seq (Expr.resolves_labelAll args _ (Expr.at_resolve _ h))).mono
      fun _ hb => .intro trivial (List.forall_mem_cons.2 ⟨hb.1, List.forall_mem_map.2 hb.2⟩)
  | .lambda params body, n, _, _, h =>
    (Resolves.inBody _ (Stmt.resolves_labelAll body n (h.enterBody .function params)
      (.ofParams _ params _))).mono fun _ hb => .one trivial rfl hb

theorem Expr.resolves_labelAll : ∀ (es : List (Expr σ)) (n : Nat) {w : Walk} {Γ : Context},
    w.At Γ → Resolves n (Expr.labelAll es n).2 w (Expr.resolveAll (Expr.labelAll es n).1 w)
      fun b => ∀ e ∈ Expr.mapAll b.distance? (Expr.labelAll es n).1,
        Node.Everywhere Node.Resolved Γ (.expr e)
  | [], n, _, _, _ => (Resolves.step n id rfl).mono fun _ _ => nofun
  | e :: es, n, _, _, h =>
    ((e.resolves_label n h).seq (Expr.resolves_labelAll es _ (Expr.at_resolve _ h))).mono
      fun _ hb => List.forall_mem_cons.2 hb

theorem Stmt.resolves_label : ∀ (s : Stmt σ) (n : Nat) {w : Walk} {Γ : Context}, w.At Γ →
    Γ.Settled → Resolves n (s.label n).2 w ((s.label n).1.resolve w) fun b =>
      Node.Everywhere Node.Resolved Γ (.stmt ((s.label n).1.map b.distance?))
  | .expression e, n, _, _, h, _ => (e.resolves_label n h).mono fun _ hb => .one trivial rfl hb
  | .print e, n, _, _, h, _ => (e.resolves_label n h).mono fun _ hb => .one trivial rfl hb
  | .var name none, n, w, _, _, _ =>
    (Resolves.introduce n w name).mono fun _ _ => .leaf trivial rfl
  | .var name (some e), n, w, _, h, hΓ =>
    (((Resolves.declare n w name).seq (e.resolves_label n (h.declare hΓ name))).seq
      (Resolves.enter _ _ name.lexeme true)).mono fun _ hb => .one trivial rfl hb.1.2
  | .block body, n, _, Γ, h, _ =>
    ((Stmt.resolves_labelAll body n h.openScope (.block Γ)).mono
      fun _ hb => .one trivial rfl hb).congr rfl rfl rfl rfl
  | .cond e yes none, n, _, _, h, hΓ =>
    ((e.resolves_label n h).seq (yes.resolves_label _ (Expr.at_resolve _ h) hΓ)).mono
      fun _ hb => .two trivial rfl hb.1 hb.2
  | .cond e yes (some no), n, _, Γ, h, hΓ => by
    have he := e.resolves_label n h
    have hyes := yes.resolves_label (e.label n).2 (Expr.at_resolve (e.label n).1 h) hΓ
    have hat := Stmt.at_resolve (yes.label (e.label n).2).1 (Expr.at_resolve (e.label n).1 h) hΓ
    have hno := no.resolves_label (yes.label (e.label n).2).2 hat (hΓ.after _)
    refine ((he.seq hyes).seq hno).mono fun b hb => .intro trivial ?_
    rw [← Context.after_map b.distance?] at hb
    exact List.forall_mem_cons.2 ⟨hb.1.1, List.forall_mem_cons.2
      ⟨hb.1.2, List.forall_mem_singleton.2 hb.2⟩⟩
  | .loop e body, n, _, _, h, hΓ =>
    ((e.resolves_label n h).seq (body.resolves_label _ (Expr.at_resolve _ h) hΓ)).mono
      fun _ hb => .two trivial rfl hb.1 hb.2
  | .function name params body, n, w, Γ, h, _ =>
    ((Resolves.introduce n w name).seq (Resolves.inBody _ (Stmt.resolves_labelAll body n
      ((h.introduce name).enterBody .function params) (.ofParams _ params _)))).mono
      fun _ hb => .one trivial rfl hb.2
  | .ret keyword none, n, _, _, h, _ =>
    (Resolves.checkReturn h n keyword false).mono fun _ hb => .leaf hb rfl
  | .ret keyword (some e), n, _, _, h, _ =>
    ((Resolves.checkReturn h n keyword true).seq
      (e.resolves_label n (h.checkReturn keyword true))).mono fun _ hb => .one hb.1 rfl hb.2
  | .classDecl name none methods, n, w, Γ, h, hΓ => by
    have hm := Method.resolves_labelAll methods n (h.enterClass hΓ name none)
    have hl := Resolves.leaveClass (Method.labelAll methods n).2
      (Method.resolveAll (Method.labelAll methods n).1 (w.enterClass name none)) false w.cls
    exact (((Resolves.enterClass_none n w name).seq hm).seq hl).mono
      fun _ hb => .intro trivial (List.forall_mem_map.2 hb.1.2)
  | .classDecl name (some s) methods, n, w, Γ, h, hΓ => by
    have hm := Method.resolves_labelAll methods (n + 1) (h.enterClass hΓ name (some ⟨n, s.name⟩))
    have hl := Resolves.leaveClass (Method.labelAll methods (n + 1)).2
      (Method.resolveAll (Method.labelAll methods (n + 1)).1
        (w.enterClass name (some ⟨n, s.name⟩))) true w.cls
    refine (((Resolves.enterClass h n name s.name).seq hm).seq hl).mono fun _ hb => ?_
    obtain ⟨⟨⟨hne, hs⟩, hms⟩, -⟩ := hb
    exact .intro hne (List.forall_mem_cons.2 ⟨.leaf hs rfl, List.forall_mem_map.2 hms⟩)

theorem Stmt.resolves_labelAll : ∀ (ss : List (Stmt σ)) (n : Nat) {w : Walk} {Γ : Context},
    w.At Γ → Γ.Settled →
    Resolves n (Stmt.labelAll ss n).2 w (Stmt.resolveAll (Stmt.labelAll ss n).1 w) fun b =>
      Node.Everywhere Node.Resolved Γ (.stmts (Stmt.mapAll b.distance? (Stmt.labelAll ss n).1))
  | [], n, _, _, _, _ => (Resolves.step n id rfl).mono fun _ _ => .leaf trivial rfl
  | s :: ss, n, _, Γ, h, hΓ => by
    have hs := s.resolves_label n h hΓ
    have hss := Stmt.resolves_labelAll ss (s.label n).2 (Stmt.at_resolve (s.label n).1 h hΓ)
      (hΓ.after _)
    refine (hs.seq hss).mono fun b hb => ?_
    rw [← Context.after_map b.distance?] at hb
    exact .two trivial rfl hb.1 hb.2

theorem Method.resolves_labelAll : ∀ (ms : List (Method σ)) (n : Nat) {w : Walk} {Γ : Context},
    w.At Γ → Resolves n (Method.labelAll ms n).2 w (Method.resolveAll (Method.labelAll ms n).1 w)
      fun b => ∀ m ∈ Method.mapAll b.distance? (Method.labelAll ms n).1,
        Node.Everywhere Node.Resolved (m.node Γ).1 (m.node Γ).2
  | [], n, _, _, _ => (Resolves.step n id rfl).mono fun _ _ => nofun
  | .mk name params body :: ms, n, w, Γ, h => by
    have hb := Resolves.inBody w.body (Stmt.resolves_labelAll body n
      (h.enterBody (.ofMethod name) params) (.ofParams _ params _))
    have hat := Method.at_resolveAll [.mk name params (Stmt.labelAll body n).1] h
    have hms := Method.resolves_labelAll ms (Stmt.labelAll body n).2 hat
    exact (hb.seq hms).mono fun _ hb => List.forall_mem_cons.2 hb

end

/-- What a whole walk resolves holds of the bindings that it hands out. -/
theorem Walk.Resolves.of_finish {n n' : Nat} {w : Walk} {b : Bindings} {Q : Bindings → Prop}
    (h : Resolves n n' .start w Q) (hb : w.finish = .ok b) : Q b := by
  unfold Walk.finish at hb
  split at hb
  · next he =>
    cases hb
    exact h.inside (List.isEmpty_iff.1 he) (fun _ _ _ => rfl) _ fun _ _ _ => rfl
  · cases hb

/-- **Resolving computes the distances of the text.** In a line that resolving has accepted every
site is linked with the distance of its name in the context of the site, and every node obeys the
rules of scope. -/
theorem Line.resolved_of_bindings (line : Line σ) (n : Nat) {b : Bindings}
    (h : (line.label n).1.bindings = .ok b) :
    ((line.label n).1.link b).Everywhere Node.Resolved := by
  obtain ⟨ss, trailing⟩ := line
  have hss := Stmt.resolves_labelAll ss n Walk.At.start .nil
  cases trailing with
  | none =>
    have hb := Walk.Resolves.of_finish hss h
    exact ⟨hb, nofun⟩
  | some e =>
    have hat := Stmt.at_resolveAll (Stmt.labelAll ss n).1 Walk.At.start .nil
    rw [Context.afterAll_nil] at hat
    have he := e.resolves_label (Stmt.labelAll ss n).2 hat
    have hb := Walk.Resolves.of_finish (hss.seq he) h
    refine ⟨hb.1, ?_⟩
    rintro _ ⟨⟩
    exact hb.2

end LoxLang
