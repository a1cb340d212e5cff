import LoxLang.Proofs.Lines.Reline
import LoxLang.Proofs.Scope.Resolution

/-!
# Resolving programs put together

What a walk finds has nothing to do with the lines of the tokens, with the numbers of the sites and
with what it has bound before (`Walk.Alike`). Behind a program without violations it stands outside
of all scopes again, so two programs in a row resolve if each of them does. The distances of a tree
without violations are those of its text, so there is only one way to link it
(`Stmt.linkAll_unique`), and programs in a row are linked as they are alone (`Stmt.link_append`).
-/

namespace LoxLang

variable {σ τ : Type}

/-- The violation on the image of its line. -/
def ScopeError.reline (f : Nat → Nat) (e : ScopeError) : ScopeError :=
  { e with token := e.token.reline f }

/-- Two walks are at the same point and have found the same violations, those of the second on the
images of their lines. What they have bound is left open. -/
structure Walk.Alike (f : Nat → Nat) (w w' : Walk) : Prop where
  scopes : w'.scopes = w.scopes
  body : w'.body = w.body
  cls : w'.cls = w.cls
  errors : w'.errors = w.errors.map (ScopeError.reline f)

namespace Walk.Alike

variable {f : Nat → Nat} {w w' : Walk}

theorem start (f : Nat → Nat) : Alike f .start .start := ⟨rfl, rfl, rfl, rfl⟩

theorem report (h : Alike f w w') (t : Token) (cause : ScopeCause) :
    Alike f (w.report t cause) (w'.report (t.reline f) cause) :=
  ⟨h.scopes, h.body, h.cls, congrArg (ScopeError.mk (t.reline f) cause :: ·) h.errors⟩

/-- One step that may report a violation. -/
theorem check (h : Alike f w w') (t : Token) (cause : ScopeCause) (p : Prop) [Decidable p] :
    Alike f (if p then w.report t cause else w)
      (if p then w'.report (t.reline f) cause else w') := by
  split
  · exact h.report t cause
  · exact h

theorem openScope (h : Alike f w w') : Alike f w.openScope w'.openScope :=
  ⟨congrArg (List.cons (Table.empty : Table Bool)) h.scopes, h.body, h.cls, h.errors⟩

theorem closeScope (h : Alike f w w') : Alike f w.closeScope w'.closeScope :=
  ⟨congrArg List.tail h.scopes, h.body, h.cls, h.errors⟩

theorem withBody (h : Alike f w w') (kind : BodyKind) :
    Alike f { w with body := kind } { w' with body := kind } :=
  ⟨h.scopes, rfl, h.cls, h.errors⟩

theorem withClass (h : Alike f w w') (kind : ClassKind) :
    Alike f { w with cls := kind } { w' with cls := kind } :=
  ⟨h.scopes, h.body, rfl, h.errors⟩

theorem enter (h : Alike f w w') (name : String) (ready : Bool) :
    Alike f (w.enter name ready) (w'.enter name ready) := by
  unfold Walk.enter
  rw [h.scopes]
  cases w.scopes with
  | nil => exact h
  | cons scope outer => exact ⟨rfl, h.body, h.cls, h.errors⟩

theorem declare (h : Alike f w w') (name : Token) :
    Alike f (w.declare name) (w'.declare (name.reline f)) := by
  unfold Walk.declare
  rw [h.scopes]
  cases w.scopes with
  | nil => exact h
  | cons scope outer =>
    change Alike f (if scope.contains name.lexeme then _ else _)
      (if scope.contains name.lexeme then _ else _)
    split
    · exact h.report name .declaredTwice
    · exact h.enter name.lexeme false

theorem define (h : Alike f w w') (name : Token) :
    Alike f (w.define name) (w'.define (name.reline f)) :=
  h.enter name.lexeme true

theorem introduce (h : Alike f w w') (name : Token) :
    Alike f (w.introduce name) (w'.introduce (name.reline f)) :=
  (h.declare name).define name

theorem bind (h : Alike f w w') (n n' : Nat) (name : Token) :
    Alike f (w.bind ⟨n, name⟩) (w'.bind ⟨n', name.reline f⟩) := by
  unfold Walk.bind Walk.distance?
  rw [h.scopes]
  dsimp only [Token.lexeme_reline]
  split
  · exact ⟨rfl, h.body, h.cls, h.errors⟩
  · exact h

theorem read (h : Alike f w w') (n n' : Nat) (name : Token) :
    Alike f (w.read ⟨n, name⟩) (w'.read ⟨n', name.reline f⟩) := by
  unfold Walk.read Walk.isUnready
  rw [h.scopes]
  exact (h.check name .readInInitializer _).bind n n' name

theorem readThis (h : Alike f w w') (n n' : Nat) (name : Token) :
    Alike f (w.readThis ⟨n, name⟩) (w'.readThis ⟨n', name.reline f⟩) := by
  unfold Walk.readThis
  rw [h.cls]
  cases w.cls with
  | outside => exact h.report name .thisOutsideClass
  | base | derived => exact h.bind n n' name

theorem readSuper (h : Alike f w w') (n n' : Nat) (name : Token) :
    Alike f (w.readSuper ⟨n, name⟩) (w'.readSuper ⟨n', name.reline f⟩) := by
  unfold Walk.readSuper
  rw [h.cls]
  cases w.cls with
  | outside => exact (h.report name .superOutsideClass).bind n n' name
  | base => exact (h.report name .superWithoutSuperclass).bind n n' name
  | derived => exact h.bind n n' name

theorem enterBody (h : Alike f w w') (kind : BodyKind) (params : List Token) :
    Alike f (w.enterBody kind params) (w'.enterBody kind (params.map (Token.reline f))) := by
  have hopen := (h.withBody kind).openScope
  unfold Walk.enterBody
  generalize Walk.openScope { w with body := kind } = v at hopen
  generalize Walk.openScope { w' with body := kind } = v' at hopen
  induction params generalizing v v' with
  | nil => exact hopen
  | cons p params ih => exact ih _ _ (hopen.introduce p)

theorem leaveBody (h : Alike f w w') {kind kind' : BodyKind} (hkind : kind' = kind) :
    Alike f (w.leaveBody kind) (w'.leaveBody kind') :=
  hkind ▸ h.closeScope.withBody kind

theorem checkReturn (h : Alike f w w') (keyword : Token) (hasValue : Bool) :
    Alike f (w.checkReturn keyword hasValue) (w'.checkReturn (keyword.reline f) hasValue) := by
  have htop := h.check keyword .topLevelReturn (w.body = .topLevel)
  unfold Walk.checkReturn
  rw [h.body]
  dsimp only
  rw [htop.body]
  exact htop.check keyword .initializerValue _

theorem enterClass_none (h : Alike f w w') (name : Token) :
    Alike f (w.enterClass name none) (w'.enterClass (name.reline f) none) :=
  (((h.withClass .base).introduce name).openScope).enter thisName true

theorem enterClass (h : Alike f w w') (name : Token) (n n' : Nat) (superclass : Token) :
    Alike f (w.enterClass name (some ⟨n, superclass⟩))
      (w'.enterClass (name.reline f) (some ⟨n', superclass.reline f⟩)) := by
  have hown := ((h.withClass .base).introduce name).check superclass .ownSuperclass
    (superclass.lexeme = name.lexeme)
  have hsuper := ((hown.withClass .derived).read n n' superclass).openScope.enter superName true
  exact hsuper.openScope.enter thisName true

theorem leaveClass (h : Alike f w w') (derived : Bool) {kind kind' : ClassKind}
    (hkind : kind' = kind) : Alike f (w.leaveClass derived kind) (w'.leaveClass derived kind') := by
  subst hkind
  cases derived with
  | false => exact h.closeScope.withClass kind'
  | true => exact h.closeScope.closeScope.withClass kind'

end Walk.Alike

open Walk (Alike)

mutual

theorem Expr.alike_resolve {f : Nat → Nat} : ∀ (e : Expr σ) (n n' : Nat) {w w' : Walk},
    Alike f w w' → Alike f ((e.label n).1.resolve w) (((e.reline f).label n').1.resolve w')
  | .literal _, _, _, _, _, h => h
  | .group e, n, n', _, _, h | .unary _ e, n, n', _, _, h | .get e _, n, n', _, _, h =>
    e.alike_resolve n n' h
  | .binary _ l r, n, n', _, _, h | .logical _ l r, n, n', _, _, h =>
    r.alike_resolve _ _ (l.alike_resolve n n' h)
  | .ref s, n, n', _, _, h => h.read n n' s.name
  | .assign s e, n, n', _, _, h => (e.alike_resolve _ _ h).bind n n' s.name
  | .call e _ args, n, n', _, _, h => Expr.alike_resolveAll args _ _ (e.alike_resolve n n' h)
  | .set e _ v, n, n', _, _, h => e.alike_resolve n n' (v.alike_resolve _ _ h)
  | .this s, n, n', _, _, h => h.readThis n n' s.name
  | .super s _, n, n', _, _, h => h.readSuper n n' s.name
  | .lambda params body, n, n', _, _, h =>
    (Stmt.alike_resolveAll body n n' (h.enterBody .function params)).leaveBody h.body

theorem Expr.alike_resolveAll {f : Nat → Nat} : ∀ (es : List (Expr σ)) (n n' : Nat) {w w' : Walk},
    Alike f w w' → Alike f (Expr.resolveAll (Expr.labelAll es n).1 w)
      (Expr.resolveAll (Expr.labelAll (Expr.relineAll f es) n').1 w')
  | [], _, _, _, _, h => h
  | e :: es, n, n', _, _, h => Expr.alike_resolveAll es _ _ (e.alike_resolve n n' h)

theorem Stmt.alike_resolve {f : Nat → Nat} : ∀ (s : Stmt σ) (n n' : Nat) {w w' : Walk},
    Alike f w w' → Alike f ((s.label n).1.resolve w) (((s.reline f).label n').1.resolve w')
  | .expression e, n, n', _, _, h | .print e, n, n', _, _, h => e.alike_resolve n n' h
  | .var name none, _, _, _, _, h => h.introduce name
  | .var name (some e), n, n', _, _, h => (e.alike_resolve n n' (h.declare name)).define name
  | .block body, n, n', _, _, h => (Stmt.alike_resolveAll body n n' h.openScope).closeScope
  | .cond e yes none, n, n', _, _, h => yes.alike_resolve _ _ (e.alike_resolve n n' h)
  | .cond e yes (some no), n, n', _, _, h =>
    no.alike_resolve _ _ (yes.alike_resolve _ _ (e.alike_resolve n n' h))
  | .loop e body, n, n', _, _, h => body.alike_resolve _ _ (e.alike_resolve n n' h)
  | .function name params body, n, n', _, _, h =>
    (Stmt.alike_resolveAll body n n' ((h.introduce name).enterBody .function params)).leaveBody
      h.body
  | .ret keyword none, _, _, _, _, h => h.checkReturn keyword false
  | .ret keyword (some e), n, n', _, _, h => e.alike_resolve n n' (h.checkReturn keyword true)
  | .classDecl name none methods, n, n', _, _, h =>
    (Method.alike_resolveAll methods n n' (h.enterClass_none name)).leaveClass false h.cls
  | .classDecl name (some s) methods, n, n', _, _, h =>
    (Method.alike_resolveAll methods _ _ (h.enterClass name n n' s.name)).leaveClass true h.cls

theorem Stmt.alike_resolveAll {f : Nat → Nat} : ∀ (ss : List (Stmt σ)) (n n' : Nat) {w w' : Walk},
    Alike f w w' → Alike f (Stmt.resolveAll (Stmt.labelAll ss n).1 w)
      (Stmt.resolveAll (Stmt.labelAll (Stmt.relineAll f ss) n').1 w')
  | [], _, _, _, _, h => h
  | s :: ss, n, n', _, _, h => Stmt.alike_resolveAll ss _ _ (s.alike_resolve n n' h)

theorem Method.alike_resolveAll {f : Nat → Nat} :
    ∀ (ms : List (Method σ)) (n n' : Nat) {w w' : Walk}, Alike f w w' →
      Alike f (Method.resolveAll (Method.labelAll ms n).1 w)
        (Method.resolveAll (Method.labelAll (Method.relineAll f ms) n').1 w')
  | [], _, _, _, _, h => h
  | .mk name params body :: ms, n, n', _, _, h =>
    Method.alike_resolveAll ms _ _
      ((Stmt.alike_resolveAll body n n' (h.enterBody (.ofMethod name) params)).leaveBody h.body)

end

/-! ## Programs in a row -/

/-- A program gets its bindings if the walk through it has found no violation. -/
theorem Stmt.exists_bindings_iff {ss : List (Stmt Nat)} :
    (∃ b, Stmt.bindings ss = .ok b) ↔ (Stmt.resolveAll ss .start).errors = [] := by
  unfold Stmt.bindings Walk.finish
  constructor
  · rintro ⟨b, hb⟩
    split at hb
    · next he => exact List.isEmpty_iff.1 he
    · cases hb
  · intro he
    exact ⟨_, if_pos (List.isEmpty_iff.2 he)⟩

theorem Stmt.resolveAll_append (ss ts : List (Stmt Nat)) (w : Walk) :
    Stmt.resolveAll (ss ++ ts) w = Stmt.resolveAll ts (Stmt.resolveAll ss w) := by
  induction ss generalizing w with
  | nil => rfl
  | cons s ss ih => exact ih (s.resolve w)

/-- Behind a program without violations a walk is where it started. -/
theorem Walk.Alike.resolveAll (f : Nat → Nat) {ss : List (Stmt Nat)}
    (h : ∃ b, Stmt.bindings ss = .ok b) : Alike f .start (Stmt.resolveAll ss .start) := by
  have hat := Stmt.at_resolveAll ss Walk.At.start .nil
  rw [Context.afterAll_nil] at hat
  exact ⟨List.forall₂_nil_right_iff.1 hat.scopes, hat.body, hat.cls,
    Stmt.exists_bindings_iff.1 h⟩

theorem Stmt.labelAll_append (ss ts : List (Stmt σ)) (n : Nat) :
    Stmt.labelAll (ss ++ ts) n =
      ((Stmt.labelAll ss n).1 ++ (Stmt.labelAll ts (Stmt.labelAll ss n).2).1,
        (Stmt.labelAll ts (Stmt.labelAll ss n).2).2) := by
  induction ss generalizing n with
  | nil => rfl
  | cons s ss ih => simp only [List.cons_append, Stmt.labelAll, ih]

theorem Stmt.mapAll_append (g : σ → τ) (ss ts : List (Stmt σ)) :
    Stmt.mapAll g (ss ++ ts) = Stmt.mapAll g ss ++ Stmt.mapAll g ts := by
  induction ss with
  | nil => rfl
  | cons s ss ih => exact congrArg (s.map g :: ·) ih

/-- **Whether a program has violations depends on its text alone**: not on its lines, nor on the
numbers of its sites, nor on the programs in front of it, if they have none. -/
theorem Stmt.exists_bindings_append (f : Nat → Nat) {ss ts : List (Stmt σ)} {m n : Nat} (k : Nat)
    (hss : ∃ b, Stmt.bindings (Stmt.labelAll ss m).1 = .ok b)
    (hts : ∃ b, Stmt.bindings (Stmt.labelAll ts n).1 = .ok b) :
    ∃ b, Stmt.bindings (Stmt.labelAll (ss ++ Stmt.relineAll f ts) k).1 = .ok b := by
  have hfirst := Stmt.alike_resolveAll (f := id) ss m k (Alike.start id)
  have hmiddle : ∃ b, Stmt.bindings (Stmt.labelAll ss k).1 = .ok b := by
    rw [Stmt.exists_bindings_iff] at hss ⊢
    rw [← Stmt.relineAll_id ss, hfirst.errors, hss]
    rfl
  have hsecond := Stmt.alike_resolveAll ts n (Stmt.labelAll ss k).2 (Alike.resolveAll f hmiddle)
  rw [Stmt.exists_bindings_iff] at hts ⊢
  rw [Stmt.labelAll_append, Stmt.resolveAll_append, hsecond.errors, hts]
  rfl

/-! ## Links -/

open Node (Everywhere Resolved)

theorem Scope.ofParams_reline (f : Nat → Nat) (kind : BodyKind) (params : List Token) :
    ofParams kind (params.map (Token.reline f)) = ofParams kind params :=
  congrArg (Scope.body kind) List.map_map

theorem Stmt.declared_reline (f : Nat → Nat) : ∀ s : Stmt σ, (s.reline f).declared = s.declared
  | .var _ none | .var _ (some _) | .function .. | .classDecl .. => rfl
  | .cond _ yes none => yes.declared_reline f
  | .cond _ yes (some no) =>
    congrArg₂ (· ++ ·) (yes.declared_reline f) (no.declared_reline f)
  | .loop _ body => body.declared_reline f
  | .expression _ | .print _ | .block _ | .ret _ none | .ret _ (some _) => rfl

theorem Context.after_reline (f : Nat → Nat) (Γ : Context) (s : Stmt σ) :
    Γ.after (s.reline f) = Γ.after s := by
  rw [after, after, s.declared_reline f]

mutual

theorem Expr.link_unique {f : Nat → Nat} : ∀ (e : Expr σ) {n n' : Nat} {g g' : Nat → Option Nat}
    {Γ : Context}, Everywhere Resolved Γ (.expr ((e.label n).1.map g)) →
    Everywhere Resolved Γ (.expr (((e.reline f).label n').1.map g')) →
    ((e.reline f).label n').1.map g' = ((e.label n).1.map g).reline f
  | .literal _, _, _, _, _, _, _, _ => rfl
  | .group e, _, _, _, _, _, h, h' =>
    congrArg Expr.group (e.link_unique (h.child (.head _)) (h'.child (.head _)))
  | .unary op e, _, _, _, _, _, h, h' =>
    congrArg (Expr.unary _) (e.link_unique (h.child (.head _)) (h'.child (.head _)))
  | .get e name, _, _, _, _, _, h, h' =>
    congrArg (Expr.get · _) (e.link_unique (h.child (.head _)) (h'.child (.head _)))
  | .binary op l r, _, _, _, _, _, h, h' =>
    congrArg₂ (Expr.binary _) (l.link_unique (h.child (.head _)) (h'.child (.head _)))
      (r.link_unique (h.child (.tail _ (.head _))) (h'.child (.tail _ (.head _))))
  | .logical op l r, _, _, _, _, _, h, h' =>
    congrArg₂ (Expr.logical _) (l.link_unique (h.child (.head _)) (h'.child (.head _)))
      (r.link_unique (h.child (.tail _ (.head _))) (h'.child (.tail _ (.head _))))
  | .set e name v, _, _, _, _, _, h, h' =>
    congrArg₂ (Expr.set · _) (e.link_unique (h.child (.head _)) (h'.child (.head _)))
      (v.link_unique (h.child (.tail _ (.head _))) (h'.child (.tail _ (.head _))))
  | .ref s, _, _, _, _, _, h, h' =>
    congrArg (fun mark => Expr.ref ⟨mark, s.name.reline f⟩) (h'.here.1.trans h.here.1.symm)
  | .this s, _, _, _, _, _, h, h' =>
    congrArg (fun mark => Expr.this ⟨mark, s.name.reline f⟩) (h'.here.1.trans h.here.1.symm)
  | .super s method, _, _, _, _, _, h, h' =>
    congrArg (fun mark => Expr.super ⟨mark, s.name.reline f⟩ _) (h'.here.1.trans h.here.1.symm)
  | .assign s e, _, _, _, _, _, h, h' =>
    congrArg₂ (fun mark => Expr.assign ⟨mark, s.name.reline f⟩) (h'.here.trans h.here.symm)
      (e.link_unique (h.child (.head _)) (h'.child (.head _)))
  | .call e paren args, _, _, _, _, _, h, h' =>
    congrArg₂ (Expr.call · _) (e.link_unique (h.child (.head _)) (h'.child (.head _)))
      (Expr.linkAll_unique args
        (fun e he => h.child (.tail _ (List.mem_map.2 ⟨e, he, rfl⟩)))
        fun e he => h'.child (.tail _ (List.mem_map.2 ⟨e, he, rfl⟩)))
  | .lambda params body, _, _, _, _, Γ, h, h' => by
    have hbody' := h'.child (.head _)
    rw [Scope.ofParams_reline] at hbody'
    exact congrArg (Expr.lambda _) (Stmt.linkAll_unique body (h.child (.head _)) hbody')

theorem Expr.linkAll_unique {f : Nat → Nat} : ∀ (es : List (Expr σ)) {n n' : Nat}
    {g g' : Nat → Option Nat} {Γ : Context},
    (∀ e ∈ Expr.mapAll g (Expr.labelAll es n).1, Everywhere Resolved Γ (.expr e)) →
    (∀ e ∈ Expr.mapAll g' (Expr.labelAll (Expr.relineAll f es) n').1,
      Everywhere Resolved Γ (.expr e)) →
    Expr.mapAll g' (Expr.labelAll (Expr.relineAll f es) n').1 =
      Expr.relineAll f (Expr.mapAll g (Expr.labelAll es n).1)
  | [], _, _, _, _, _, _, _ => rfl
  | e :: es, _, _, _, _, _, h, h' =>
    congrArg₂ List.cons (e.link_unique (h _ (.head _)) (h' _ (.head _)))
      (Expr.linkAll_unique es (fun e he => h e (.tail _ he)) fun e he => h' e (.tail _ he))

theorem Stmt.link_unique {f : Nat → Nat} : ∀ (s : Stmt σ) {n n' : Nat} {g g' : Nat → Option Nat}
    {Γ : Context}, Everywhere Resolved Γ (.stmt ((s.label n).1.map g)) →
    Everywhere Resolved Γ (.stmt (((s.reline f).label n').1.map g')) →
    ((s.reline f).label n').1.map g' = ((s.label n).1.map g).reline f
  | .var _ none, _, _, _, _, _, _, _ | .ret _ none, _, _, _, _, _, _, _ => rfl
  | .expression e, _, _, _, _, _, h, h' =>
    congrArg Stmt.expression (e.link_unique (h.child (.head _)) (h'.child (.head _)))
  | .print e, _, _, _, _, _, h, h' =>
    congrArg Stmt.print (e.link_unique (h.child (.head _)) (h'.child (.head _)))
  | .var name (some e), _, _, _, _, _, h, h' =>
    congrArg (Stmt.var _ <| some ·) (e.link_unique (h.child (.head _)) (h'.child (.head _)))
  | .ret keyword (some e), _, _, _, _, _, h, h' =>
    congrArg (Stmt.ret _ <| some ·) (e.link_unique (h.child (.head _)) (h'.child (.head _)))
  | .block body, _, _, _, _, _, h, h' =>
    congrArg Stmt.block (Stmt.linkAll_unique body (h.child (.head _)) (h'.child (.head _)))
  | .function name params body, _, _, _, _, _, h, h' => by
    have hbody' := h'.child (.head _)
    rw [Scope.ofParams_reline] at hbody'
    exact congrArg (Stmt.function _ _) (Stmt.linkAll_unique body (h.child (.head _)) hbody')
  | .loop e body, _, _, _, _, _, h, h' =>
    congrArg₂ Stmt.loop (e.link_unique (h.child (.head _)) (h'.child (.head _)))
      (body.link_unique (h.child (.tail _ (.head _))) (h'.child (.tail _ (.head _))))
  | .cond e yes none, _, _, _, _, _, h, h' =>
    congrArg₂ (Stmt.cond · · none) (e.link_unique (h.child (.head _)) (h'.child (.head _)))
      (yes.link_unique (h.child (.tail _ (.head _))) (h'.child (.tail _ (.head _))))
  | .cond e yes (some no), _, _, _, _, _, h, h' => by
    have he := e.link_unique (h.child (.head _)) (h'.child (.head _))
    have hyes := yes.link_unique (h.child (.tail _ (.head _))) (h'.child (.tail _ (.head _)))
    have hno' := h'.child (.tail _ (.tail _ (.head _)))
    rw [hyes, Context.after_reline] at hno'
    have hno := no.link_unique (h.child (.tail _ (.tail _ (.head _)))) hno'
    simp only [Stmt.reline, Stmt.label, Stmt.map, he, hyes, hno]
  | .classDecl name none methods, _, _, _, _, _, h, h' =>
    congrArg (Stmt.classDecl _ none)
      (Method.linkAll_unique methods
        (fun m hm => h.child (List.mem_map.2 ⟨m, hm, rfl⟩))
        fun m hm => h'.child (List.mem_map.2 ⟨m, hm, rfl⟩))
  | .classDecl name (some s) methods, _, _, _, _, _, h, h' =>
    congrArg₂ (fun mark => Stmt.classDecl _ (some ⟨mark, s.name.reline f⟩))
      ((h'.child (.head _)).here.1.trans (h.child (.head _)).here.1.symm)
      (Method.linkAll_unique methods
        (fun m hm => h.child (.tail _ (List.mem_map.2 ⟨m, hm, rfl⟩)))
        fun m hm => h'.child (.tail _ (List.mem_map.2 ⟨m, hm, rfl⟩)))

theorem Stmt.linkAll_unique {f : Nat → Nat} : ∀ (ss : List (Stmt σ)) {n n' : Nat}
    {g g' : Nat → Option Nat} {Γ : Context},
    Everywhere Resolved Γ (.stmts (Stmt.mapAll g (Stmt.labelAll ss n).1)) →
    Everywhere Resolved Γ (.stmts (Stmt.mapAll g' (Stmt.labelAll (Stmt.relineAll f ss) n').1)) →
    Stmt.mapAll g' (Stmt.labelAll (Stmt.relineAll f ss) n').1 =
      Stmt.relineAll f (Stmt.mapAll g (Stmt.labelAll ss n).1)
  | [], _, _, _, _, _, _, _ => rfl
  | s :: ss, _, _, _, _, _, h, h' => by
    have hs := s.link_unique (h.child (.head _)) (h'.child (.head _))
    have hss' := h'.child (.tail _ (.head _))
    rw [hs, Context.after_reline] at hss'
    exact congrArg₂ List.cons hs (Stmt.linkAll_unique ss (h.child (.tail _ (.head _))) hss')

theorem Method.linkAll_unique {f : Nat → Nat} : ∀ (ms : List (Method σ)) {n n' : Nat}
    {g g' : Nat → Option Nat} {Γ : Context},
    (∀ m ∈ Method.mapAll g (Method.labelAll ms n).1,
      Everywhere Resolved (m.node Γ).1 (m.node Γ).2) →
    (∀ m ∈ Method.mapAll g' (Method.labelAll (Method.relineAll f ms) n').1,
      Everywhere Resolved (m.node Γ).1 (m.node Γ).2) →
    Method.mapAll g' (Method.labelAll (Method.relineAll f ms) n').1 =
      Method.relineAll f (Method.mapAll g (Method.labelAll ms n).1)
  | [], _, _, _, _, _, _, _ => rfl
  | .mk name params body :: ms, _, _, _, _, _, h, h' => by
    have hbody' := h' _ (.head _)
    change Everywhere Resolved
      (.ofParams (Method.bodyKind name) (params.map (Token.reline f)) :: _) _ at hbody'
    rw [Scope.ofParams_reline] at hbody'
    exact congrArg₂ List.cons
      (congrArg (Method.mk _ _) (Stmt.linkAll_unique body (h _ (.head _)) hbody'))
      (Method.linkAll_unique ms (fun m hm => h m (.tail _ hm)) fun m hm => h' m (.tail _ hm))

end

/-- What holds everywhere in statements holds everywhere in the first of them and in the rest. -/
theorem Node.Everywhere.append {P : Context → Node σ → Prop}
    (hend : ∀ Γ, P Γ (.stmts [])) (hcons : ∀ Γ s ss, P Γ (.stmts (s :: ss)))
    {ss ts : List (Stmt σ)} {Γ : Context} (h : Everywhere P Γ (.stmts (ss ++ ts))) :
    Everywhere P Γ (.stmts ss) ∧ Everywhere P (Γ.afterAll ss) (.stmts ts) := by
  induction ss generalizing Γ with
  | nil => exact ⟨.leaf (hend Γ) rfl, h⟩
  | cons s ss ih =>
    obtain ⟨hss, hts⟩ := ih (h.child (.tail _ (.head _)))
    exact ⟨.two (hcons Γ s ss) rfl (h.child (.head _)) hss, hts⟩

/-- **Programs in a row are linked as they are alone**, whatever the numbers of their sites. -/
theorem Stmt.link_append (f : Nat → Nat) {ss ts : List (Stmt σ)} {m n k : Nat} {b c d : Bindings}
    (hss : Stmt.bindings (Stmt.labelAll ss m).1 = .ok b)
    (hts : Stmt.bindings (Stmt.labelAll ts n).1 = .ok c)
    (hboth : Stmt.bindings (Stmt.labelAll (ss ++ Stmt.relineAll f ts) k).1 = .ok d) :
    Stmt.mapAll d.distance? (Stmt.labelAll (ss ++ Stmt.relineAll f ts) k).1 =
      Stmt.mapAll b.distance? (Stmt.labelAll ss m).1 ++
        Stmt.relineAll f (Stmt.mapAll c.distance? (Stmt.labelAll ts n).1) := by
  have hfirst := (Line.resolved_of_bindings ⟨ss, none⟩ m hss).1
  have hsecond := (Line.resolved_of_bindings ⟨ts, none⟩ n hts).1
  have hresolved := (Line.resolved_of_bindings ⟨_, none⟩ k hboth).1
  change Everywhere Resolved [] (.stmts (Stmt.mapAll _ (Stmt.labelAll _ k).1)) at hresolved
  rw [Stmt.labelAll_append, Stmt.mapAll_append] at hresolved ⊢
  obtain ⟨h₁, h₂⟩ := hresolved.append (fun _ => trivial) fun _ _ _ => trivial
  rw [Context.afterAll_nil] at h₂
  have hsame := Stmt.linkAll_unique (f := id) ss hfirst (Stmt.relineAll_id ss ▸ h₁)
  rw [Stmt.relineAll_id, Stmt.relineAll_id] at hsame
  rw [hsame, Stmt.linkAll_unique ts hsecond h₂]

end LoxLang
