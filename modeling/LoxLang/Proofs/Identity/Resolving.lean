import LoxLang.Proofs.Identity.Marks
import LoxLang.Proofs.Session.Sources

/-!
# Resolving whatever the numbers are

Resolving never looks at a number: with the numbers of the sites replaced it takes the same walk and
records the same distances for the new numbers (`Line.resolve_map`). So a line whose sites bear
different numbers in any way is resolved as the line that is numbered from its text, and its sites
get the same distances (`Line.bindings_of_nodup`). A binding is always that of a site of the line
(`Line.mem_marks_of_bindings`).
-/

namespace LoxLang

variable {f : Nat → Nat}

namespace Bindings

/-- The distances of the sites with other numbers. -/
def renumber (f : Nat → Nat) (b : Bindings) : Bindings := b.map (Prod.map f id)

/-- Different sites are still told apart. -/
theorem distance?_renumber (hf : f.Injective) (b : Bindings) (k : Nat) :
    (b.renumber f).distance? (f k) = b.distance? k := by
  unfold renumber distance?
  induction b with
  | nil => rfl
  | cons p b ih =>
    obtain ⟨i, d⟩ := p
    have hbeq : (f k == f i) = (k == i) := by
      rw [Bool.eq_iff_iff, beq_iff_eq, beq_iff_eq]
      exact hf.eq_iff
    rw [List.map_cons, Prod.map, List.lookup_cons, List.lookup_cons, hbeq, ih, id]

end Bindings

/-- Two walks are at the same point and have found the same violations, and the second has bound the
sites of the first by other numbers. -/
structure Walk.Renumbered (f : Nat → Nat) (w w' : Walk) : Prop where
  scopes : w'.scopes = w.scopes
  body : w'.body = w.body
  cls : w'.cls = w.cls
  errors : w'.errors = w.errors
  bindings : w'.bindings = w.bindings.renumber f

namespace Walk.Renumbered

variable {w w' : Walk}

theorem start (f : Nat → Nat) : Renumbered f .start .start := ⟨rfl, rfl, rfl, rfl, rfl⟩

theorem report (h : Renumbered f w w') (t : Token) (cause : ScopeCause) :
    Renumbered f (w.report t cause) (w'.report t cause) :=
  ⟨h.scopes, h.body, h.cls, congrArg (ScopeError.mk t cause :: ·) h.errors, h.bindings⟩

/-- One step that may report a violation. -/
theorem check (h : Renumbered f w w') (t : Token) (cause : ScopeCause) (p : Prop) [Decidable p] :
    Renumbered f (if p then w.report t cause else w) (if p then w'.report t cause else w') := by
  split
  · exact h.report t cause
  · exact h

theorem openScope (h : Renumbered f w w') : Renumbered f w.openScope w'.openScope :=
  ⟨congrArg (List.cons (Table.empty : Table Bool)) h.scopes, h.body, h.cls, h.errors, h.bindings⟩

theorem closeScope (h : Renumbered f w w') : Renumbered f w.closeScope w'.closeScope :=
  ⟨congrArg List.tail h.scopes, h.body, h.cls, h.errors, h.bindings⟩

theorem withBody (h : Renumbered f w w') (kind : BodyKind) :
    Renumbered f { w with body := kind } { w' with body := kind } :=
  ⟨h.scopes, rfl, h.cls, h.errors, h.bindings⟩

theorem withClass (h : Renumbered f w w') (kind : ClassKind) :
    Renumbered f { w with cls := kind } { w' with cls := kind } :=
  ⟨h.scopes, h.body, rfl, h.errors, h.bindings⟩

theorem enter (h : Renumbered f w w') (name : String) (ready : Bool) :
    Renumbered f (w.enter name ready) (w'.enter name ready) := by
  unfold Walk.enter
  rw [h.scopes]
  cases w.scopes with
  | nil => exact h
  | cons scope outer => exact ⟨rfl, h.body, h.cls, h.errors, h.bindings⟩

theorem declare (h : Renumbered f w w') (name : Token) :
    Renumbered f (w.declare name) (w'.declare name) := by
  unfold Walk.declare
  rw [h.scopes]
  cases w.scopes with
  | nil => exact h
  | cons scope outer =>
    dsimp only
    split
    · exact h.report name .declaredTwice
    · exact h.enter name.lexeme false

theorem define (h : Renumbered f w w') (name : Token) :
    Renumbered f (w.define name) (w'.define name) :=
  h.enter name.lexeme true

theorem introduce (h : Renumbered f w w') (name : Token) :
    Renumbered f (w.introduce name) (w'.introduce name) :=
  (h.declare name).define name

theorem bind (h : Renumbered f w w') (s : Site Nat) :
    Renumbered f (w.bind s) (w'.bind (s.map f)) := by
  unfold Walk.bind Walk.distance?
  rw [h.scopes]
  dsimp only [Site.map]
  split
  · exact ⟨rfl, h.body, h.cls, h.errors, congrArg (List.cons _) h.bindings⟩
  · exact h

theorem read (h : Renumbered f w w') (s : Site Nat) :
    Renumbered f (w.read s) (w'.read (s.map f)) := by
  unfold Walk.read Walk.isUnready
  rw [h.scopes]
  exact (h.check s.name .readInInitializer _).bind s

theorem readThis (h : Renumbered f w w') (s : Site Nat) :
    Renumbered f (w.readThis s) (w'.readThis (s.map f)) := by
  unfold Walk.readThis
  rw [h.cls]
  cases w.cls with
  | outside => exact h.report s.name .thisOutsideClass
  | base | derived => exact h.bind s

theorem readSuper (h : Renumbered f w w') (s : Site Nat) :
    Renumbered f (w.readSuper s) (w'.readSuper (s.map f)) := by
  unfold Walk.readSuper
  rw [h.cls]
  cases w.cls with
  | outside => exact (h.report s.name .superOutsideClass).bind s
  | base => exact (h.report s.name .superWithoutSuperclass).bind s
  | derived => exact h.bind s

theorem enterBody (h : Renumbered f w w') (kind : BodyKind) (params : List Token) :
    Renumbered f (w.enterBody kind params) (w'.enterBody kind params) := by
  have hopen := (h.withBody kind).openScope
  unfold Walk.enterBody
  generalize Walk.openScope { w with body := kind } = v at hopen
  generalize Walk.openScope { w' with body := kind } = v' at hopen
  induction params generalizing v v' with
  | nil => exact hopen
  | cons p params ih => exact ih _ _ (hopen.introduce p)

/-- Leaving a body for the one around it. -/
theorem leaveBody {v v' : Walk} (h : Renumbered f w w') (hv : Renumbered f v v') :
    Renumbered f (w.leaveBody v.body) (w'.leaveBody v'.body) :=
  hv.body ▸ h.closeScope.withBody v.body

theorem checkReturn (h : Renumbered f w w') (keyword : Token) (hasValue : Bool) :
    Renumbered f (w.checkReturn keyword hasValue) (w'.checkReturn keyword hasValue) := by
  have htop := h.check keyword .topLevelReturn (w.body = .topLevel)
  unfold Walk.checkReturn
  rw [h.body]
  dsimp only
  rw [htop.body]
  exact htop.check keyword .initializerValue _

theorem enterClass (h : Renumbered f w w') (name : Token) (superclass : Option (Site Nat)) :
    Renumbered f (w.enterClass name superclass)
      (w'.enterClass name (superclass.map (Site.map f))) := by
  have hname := (h.withClass .base).introduce name
  cases superclass with
  | none => exact hname.openScope.enter thisName true
  | some s =>
    have hown := hname.check s.name .ownSuperclass (s.name.lexeme = name.lexeme)
    have hsuper := ((hown.withClass .derived).read s).openScope.enter superName true
    exact hsuper.openScope.enter thisName true

/-- Leaving a class for the one around it. -/
theorem leaveClass {v v' : Walk} (h : Renumbered f w w') (hv : Renumbered f v v')
    (derived : Bool) :
    Renumbered f (w.leaveClass derived v.cls) (w'.leaveClass derived v'.cls) := by
  rw [hv.cls]
  cases derived with
  | false => exact h.closeScope.withClass v.cls
  | true => exact h.closeScope.closeScope.withClass v.cls

end Walk.Renumbered

open Walk (Renumbered)

mutual

/-- Resolving an expression never looks at its numbers. -/
theorem Expr.resolve_map : ∀ (e : Expr Nat) {w w' : Walk}, Renumbered f w w' →
    Renumbered f (e.resolve w) ((e.map f).resolve w')
  | .literal _, _, _, h => h
  | .group e, _, _, h | .unary _ e, _, _, h | .get e _, _, _, h => e.resolve_map h
  | .binary _ a b, _, _, h | .logical _ a b, _, _, h => b.resolve_map (a.resolve_map h)
  | .ref s, _, _, h => h.read s
  | .assign s e, _, _, h => (e.resolve_map h).bind s
  | .call c _ args, _, _, h => Expr.resolveAll_map args (c.resolve_map h)
  | .set a _ v, _, _, h => a.resolve_map (v.resolve_map h)
  | .this s, _, _, h => h.readThis s
  | .super s _, _, _, h => h.readSuper s
  | .lambda params body, _, _, h =>
    (Stmt.resolveAll_map body (h.enterBody .function params)).leaveBody h

theorem Expr.resolveAll_map : ∀ (es : List (Expr Nat)) {w w' : Walk}, Renumbered f w w' →
    Renumbered f (Expr.resolveAll es w) (Expr.resolveAll (Expr.mapAll f es) w')
  | [], _, _, h => h
  | e :: es, _, _, h => Expr.resolveAll_map es (e.resolve_map h)

theorem Stmt.resolve_map : ∀ (s : Stmt Nat) {w w' : Walk}, Renumbered f w w' →
    Renumbered f (s.resolve w) ((s.map f).resolve w')
  | .expression e, _, _, h | .print e, _, _, h => e.resolve_map h
  | .var name none, _, _, h => h.introduce name
  | .var name (some e), _, _, h => (e.resolve_map (h.declare name)).define name
  | .block body, _, _, h => (Stmt.resolveAll_map body h.openScope).closeScope
  | .cond e yes none, _, _, h => yes.resolve_map (e.resolve_map h)
  | .cond e yes (some no), _, _, h => no.resolve_map (yes.resolve_map (e.resolve_map h))
  | .loop e body, _, _, h => body.resolve_map (e.resolve_map h)
  | .function name params body, _, _, h =>
    (Stmt.resolveAll_map body ((h.introduce name).enterBody .function params)).leaveBody h
  | .ret keyword none, _, _, h => h.checkReturn keyword false
  | .ret keyword (some e), _, _, h => e.resolve_map (h.checkReturn keyword true)
  | .classDecl name superclass methods, _, _, h => by
    have hmethods := Method.resolveAll_map methods (h.enterClass name superclass)
    rw [Stmt.map, Stmt.resolve, Stmt.resolve, Option.isSome_map]
    exact hmethods.leaveClass h superclass.isSome

theorem Stmt.resolveAll_map : ∀ (ss : List (Stmt Nat)) {w w' : Walk}, Renumbered f w w' →
    Renumbered f (Stmt.resolveAll ss w) (Stmt.resolveAll (Stmt.mapAll f ss) w')
  | [], _, _, h => h
  | s :: ss, _, _, h => Stmt.resolveAll_map ss (s.resolve_map h)

theorem Method.resolveAll_map : ∀ (ms : List (Method Nat)) {w w' : Walk}, Renumbered f w w' →
    Renumbered f (Method.resolveAll ms w) (Method.resolveAll (Method.mapAll f ms) w')
  | [], _, _, h => h
  | .mk name params body :: ms, _, _, h =>
    Method.resolveAll_map ms
      ((Stmt.resolveAll_map body (h.enterBody (.ofMethod name) params)).leaveBody h)

end

namespace Line

/-- **Resolving a line never looks at its numbers.** -/
theorem resolve_map (line : Line Nat) {w w' : Walk} (h : Renumbered f w w') :
    Renumbered f (line.resolve w) ((line.map f).resolve w') := by
  obtain ⟨ss, trailing⟩ := line
  cases trailing with
  | none => exact Stmt.resolveAll_map ss h
  | some e => exact e.resolve_map (Stmt.resolveAll_map ss h)

/-- The bindings of a line with other numbers. -/
theorem bindings_map (f : Nat → Nat) (line : Line Nat) :
    (line.map f).bindings = line.bindings.map (Bindings.renumber f) := by
  have h := line.resolve_map (.start f)
  unfold Line.bindings Walk.finish
  rw [h.errors, h.bindings]
  split <;> rfl

/-- With other numbers, as long as they are different, the sites have the same distances. -/
theorem link_map (hf : f.Injective) (line : Line Nat) (b : Bindings) :
    (line.map f).link (b.renumber f) = line.link b := by
  unfold link
  rw [map_map]
  exact congrArg (map · line) (funext fun k => b.distance?_renumber hf k)

variable {line : Line Nat} {b : Bindings}

/-- Only sites of the line are bound. A number that no site has may be replaced, and the bindings
stay what they are. -/
theorem mem_marks_of_bindings (h : line.bindings = .ok b) : ∀ p ∈ b, p.1 ∈ line.marks := by
  let f : Nat → Nat := fun k => if k ∈ line.marks then k else k + 1
  have hmap := bindings_map f line
  rw [map_eq_self fun k hk => if_pos hk, h] at hmap
  have hb : b = b.map (Prod.map f id) := Except.ok.inj hmap
  intro p hp
  have hfix : f p.1 = p.1 :=
    (congrArg Prod.fst (List.map_inj_left.1 ((List.map_id b).trans hb) p hp)).symm
  by_contra hout
  exact absurd ((if_neg hout).symm.trans hfix) (Nat.succ_ne_self p.1)

/-- **Sites with different numbers are resolved as those numbered from the text**: there are the
same violations, or the sites get the same distances. -/
theorem bindings_of_nodup (hnodup : line.marks.Nodup) :
    (∃ es, ((line.map fun _ => ()).label 0).1.bindings = .error es ∧ line.bindings = .error es) ∨
      ∃ b b', ((line.map fun _ => ()).label 0).1.bindings = .ok b ∧ line.bindings = .ok b' ∧
        line.link b' = ((line.map fun _ => ()).label 0).1.link b := by
  obtain ⟨f, hf, hlisted⟩ := ListedBy.exists_injective hnodup
  have hline := (line.map_label_marks 0 hlisted).2
  generalize ((line.map fun _ => ()).label 0).1 = labelled at hline
  subst hline
  rw [bindings_map]
  cases labelled.bindings with
  | error es => exact .inl ⟨es, rfl, rfl⟩
  | ok b => exact .inr ⟨b, _, rfl, rfl, labelled.link_map hf b⟩

end Line

end LoxLang
