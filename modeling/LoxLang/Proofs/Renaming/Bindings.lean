import LoxLang.Proofs.Renaming.Rename
import LoxLang.Proofs.Scope.Joining

/-!
# Resolving a renamed tree

The walk through a renamed tree keeps step with the walk through the tree itself: in each open scope
it has the same names, but for the one that is replaced where it is (`Renaming.Walks`). A site takes
the name of the scope it is bound to, so it is bound to the same scope again, whatever the scopes in
between do with the name (`Renaming.OpenScopes.findIdx?_eq`). Hence a renamed tree is accepted with
the bindings of the tree (`Stmt.bindings_rename`).
-/

namespace LoxLang

/-- The names of a scope in the two walks. One of the old and the new name is not there, according
to whether the name is replaced in the scope. -/
structure Renaming.OpenScope (ρ : Renaming) (picked : Bool) (t t' : Table Bool) : Prop where
  names : ρ.Tables picked Eq t t'
  absent : t'.find? (ρ.name (!picked) ρ.old) = none

namespace Renaming.OpenScope

variable {ρ : Renaming} {picked : Bool} {t t' : Table Bool} {x : String}

theorem empty (ρ : Renaming) (picked : Bool) : ρ.OpenScope picked .empty .empty := ⟨.empty, rfl⟩

theorem find?_eq (h : ρ.OpenScope picked t t') (hx : x ≠ ρ.new) :
    t'.find? (ρ.name picked x) = t.find? x := by
  have hn := h.names x hx
  generalize t.find? x = o at hn ⊢
  generalize t'.find? (ρ.name picked x) = o' at hn ⊢
  cases hn with
  | some h => rw [h]
  | none => rfl

theorem contains_eq (h : ρ.OpenScope picked t t') (hx : x ≠ ρ.new) :
    t'.contains (ρ.name picked x) = t.contains x :=
  congrArg Option.isSome (h.find?_eq hx)

/-- A name that is not there is there in neither form. -/
theorem find?_eq_none (h : ρ.OpenScope picked t t') (hx : x ≠ ρ.new) (hnone : t.find? x = none)
    (other : Bool) : t'.find? (ρ.name other x) = none := by
  obtain heq | heq := ρ.name_eq_or picked other x
  · rw [heq, h.find?_eq hx, hnone]
  · rw [heq, h.absent]

theorem insert (h : ρ.OpenScope picked t t') (hx : x ≠ ρ.new) (ready : Bool) :
    ρ.OpenScope picked (t.insert x ready) (t'.insert (ρ.name picked x) ready) :=
  ⟨h.names.insert hx rfl, by rw [Table.find?_insert, if_neg (name_ne hx), h.absent]⟩

end Renaming.OpenScope

/-- The open scopes of the two walks. -/
inductive Renaming.OpenScopes (ρ : Renaming) :
    Flags → List (Table Bool) → List (Table Bool) → Prop
  | nil : OpenScopes ρ [] [] []
  | cons {picked : Bool} {δ : Flags} {t t' : Table Bool} {ts ts' : List (Table Bool)} :
      ρ.OpenScope picked t t' → OpenScopes ρ δ ts ts' →
      OpenScopes ρ (picked :: δ) (t :: ts) (t' :: ts')

/-- The innermost scope with a name is the innermost one with the name that the variable has there
in the renamed tree. -/
theorem Renaming.OpenScopes.findIdx?_eq {ρ : Renaming} {δ : Flags} {ts ts' : List (Table Bool)}
    (h : ρ.OpenScopes δ ts ts') {x : String} (hx : x ≠ ρ.new) :
    ts'.findIdx? (·.contains (ρ.name (δ.there (ts.findIdx? (·.contains x))) x)) =
      ts.findIdx? (·.contains x) := by
  induction h with
  | nil => rfl
  | @cons picked δ t t' ts ts' ht _ ih =>
    have hfirst : (t :: ts).findIdx? (·.contains x) =
        if t.contains x then some 0 else (ts.findIdx? (·.contains x)).map (· + 1) :=
      List.findIdx?_cons
    rw [hfirst]
    by_cases hc : t.contains x = true
    · rw [if_pos hc, List.findIdx?_cons, Flags.there, List.getD_cons_zero, ht.contains_eq hx,
        if_pos hc]
    · have hthere : Flags.there (picked :: δ) ((ts.findIdx? (·.contains x)).map (· + 1)) =
          δ.there (ts.findIdx? (·.contains x)) := by
        cases ts.findIdx? (·.contains x) <;> rfl
      have hnone : t.find? x = none := by simpa [Table.contains] using hc
      rw [if_neg hc, hthere, List.findIdx?_cons, ih, Table.contains, ht.find?_eq_none hx hnone,
        if_neg (by simp)]

/-- Two walks at the same point of a tree and of the renamed tree. What violations they have found
does not matter, as long as they have both found some or none. -/
structure Renaming.Walks (ρ : Renaming) (δ : Flags) (w w' : Walk) : Prop where
  scopes : ρ.OpenScopes δ w.scopes w'.scopes
  body : w'.body = w.body
  cls : w'.cls = w.cls
  errors : w'.errors = [] ↔ w.errors = []
  bindings : w'.bindings = w.bindings

namespace Renaming.Walks

variable {ρ : Renaming} {g : Nat → Option Nat} {δ : Flags} {picked : Bool} {w w' : Walk}

theorem start (ρ : Renaming) : ρ.Walks [] .start .start := ⟨.nil, rfl, rfl, .rfl, rfl⟩

theorem report (h : ρ.Walks δ w w') (t t' : Token) (cause : ScopeCause) :
    ρ.Walks δ (w.report t cause) (w'.report t' cause) :=
  { h with errors := iff_of_false (List.cons_ne_nil _ _) (List.cons_ne_nil _ _) }

/-- One step that may report a violation. -/
theorem check (h : ρ.Walks δ w w') (t t' : Token) (cause : ScopeCause) {p p' : Prop} [Decidable p]
    [Decidable p'] (hp : p' ↔ p) :
    ρ.Walks δ (if p then w.report t cause else w) (if p' then w'.report t' cause else w') := by
  rw [if_congr hp rfl rfl]
  split
  · exact h.report t t' cause
  · exact h

theorem openScope (h : ρ.Walks δ w w') (picked : Bool) :
    ρ.Walks (picked :: δ) w.openScope w'.openScope :=
  { h with scopes := .cons (.empty ρ picked) h.scopes }

theorem closeScope (h : ρ.Walks (picked :: δ) w w') : ρ.Walks δ w.closeScope w'.closeScope := by
  refine { h with scopes := ?_ }
  have hs := h.scopes
  unfold Walk.closeScope
  generalize w.scopes = ts at hs
  generalize w'.scopes = ts' at hs
  cases hs with
  | cons _ hts => exact hts

theorem withBody (h : ρ.Walks δ w w') (kind : BodyKind) :
    ρ.Walks δ { w with body := kind } { w' with body := kind } :=
  { h with body := rfl }

theorem withClass (h : ρ.Walks δ w w') (kind : ClassKind) :
    ρ.Walks δ { w with cls := kind } { w' with cls := kind } :=
  { h with cls := rfl }

theorem enter (h : ρ.Walks δ w w') {x : String} (hx : x ≠ ρ.new) (ready : Bool) :
    ρ.Walks δ (w.enter x ready) (w'.enter (ρ.name δ.here x) ready) := by
  have hs := h.scopes
  obtain ⟨ts, body, cls, errors, bindings⟩ := w
  obtain ⟨ts', body', cls', errors', bindings'⟩ := w'
  cases hs with
  | nil => exact h
  | cons ht hts => exact { h with scopes := .cons (ht.insert hx ready) hts }

theorem declare (h : ρ.Walks δ w w') {name : Token} (hname : name.lexeme ≠ ρ.new) :
    ρ.Walks δ (w.declare name) (w'.declare (ρ.token δ.here name)) := by
  have henter := h.enter hname false
  have hreport := h.report name (ρ.token δ.here name) .declaredTwice
  have hs := h.scopes
  unfold Walk.declare
  generalize hts : w.scopes = ts at hs
  generalize hts' : w'.scopes = ts' at hs
  cases hs with
  | nil => exact h
  | @cons picked δ t t' ts ts' ht _ =>
    have hcontains : t'.contains (ρ.token (Flags.here (picked :: δ)) name).lexeme =
        t.contains name.lexeme := ht.contains_eq hname
    dsimp only
    rw [hcontains]
    split
    · exact hreport
    · exact henter

theorem define (h : ρ.Walks δ w w') {name : Token} (hname : name.lexeme ≠ ρ.new) :
    ρ.Walks δ (w.define name) (w'.define (ρ.token δ.here name)) :=
  h.enter hname true

theorem introduce (h : ρ.Walks δ w w') {name : Token} (hname : name.lexeme ≠ ρ.new) :
    ρ.Walks δ (w.introduce name) (w'.introduce (ρ.token δ.here name)) :=
  (h.declare hname).define hname

/-- The name of a function or a class stays as it is. -/
theorem introduce_routine (h : ρ.Walks δ w w') {name : Token} (hname : name.lexeme ≠ ρ.new)
    (hold : δ.here = true → name.lexeme ≠ ρ.old) :
    ρ.Walks δ (w.introduce name) (w'.introduce name) := by
  have hkeep : ρ.token δ.here name = name := by
    unfold token
    rw [Renaming.name, if_neg fun h => hold h.1 h.2]
  have hi := h.introduce hname
  rw [hkeep] at hi
  exact hi

/-- Where a site stands in the tree, its name is at the same distance in the renamed tree. -/
theorem distance?_eq (h : ρ.Walks δ w w') {s : Site Nat} (hs : s.name.lexeme ≠ ρ.new)
    (hd : g s.mark = w.distance? s.name.lexeme) :
    w'.distance? (ρ.site g δ s).name.lexeme = w.distance? s.name.lexeme := by
  change w'.distance? (ρ.name (δ.there (g s.mark)) s.name.lexeme) = _
  rw [hd]
  exact h.scopes.findIdx?_eq hs

theorem isUnready_eq (h : ρ.Walks δ w w') {s : Site Nat} (hs : s.name.lexeme ≠ ρ.new)
    (hd : g s.mark = w.distance? s.name.lexeme) :
    w'.isUnready (ρ.site g δ s).name.lexeme = w.isUnready s.name.lexeme := by
  have hscopes := h.scopes
  change w'.isUnready (ρ.name (δ.there (g s.mark)) s.name.lexeme) = _
  rw [hd]
  unfold Walk.isUnready Walk.distance?
  generalize w.scopes = ts at hscopes
  generalize w'.scopes = ts' at hscopes
  cases hscopes with
  | nil => rfl
  | @cons picked δ t t' ts ts' ht _ =>
    dsimp only
    rw [List.findIdx?_cons]
    by_cases hc : t.contains s.name.lexeme = true
    · rw [if_pos hc, Flags.there, List.getD_cons_zero, ht.find?_eq hs]
    · have hnone : t.find? s.name.lexeme = none := by simpa [Table.contains] using hc
      rw [if_neg hc, ht.find?_eq_none hs hnone, hnone]

theorem bind (h : ρ.Walks δ w w') {s : Site Nat} (hs : s.name.lexeme ≠ ρ.new)
    (hd : g s.mark = w.distance? s.name.lexeme) :
    ρ.Walks δ (w.bind s) (w'.bind (ρ.site g δ s)) := by
  unfold Walk.bind
  rw [h.distance?_eq hs hd]
  split
  · exact { h with bindings := congrArg (List.cons (s.mark, _)) h.bindings }
  · exact h

theorem read (h : ρ.Walks δ w w') {s : Site Nat} (hs : s.name.lexeme ≠ ρ.new)
    (hd : g s.mark = w.distance? s.name.lexeme) :
    ρ.Walks δ (w.read s) (w'.read (ρ.site g δ s)) := by
  have hunready : w'.isUnready (ρ.site g δ s).name.lexeme = true ↔
      w.isUnready s.name.lexeme = true := by rw [h.isUnready_eq hs hd]
  have hcheck := h.check s.name (ρ.site g δ s).name .readInInitializer hunready
  refine hcheck.bind hs (hd.trans ?_)
  split <;> rfl

theorem readThis (h : ρ.Walks δ w w') {s : Site Nat} (hs : s.name.lexeme ≠ ρ.new)
    (hd : g s.mark = w.distance? s.name.lexeme) :
    ρ.Walks δ (w.readThis s) (w'.readThis (ρ.site g δ s)) := by
  unfold Walk.readThis
  rw [h.cls]
  split
  · exact h.report _ _ _
  · exact h.bind hs hd

theorem readSuper (h : ρ.Walks δ w w') {s : Site Nat} (hs : s.name.lexeme ≠ ρ.new)
    (hd : g s.mark = w.distance? s.name.lexeme) :
    ρ.Walks δ (w.readSuper s) (w'.readSuper (ρ.site g δ s)) := by
  unfold Walk.readSuper
  rw [h.cls]
  cases w.cls with
  | outside => exact (h.report _ _ _).bind hs hd
  | base => exact (h.report _ _ _).bind hs hd
  | derived => exact h.bind hs hd

theorem enterBody (h : ρ.Walks δ w w') (picked : Bool) (kind : BodyKind) {params : List Token}
    (hparams : ∀ p ∈ params, p.lexeme ≠ ρ.new) :
    ρ.Walks (picked :: δ) (w.enterBody kind params)
      (w'.enterBody kind (params.map (ρ.token picked))) := by
  have hopen := (h.withBody kind).openScope picked
  unfold Walk.enterBody
  generalize Walk.openScope { w with body := kind } = v at hopen
  generalize Walk.openScope { w' with body := kind } = v' at hopen
  induction params generalizing v v' with
  | nil => exact hopen
  | cons p params ih =>
    obtain ⟨hp, hparams⟩ := List.forall_mem_cons.1 hparams
    exact ih hparams _ _ (hopen.introduce hp)

theorem leaveBody (h : ρ.Walks (picked :: δ) w w') {kind kind' : BodyKind}
    (hkind : kind' = kind) : ρ.Walks δ (w.leaveBody kind) (w'.leaveBody kind') :=
  hkind ▸ h.closeScope.withBody kind

theorem checkReturn (h : ρ.Walks δ w w') (keyword : Token) (hasValue : Bool) :
    ρ.Walks δ (w.checkReturn keyword hasValue) (w'.checkReturn keyword hasValue) := by
  have hbody : w'.body = .topLevel ↔ w.body = .topLevel := by rw [h.body]
  have htop := h.check keyword keyword .topLevelReturn hbody
  exact htop.check keyword keyword .initializerValue (by rw [htop.body])

/-- The scope in which methods find their receiver or the superclass. -/
theorem openNamed (h : ρ.Walks δ w w') {x : String} (hx : x ≠ ρ.new) :
    ρ.Walks (false :: δ) (w.openScope.enter x true) (w'.openScope.enter x true) :=
  (h.openScope false).enter hx true

theorem enterClass_none (h : ρ.Walks δ w w') {name : Token} (hname : name.lexeme ≠ ρ.new)
    (hold : δ.here = true → name.lexeme ≠ ρ.old) :
    ρ.Walks (false :: δ) (w.enterClass name none) (w'.enterClass name none) :=
  ((h.withClass .base).introduce_routine hname hold).openNamed ρ.new_ne_this.symm

theorem enterClass (h : ρ.Walks δ w w') {name : Token} (hname : name.lexeme ≠ ρ.new)
    (hold : δ.here = true → name.lexeme ≠ ρ.old) {s : Site Nat} (hs : s.name.lexeme ≠ ρ.new)
    (hd : g s.mark = (w.introduce name).distance? s.name.lexeme)
    (hown : s.name.lexeme ≠ name.lexeme) :
    ρ.Walks (false :: false :: δ) (w.enterClass name (some s))
      (w'.enterClass name (some (ρ.site g δ s))) := by
  have hown' : (ρ.site g δ s).name.lexeme ≠ name.lexeme := by
    change ρ.name _ s.name.lexeme ≠ name.lexeme
    unfold Renaming.name
    split
    · exact hname.symm
    · exact hown
  have hi := (h.withClass .base).introduce_routine hname hold
  have hd : g s.mark = ({ w with cls := .base }.introduce name).distance? s.name.lexeme := by
    rw [hd, Walk.distance?, Walk.distance?, Walk.scopes_introduce, Walk.scopes_introduce]
  have hread := (hi.withClass .derived).read hs hd
  have hnamed := (hread.openNamed ρ.new_ne_super.symm).openNamed ρ.new_ne_this.symm
  unfold Walk.enterClass
  dsimp only
  rw [if_neg hown, if_neg hown']
  exact hnamed

theorem leaveClass_none (h : ρ.Walks (false :: δ) w w') {kind kind' : ClassKind}
    (hkind : kind' = kind) : ρ.Walks δ (w.leaveClass false kind) (w'.leaveClass false kind') :=
  hkind ▸ h.closeScope.withClass kind

theorem leaveClass (h : ρ.Walks (false :: false :: δ) w w') {kind kind' : ClassKind}
    (hkind : kind' = kind) : ρ.Walks δ (w.leaveClass true kind) (w'.leaveClass true kind') :=
  hkind ▸ h.closeScope.closeScope.withClass kind

end Renaming.Walks

open Node (Everywhere Resolved)

section

variable {ρ : Renaming} {g : Nat → Option Nat}

mutual

/-- The walk through a renamed expression keeps step, if the distances are those of the text. -/
theorem Expr.walks_rename : ∀ (e : Expr Nat) (c : Choice) {δ : Flags} {w w' : Walk} {Γ : Context},
    w.At Γ → Everywhere Resolved Γ (.expr (e.map g)) → e.Lacks ρ.new → ρ.Walks δ w w' →
    ρ.Walks δ (e.resolve w) ((e.rename ρ g δ c).resolve w')
  | .literal _, _, _, _, _, _, _, _, _, h => h
  | .group e, c, _, _, _, _, hat, hr, hl, h | .unary _ e, c, _, _, _, _, hat, hr, hl, h
  | .get e _, c, _, _, _, _, hat, hr, hl, h =>
    e.walks_rename c hat (hr.child (.head _)) hl h
  | .binary _ a b, c, _, _, _, _, hat, hr, hl, h | .logical _ a b, c, _, _, _, _, hat, hr, hl, h =>
    b.walks_rename (c.part 1) (a.at_resolve hat) (hr.child (.tail _ (.head _))) hl.2
      (a.walks_rename (c.part 0) hat (hr.child (.head _)) hl.1 h)
  | .ref _, _, _, _, _, _, hat, hr, hl, h =>
    h.read hl (hr.here.1.trans (Walk.distance?_eq hat.scopes _).symm)
  | .this _, _, _, _, _, _, hat, hr, hl, h =>
    h.readThis hl (hr.here.1.trans (Walk.distance?_eq hat.scopes _).symm)
  | .super _ _, _, _, _, _, _, hat, hr, hl, h =>
    h.readSuper hl (hr.here.1.trans (Walk.distance?_eq hat.scopes _).symm)
  | .assign _ e, c, _, _, _, _, hat, hr, hl, h =>
    (e.walks_rename c hat (hr.child (.head _)) hl.2 h).bind hl.1
      (hr.here.trans (Walk.distance?_eq (e.at_resolve hat).scopes _).symm)
  | .call e _ args, c, _, _, _, _, hat, hr, hl, h =>
    Expr.walks_renameAll args (c.part 1) (e.at_resolve hat)
      (fun e he => hr.child (.tail _ (List.mem_map.2 ⟨e, he, rfl⟩))) hl.2
      (e.walks_rename (c.part 0) hat (hr.child (.head _)) hl.1 h)
  | .set e _ v, c, _, _, _, _, hat, hr, hl, h =>
    e.walks_rename (c.part 0) (v.at_resolve hat) (hr.child (.head _)) hl.1
      (v.walks_rename (c.part 1) hat (hr.child (.tail _ (.head _))) hl.2 h)
  | .lambda params body, c, _, _, _, _, hat, hr, hl, h =>
    (Stmt.walks_renameAll body c (hat.enterBody .function params) (.ofParams _ params _)
      (hr.child (.head _)) hl.2 (h.enterBody (ρ.picks c body) .function hl.1)
      Renaming.not_mem_routines).leaveBody h.body

theorem Expr.walks_renameAll : ∀ (es : List (Expr Nat)) (c : Choice) {δ : Flags} {w w' : Walk}
    {Γ : Context}, w.At Γ → (∀ e ∈ Expr.mapAll g es, Everywhere Resolved Γ (.expr e)) →
    Expr.LacksAll ρ.new es → ρ.Walks δ w w' →
    ρ.Walks δ (Expr.resolveAll es w) (Expr.resolveAll (Expr.renameAll ρ g δ c es) w')
  | [], _, _, _, _, _, _, _, _, h => h
  | e :: es, c, _, _, _, _, hat, hr, hl, h =>
    Expr.walks_renameAll es (c.part 1) (e.at_resolve hat) (fun e he => hr e (.tail _ he)) hl.2
      (e.walks_rename (c.part 0) hat (hr _ (.head _)) hl.1 h)

/-- The walk through a renamed statement keeps step, if no function or class has the name in a scope
where it is replaced. -/
theorem Stmt.walks_rename : ∀ (s : Stmt Nat) (c : Choice) {δ : Flags} {w w' : Walk} {Γ : Context},
    w.At Γ → Γ.Settled → Everywhere Resolved Γ (.stmt (s.map g)) → s.Lacks ρ.new →
    ρ.Walks δ w w' → (δ.here = true → ρ.old ∉ s.routines) →
    ρ.Walks δ (s.resolve w) ((s.rename ρ g δ c).resolve w')
  | .expression e, c, _, _, _, _, hat, _, hr, hl, h, _
  | .print e, c, _, _, _, _, hat, _, hr, hl, h, _ =>
    e.walks_rename c hat (hr.child (.head _)) hl h
  | .var _ none, _, _, _, _, _, _, _, _, hl, h, _ => h.introduce hl
  | .var name (some e), c, _, _, _, _, hat, hΓ, hr, hl, h, _ =>
    (e.walks_rename c (hat.declare hΓ name) (hr.child (.head _)) hl.2 (h.declare hl.1)).define hl.1
  | .block body, c, _, _, _, Γ, hat, _, hr, hl, h, _ =>
    (Stmt.walks_renameAll body c hat.openScope (.block Γ) (hr.child (.head _)) hl
      (h.openScope (ρ.picks c body)) Renaming.not_mem_routines).closeScope
  | .cond e yes none, c, _, _, _, _, hat, hΓ, hr, hl, h, ho =>
    yes.walks_rename (c.part 1) (e.at_resolve hat) hΓ (hr.child (.tail _ (.head _))) hl.2
      (e.walks_rename (c.part 0) hat (hr.child (.head _)) hl.1 h) ho
  | .cond e yes (some no), c, _, _, _, Γ, hat, hΓ, hr, hl, h, ho => by
    have he := e.walks_rename (c.part 0) hat (hr.child (.head _)) hl.1 h
    have hyes := yes.walks_rename (c.part 1) (e.at_resolve hat) hΓ (hr.child (.tail _ (.head _)))
      hl.2.1 he fun hδ hm => ho hδ (List.mem_append_left _ hm)
    have hno := hr.child (.tail _ (.tail _ (.head _)))
    rw [Context.after_map] at hno
    exact no.walks_rename (c.part 2) (yes.at_resolve (e.at_resolve hat) hΓ) (hΓ.after yes) hno
      hl.2.2 hyes fun hδ hm => ho hδ (List.mem_append_right _ hm)
  | .loop e body, c, _, _, _, _, hat, hΓ, hr, hl, h, ho =>
    body.walks_rename (c.part 1) (e.at_resolve hat) hΓ (hr.child (.tail _ (.head _))) hl.2
      (e.walks_rename (c.part 0) hat (hr.child (.head _)) hl.1 h) ho
  | .function name params body, c, _, _, _, _, hat, _, hr, hl, h, ho =>
    (Stmt.walks_renameAll body c ((hat.introduce name).enterBody .function params)
      (.ofParams _ params _) (hr.child (.head _)) hl.2.2
      ((h.introduce_routine hl.1 fun hδ hn => ho hδ (hn ▸ .head _)).enterBody (ρ.picks c body)
        .function hl.2.1) Renaming.not_mem_routines).leaveBody h.body
  | .ret keyword none, _, _, _, _, _, _, _, _, _, h, _ => h.checkReturn keyword false
  | .ret keyword (some e), c, _, _, _, _, hat, _, hr, hl, h, _ =>
    e.walks_rename c (hat.checkReturn keyword true) (hr.child (.head _)) hl
      (h.checkReturn keyword true)
  | .classDecl name none methods, c, _, _, _, _, hat, hΓ, hr, hl, h, ho =>
    (Method.walks_renameAll methods c (hat.enterClass hΓ name none)
      (fun m hm => hr.child (List.mem_map.2 ⟨m, hm, rfl⟩)) hl.2
      (h.enterClass_none hl.1 fun hδ hn => ho hδ (hn ▸ .head _))).leaveClass_none h.cls
  | .classDecl name (some s) methods, c, _, _, _, _, hat, hΓ, hr, hl, h, ho =>
    (Method.walks_renameAll methods c (hat.enterClass hΓ name (some s))
      (fun m hm => hr.child (.tail _ (List.mem_map.2 ⟨m, hm, rfl⟩))) hl.2.2
      (h.enterClass hl.1 (fun hδ hn => ho hδ (hn ▸ .head _)) hl.2.1
        ((hr.child (.head _)).here.1.trans
          (Walk.distance?_eq (hat.introduce name).scopes _).symm) hr.here)).leaveClass h.cls

theorem Stmt.walks_renameAll : ∀ (ss : List (Stmt Nat)) (c : Choice) {δ : Flags} {w w' : Walk}
    {Γ : Context}, w.At Γ → Γ.Settled → Everywhere Resolved Γ (.stmts (Stmt.mapAll g ss)) →
    Stmt.LacksAll ρ.new ss → ρ.Walks δ w w' → (δ.here = true → ρ.old ∉ Stmt.routinesAll ss) →
    ρ.Walks δ (Stmt.resolveAll ss w) (Stmt.resolveAll (Stmt.renameAll ρ g δ c ss) w')
  | [], _, _, _, _, _, _, _, _, _, h, _ => h
  | s :: ss, c, _, _, _, Γ, hat, hΓ, hr, hl, h, ho => by
    have hs := s.walks_rename (c.part 0) hat hΓ (hr.child (.head _)) hl.1 h
      fun hδ hm => ho hδ (List.mem_append_left _ hm)
    have hss := hr.child (.tail _ (.head _))
    rw [Context.after_map] at hss
    exact Stmt.walks_renameAll ss (c.part 1) (s.at_resolve hat hΓ) (hΓ.after s) hss hl.2
      hs fun hδ hm => ho hδ (List.mem_append_right _ hm)

theorem Method.walks_renameAll : ∀ (ms : List (Method Nat)) (c : Choice) {δ : Flags}
    {w w' : Walk} {Γ : Context}, w.At Γ →
    (∀ m ∈ Method.mapAll g ms, Everywhere Resolved (m.node Γ).1 (m.node Γ).2) →
    Method.LacksAll ρ.new ms → ρ.Walks δ w w' →
    ρ.Walks δ (Method.resolveAll ms w) (Method.resolveAll (Method.renameAll ρ g δ c ms) w')
  | [], _, _, _, _, _, _, _, _, h => h
  | .mk name params body :: ms, c, _, _, _, _, hat, hr, hl, h =>
    Method.walks_renameAll ms (c.part 1) (Method.at_resolveAll [.mk name params body] hat)
      (fun m hm => hr m (.tail _ hm)) hl.2.2
      ((Stmt.walks_renameAll body (c.part 0) (hat.enterBody (.ofMethod name) params)
        (.ofParams _ params _) (hr _ (.head _)) hl.2.1
        (h.enterBody (ρ.picks (c.part 0) body) (.ofMethod name) hl.1)
        Renaming.not_mem_routines).leaveBody h.body)

end

end

/-- **A renamed program is accepted with the same bindings.** -/
theorem Stmt.bindings_rename (ρ : Renaming) (c : Choice) {σ : Type} {p : List (Stmt σ)} {n : Nat}
    {b : Bindings} (hb : Stmt.bindings (Stmt.labelAll p n).1 = .ok b)
    (hnew : Stmt.LacksAll ρ.new p) :
    Stmt.bindings (Stmt.renameAll ρ b.distance? [] c (Stmt.labelAll p n).1) = .ok b := by
  have hresolved := (Line.resolved_of_bindings ⟨p, none⟩ n hb).1
  have hwalks := Stmt.walks_renameAll (Stmt.labelAll p n).1 c Walk.At.start .nil hresolved
    (Stmt.lacksAll_label p n hnew) (.start ρ) fun h => nomatch h
  have herrors := Stmt.exists_bindings_iff.1 ⟨b, hb⟩
  unfold Stmt.bindings Walk.finish at hb ⊢
  rw [herrors] at hb
  rw [hwalks.errors.2 herrors, hwalks.bindings]
  exact hb

end LoxLang
