import LoxLang.Proofs.Safety.Accepted
import LoxLang.Proofs.Scope.Meeting
import LoxLang.Proofs.Session.Sources
import Mathlib

/-!
# The discipline of a walk

Resolving a node from any state leaves the scopes and the kinds of body and class as they were, but
for the names that the node introduces (`Walk.Keeps`), and it records the distances of the scopes
that have the names when the walk comes to them (`Walk.Finds`). The one name that may be in an open
scope and yet be left out is `this` outside of classes; no state that comes up in resolving what is
read from a source has such a scope (`Walk.Reached.proper`).
-/

namespace LoxLang

open Walk (Declares Meets)

/-! ## States that a walk comes to -/

namespace Walk

/-- Outside of classes no open scope has `this`. -/
def Proper (w : Walk) : Prop := w.cls = .outside → ∀ t ∈ w.scopes, t.contains thisName = false

namespace Proper

variable {w w' : Walk} {names : List String}

theorem start : Walk.start.Proper := fun _ => nofun

theorem of_class (h : w.cls ≠ .outside) : w.Proper := fun hc => absurd hc h

theorem declares (h : w.Proper) (hd : Declares names w w') (hnames : thisName ∉ names) :
    w'.Proper := by
  intro hc
  have hscopes := h (hd.cls ▸ hc)
  rw [hd.scopes]
  cases hs : w.scopes with
  | nil =>
    have hlength := length_foldl_markReady names []
    rw [List.length_eq_zero_iff.1 hlength]
    nofun
  | cons t outer =>
    rw [hs] at hscopes
    obtain ⟨ht, houter⟩ := List.forall_mem_cons.1 hscopes
    obtain ⟨t', ht', hfind⟩ := find?_foldl_markReady names t outer
    rw [ht']
    refine List.forall_mem_cons.2 ⟨?_, houter⟩
    rwa [Table.contains, hfind, if_neg hnames]

/-- The initializer of a variable. -/
theorem declare (h : w.Proper) {name : Token} (hname : name.IsName) : (w.declare name).Proper := by
  intro hc
  have hscopes := h ((cls_declare w name).symm.trans hc)
  rw [scopes_declare]
  cases hs : w.scopes with
  | nil => nofun
  | cons t outer =>
    rw [hs] at hscopes
    obtain ⟨ht, houter⟩ := List.forall_mem_cons.1 hscopes
    refine List.forall_mem_cons.2 ⟨?_, houter⟩
    dsimp only
    split
    · exact ht
    · rwa [Table.contains, Table.find?_insert, if_neg hname.1]

theorem introduce (h : w.Proper) {name : Token} (hname : name.IsName) :
    (w.introduce name).Proper :=
  h.declares (.introduce w name) (by simpa using hname.1.symm)

theorem openScope (h : w.Proper) : w.openScope.Proper :=
  fun hc => List.forall_mem_cons.2 ⟨rfl, h hc⟩

theorem enterBody (h : w.Proper) (kind : BodyKind) {params : List Token}
    (hparams : ∀ p ∈ params, p.IsName) : (w.enterBody kind params).Proper := by
  have hopen : { w with body := kind }.openScope.Proper := h.openScope
  refine hopen.declares (.foldl_introduce params _) fun hthis => ?_
  obtain ⟨p, hp, hlexeme⟩ := List.mem_map.1 hthis
  exact (hparams p hp).1 hlexeme

theorem expr (h : w.Proper) (e : Expr Nat) : (e.resolve w).Proper :=
  h.declares (e.declares_resolve w) nofun

theorem stmt (h : w.Proper) {s : Stmt Nat} (hs : (Node.stmt s).Spelled) : (s.resolve w).Proper :=
  h.declares (s.declares_resolve w) fun hthis => (hs.declared _ hthis).1 rfl

end Proper

theorem cls_enterBody (w : Walk) (kind : BodyKind) (params : List Token) :
    (w.enterBody kind params).cls = w.cls :=
  (Declares.foldl_introduce params _).cls

/-- Inside a class is not outside of all classes. -/
theorem cls_enterClass_ne (w : Walk) (name : Token) (superclass : Option (Site Nat)) :
    (w.enterClass name superclass).cls ≠ .outside := by
  cases superclass with
  | none =>
    have hcls : (w.enterClass name none).cls = .base :=
      (cls_enter _ _ _).trans (cls_introduce { w with cls := .base } name)
    exact hcls ▸ nofun
  | some s =>
    have hcls : (w.enterClass name (some s)).cls = .derived := by
      rw [enterClass_some]
      exact (cls_enter _ _ _).trans ((cls_enter _ _ _).trans (cls_read _ s))
    exact hcls ▸ nofun

end Walk

theorem Expr.proper_visits {es : List (Expr Nat)} {w : Walk} (hw : w.Proper) :
    ∀ p ∈ Expr.visits es w, p.1.Proper := by
  induction es generalizing w with
  | nil => nofun
  | cons e es ih => exact List.forall_mem_cons.2 ⟨hw, ih (hw.expr e)⟩

theorem Method.proper_visits {ms : List (Method Nat)} {w : Walk} (hw : w.cls ≠ .outside) :
    ∀ p ∈ Method.visits ms w, p.1.Proper := by
  induction ms generalizing w with
  | nil => nofun
  | cons m ms ih =>
    have hnext := (Method.declares_resolveAll [m] w).cls
    obtain ⟨name, params, body⟩ := m
    refine List.forall_mem_cons.2 ⟨.of_class ?_, ih (hnext ▸ hw)⟩
    rwa [Walk.cls_enterBody]

/-- From a proper state a walk comes to the parts of a node in proper states. -/
theorem Node.proper_visits {w : Walk} (hw : w.Proper) {Γ : Context} {node : Node Nat}
    (hs : node.Everywhere (fun _ => Spelled) Γ) : ∀ p ∈ node.visits w, p.1.Proper := by
  have hone : ∀ {w : Walk} {node : Node Nat}, w.Proper → ∀ p ∈ [(w, node)], p.1.Proper :=
    fun h => List.forall_mem_singleton.2 h
  have htwo : ∀ {w w' : Walk} {node node' : Node Nat}, w.Proper → w'.Proper →
      ∀ p ∈ [(w, node), (w', node')], p.1.Proper :=
    fun h h' => List.forall_mem_cons.2 ⟨h, List.forall_mem_singleton.2 h'⟩
  cases node with
  | expr e =>
    cases e with
    | literal | ref | this | super => nofun
    | group | unary | get | assign => exact hone hw
    | binary op a b => exact htwo hw (hw.expr a)
    | logical op a b => exact htwo hw (hw.expr a)
    | set a name b => exact htwo hw (hw.expr b)
    | call f paren args => exact List.forall_mem_cons.2 ⟨hw, Expr.proper_visits (hw.expr f)⟩
    | lambda params body => exact hone (hw.enterBody _ hs.here)
  | stmt s =>
    cases s with
    | expression | print => exact hone hw
    | var name init =>
      cases init with
      | none => nofun
      | some e => exact hone (hw.declare hs.here)
    | block body => exact hone hw.openScope
    | cond test yes no =>
      cases no with
      | none => exact htwo hw (hw.expr test)
      | some no =>
        have hyes : (Node.stmt yes).Spelled := (hs.child (.tail _ (.head _))).here
        exact List.forall_mem_cons.2 ⟨hw, htwo (hw.expr test) ((hw.expr test).stmt hyes)⟩
    | loop test body => exact htwo hw (hw.expr test)
    | function name params body => exact hone ((hw.introduce hs.here.1).enterBody _ hs.here.2)
    | ret keyword value =>
      cases value with
      | none => nofun
      | some e => exact hone (hw.declares (.checkReturn w keyword true) nofun)
    | classDecl name superclass methods =>
      refine List.forall_mem_append.2 ⟨List.forall_mem_map.2 fun s _ => .of_class nofun, ?_⟩
      refine Method.proper_visits ?_
      exact w.cls_enterClass_ne name superclass
  | stmts ss =>
    cases ss with
    | nil => nofun
    | cons s ss => exact htwo hw (hw.stmt (hs.child (.head _)).here)

/-- Behind statements a walk is in a proper state if it was in front of them. -/
theorem Walk.Proper.stmts {w : Walk} (hw : w.Proper) {Γ : Context} {ss : List (Stmt Nat)}
    (hs : (Node.stmts ss).Everywhere (fun _ => Node.Spelled) Γ) :
    (Stmt.resolveAll ss w).Proper := by
  induction ss generalizing w Γ with
  | nil => exact hw
  | cons s ss ih => exact ih (hw.stmt (hs.child (.head _)).here) (hs.child (.tail _ (.head _)))

/-- What a walk comes to is directly below the node it starts at. -/
theorem Node.exists_child_of_visit {w w' : Walk} {node node' : Node Nat}
    (h : (w', node') ∈ node.visits w) (Γ : Context) : ∃ Γ', (Γ', node') ∈ node.children Γ := by
  have hmem := (node.visits_perm w Γ).mem_iff.1 (List.mem_map_of_mem h)
  obtain ⟨⟨Γ', _⟩, hchild, rfl⟩ := List.mem_map.1 hmem
  exact ⟨Γ', hchild⟩

namespace Walk.Meets

variable {w w' : Walk} {node node' : Node Nat} {Γ : Context}

/-- The nodes that a walk meets are spelled as the tree is. -/
theorem spelled (h : Meets w node w' node') (hs : node.Everywhere (fun _ => Node.Spelled) Γ) :
    ∃ Γ', node'.Everywhere (fun _ => Node.Spelled) Γ' := by
  induction h generalizing Γ with
  | here => exact ⟨Γ, hs⟩
  | part hvisit _ ih =>
    obtain ⟨Γ', hchild⟩ := Node.exists_child_of_visit hvisit Γ
    exact ih (hs.child hchild)

/-- From a proper state a walk comes to all nodes in proper states. -/
theorem proper (h : Meets w node w' node') (hw : w.Proper)
    (hs : node.Everywhere (fun _ => Node.Spelled) Γ) : w'.Proper := by
  induction h generalizing Γ with
  | here => exact hw
  | part hvisit _ ih =>
    obtain ⟨Γ', hchild⟩ := Node.exists_child_of_visit hvisit Γ
    exact ih (Node.proper_visits hw hs _ hvisit) (hs.child hchild)

end Walk.Meets

/-- What is read from a source is spelled as it should be. -/
theorem Line.ReadFrom.spelled {σ : Type} {source : String} {line : Line σ}
    (h : line.ReadFrom source) : line.Everywhere fun _ => Node.Spelled := by
  have hmap : ∀ node : Node σ, (node.map fun _ => ()).AllSpelled →
      node.Everywhere (fun _ => Node.Spelled) [] :=
    fun _ h => (Node.allSpelled_map _ _).1 h []
  rcases h with ⟨style, hread⟩ | ⟨e, rfl, hread⟩
  · obtain ⟨hss, htrailing⟩ := Style.allSpelled_of_read (Token.allSpelled_scan source) hread
    refine ⟨hmap (.stmts _) hss, fun e he => hmap (.expr e) (htrailing _ ?_)⟩
    exact congrArg (Option.map _) he
  · obtain ⟨c, hrun, hrest, hc⟩ := Expr.read_ok_iff.1 hread
    obtain ⟨u, hu, -, he⟩ :=
      Reading.Sound.of_run (fun n => (Reading.soundOn n).assignment) hrun hc
    rw [hrest, List.append_nil] at hu
    refine ⟨.leaf trivial rfl, ?_⟩
    rintro _ ⟨⟩
    refine hmap (.expr e) (he ?_)
    rw [← hu]
    exact fun t ht => Token.allSpelled_scan source t ((List.takeWhile_prefix _).subset ht)

namespace Walk

/-- A state in which the walk through a line that is read from some source comes to a node. -/
def Reached (w : Walk) : Prop :=
  ∃ (source : String) (line : Line Nat) (node : Node Nat), line.ReadFrom source ∧
    line.Meets w node

theorem Reached.proper {w : Walk} (h : w.Reached) : w.Proper := by
  obtain ⟨source, line, node, hread, hmeets⟩ := h
  obtain ⟨hss, htrailing⟩ := hread.spelled
  rcases hmeets with hmeets | ⟨e, he, hmeets⟩
  · exact hmeets.proper .start hss
  · exact hmeets.proper (.stmts .start hss) (htrailing e he)

/-- The scope at a distance has the name, and no scope in front of it has. -/
structure Finds (w : Walk) (name : String) (d : Nat) : Prop where
  lt : d < w.scopes.length
  here : ∃ t, w.scopes[d]? = some t ∧ t.contains name = true
  before : ∀ i < d, ∀ t, w.scopes[i]? = some t → t.contains name = false

theorem finds_of_distance? {w : Walk} {name : String} {d : Nat} (h : w.distance? name = some d) :
    w.Finds name d := by
  obtain ⟨hlt, hhere, hbefore⟩ := List.findIdx?_eq_some_iff_getElem.1 h
  refine ⟨hlt, ⟨_, List.getElem?_eq_getElem hlt, hhere⟩, fun i hi t ht => ?_⟩
  obtain ⟨hi', rfl⟩ := List.getElem?_eq_some_iff.1 ht
  exact Bool.eq_false_iff.2 (hbefore i hi)

theorem forall_of_distance? {w : Walk} {name : String} (h : w.distance? name = none) :
    ∀ t ∈ w.scopes, t.contains name = false :=
  List.findIdx?_eq_none_iff.1 h

/-- The state of a walk behind a node, given the names that the node introduces: they are ready in
the innermost scope, and all else is as it was. -/
structure Keeps (w : Walk) (names : List String) (w' : Walk) : Prop where
  length : w'.scopes.length = w.scopes.length
  outer : w'.scopes.tail = w.scopes.tail
  innermost : ∀ t ∈ w.scopes.head?, ∀ t' ∈ w'.scopes.head?, ∀ x,
    t'.find? x = if x ∈ names then some true else t.find? x
  unchanged : names = [] → w'.scopes = w.scopes
  body : w'.body = w.body
  cls : w'.cls = w.cls

theorem Declares.keeps {names : List String} {w w' : Walk} (h : Declares names w w') :
    w.Keeps names w' := by
  refine ⟨?_, ?_, fun t ht t' ht' => ?_, ?_, h.body, h.cls⟩
  · rw [h.scopes, length_foldl_markReady]
  · rw [h.scopes, tail_foldl_markReady]
  · obtain ⟨outer, hscopes⟩ := List.head?_eq_some_iff.1 ht
    obtain ⟨t₁, ht₁, hfind⟩ := find?_foldl_markReady names t outer
    rw [h.scopes, hscopes, ht₁] at ht'
    cases ht'
    exact hfind
  · rintro rfl
    exact h.scopes

end Walk

/-- The name that a statement introduces itself, and not by one of its parts. -/
def Stmt.introduced {σ : Type} : Stmt σ → List String
  | .var name _ | .function name _ _ | .classDecl name _ _ => [name.lexeme]
  | _ => []

/-- The names that a node introduces in the scope it stands in. -/
def Node.introduced {σ : Type} : Node σ → List String
  | .expr _ => []
  | .stmt s => s.introduced
  | .stmts ss => ss.flatMap Stmt.introduced

/-- Branches that are no declarations declare nothing. -/
theorem Stmt.declared_eq_introduced {σ : Type} {s : Stmt σ} (h : (Node.stmt s).Spelled) :
    s.declared = s.introduced := by
  cases s with
  | cond test yes no => exact Stmt.declared_cond h.1 h.2
  | loop test body => exact h
  | _ => rfl

theorem Node.declared_eq_introduced {σ : Type} {Γ : Context} {node : Node σ}
    (h : node.Everywhere (fun _ => Spelled) Γ) : node.declared = node.introduced := by
  cases node with
  | expr e => rfl
  | stmt s => exact Stmt.declared_eq_introduced h.here
  | stmts ss =>
    induction ss generalizing Γ with
    | nil => rfl
    | cons s ss ih =>
      have hs := Stmt.declared_eq_introduced (h.child (.head _)).here
      have hss := ih (h.child (.tail _ (.head _)))
      exact congrArg₂ (· ++ ·) hs hss

/-- What is recorded at a node is the distance of its name. -/
theorem Node.finds_of_bound? {w : Walk} {node : Node Nat} {k d : Nat}
    (h : node.bound? w = some (k, d)) :
    ∃ s, node.lookup? = some s ∧ s.mark = k ∧ w.Finds s.name.lexeme d := by
  have hsite : ∀ {s : Site Nat}, (w.distance? s.name.lexeme).map (s.mark, ·) = some (k, d) →
      s.mark = k ∧ w.Finds s.name.lexeme d := fun h => by
    obtain ⟨d', hd, hk⟩ := Option.map_eq_some_iff.1 h
    cases hk
    exact ⟨rfl, Walk.finds_of_distance? hd⟩
  unfold bound? at h
  split at h
  · exact ⟨_, rfl, hsite h⟩
  · exact ⟨_, rfl, hsite h⟩
  · exact ⟨_, rfl, hsite h⟩
  · split at h
    · cases h
    · exact ⟨_, rfl, hsite h⟩
  · cases h

/-- Where nothing is recorded at a site, no open scope has its name. -/
theorem Node.bound?_or {w : Walk} (hw : w.Proper) {node : Node Nat} (hs : node.Spelled)
    {s : Site Nat} (hsite : node.lookup? = some s) :
    (∃ d, node.bound? w = some (s.mark, d) ∧ w.Finds s.name.lexeme d) ∨
      ∀ t ∈ w.scopes, t.contains s.name.lexeme = false := by
  have hname : (∃ d, (w.distance? s.name.lexeme).map (s.mark, ·) = some (s.mark, d) ∧
      w.Finds s.name.lexeme d) ∨ ∀ t ∈ w.scopes, t.contains s.name.lexeme = false := by
    cases hd : w.distance? s.name.lexeme with
    | none => exact .inr (Walk.forall_of_distance? hd)
    | some d => exact .inl ⟨d, rfl, Walk.finds_of_distance? hd⟩
  unfold lookup? at hsite
  split at hsite
  · cases hsite
    exact hname
  · cases hsite
    exact hname
  · cases hsite
    by_cases hcls : w.cls = .outside
    · refine .inr ?_
      rw [show s.name.lexeme = thisName from hs]
      exact hw hcls
    · simp only [bound?, if_neg hcls]
      exact hname
  · cases hsite
    exact hname
  · cases hsite

/-- **Resolving keeps to the discipline of a stack.** Take any node of a line that is read from a
source, and resolve it from any state. The scopes are as many as before, and those but the innermost
are the same, as are the kinds of body and class. The innermost scope differs at most in the names
that the node introduces itself, which are ready; an expression introduces none. What is recorded at
a node below is the distance of the innermost scope that has its name when the walk comes to it. A
node of which nothing is recorded has its name in no scope then, if the walk starts in a state that
comes up in resolving. -/
theorem resolve_disciplined {source : String} {line : Line Nat} (hread : line.ReadFrom source)
    {Γ : Context} {node : Node Nat} (hnode : line.Within Γ node) (w : Walk) :
    w.Keeps node.introduced (node.resolve w) ∧
    ∃ new, (node.resolve w).bindings = new ++ w.bindings ∧
      (∀ k d, (k, d) ∈ new → ∃ w' node' s, Meets w node w' node' ∧ node'.lookup? = some s ∧
        s.mark = k ∧ w'.Finds s.name.lexeme d) ∧
      (w.Reached → ∀ w' node' s, Meets w node w' node' → node'.lookup? = some s →
        (∃ d, (s.mark, d) ∈ new ∧ w'.Finds s.name.lexeme d) ∨
          ∀ t ∈ w'.scopes, t.contains s.name.lexeme = false) := by
  have hspelled := hread.spelled.within hnode
  refine ⟨?_, ?_⟩
  · rw [← Node.declared_eq_introduced hspelled]
    exact (node.declares_resolve w).keeps
  · obtain ⟨new, hnew, hmem⟩ := node.records_resolve w
    refine ⟨new, hnew, fun k d hkd => ?_, fun hreached w' node' s hmeets hsite => ?_⟩
    · obtain ⟨w', node', hmeets, hentry⟩ := (hmem _).1 hkd
      obtain ⟨s, hsite, hmark, hfinds⟩ := Node.finds_of_bound? hentry
      exact ⟨w', node', s, hmeets, hsite, hmark, hfinds⟩
    · obtain ⟨Γ', hspelled'⟩ := hmeets.spelled hspelled
      have hproper := hmeets.proper hreached.proper hspelled
      refine (Node.bound?_or hproper hspelled'.here hsite).imp_left ?_
      exact fun ⟨d, hentry, hfinds⟩ => ⟨d, (hmem _).2 ⟨w', node', hmeets, hentry⟩, hfinds⟩

/-- A block declares a variable and reads it: its own scopes are closed behind it, and the variable
was in the innermost one. -/
theorem block_of_a_variable_disciplined :
    let name : Token := ⟨.identifier, "a", 1⟩
    let block : Stmt Nat := .block [.var name none, .expression (.ref ⟨7, name⟩)]
    Line.ReadFrom "{ var a; a; }" ⟨[block], none⟩ ∧ Walk.start.Keeps [] (block.resolve .start) ∧
      (block.resolve .start).bindings = [(7, 0)] ∧ Walk.start.Reached ∧
      ∃ w' node' s, Walk.Meets .start (.stmt block) w' node' ∧ node'.lookup? = some s ∧
        s.mark = 7 ∧ w'.Finds s.name.lexeme 0 := by
  intro name block
  have hread : Line.ReadFrom "{ var a; a; }" ⟨[block], none⟩ := .inl ⟨.program, by cbv⟩
  have hwithin : Line.Within ⟨[block], none⟩ [] (.stmt block) := .child .statements (.head _)
  obtain ⟨hkeeps, new, hnew, hmet, -⟩ := resolve_disciplined hread hwithin .start
  have hbindings : (block.resolve .start).bindings = [(7, 0)] := by cbv
  refine ⟨hread, hkeeps, hbindings, ⟨_, _, _, hread, .inl (.here _ _)⟩, hmet 7 0 ?_⟩
  have hentry : [(7, 0)] = new ++ [] := hbindings.symm.trans hnew
  rw [List.append_nil] at hentry
  exact hentry ▸ List.mem_singleton_self _

end LoxLang
