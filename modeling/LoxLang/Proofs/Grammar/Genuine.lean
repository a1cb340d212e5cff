import LoxLang.Proofs.Grammar.Layout
import LoxLang.Proofs.Safety.Accepted
import LoxLang.Proofs.Token.Spacing

/-!
# Trees of genuine tokens

The tokens of a source have texts that spell their kinds (`Token.genuine_of_mem_scan`), and what is
read from them has names, operators and numbers that such tokens stand for
(`Line.ReadFrom.genuine`). The proof goes by what holds of each expression that is laid in some
tokens: it holds of all expressions in a tree that is laid in them (`Laid.everywhere`).
-/

namespace LoxLang

variable {σ τ : Type}

/-! ## Properties of expressions -/

/-- The property of an expression; all else has it. -/
def Node.OnExpr (Q : Expr σ → Prop) : Node σ → Prop
  | .expr e => Q e
  | _ => True

/-- All expressions in a tree have the property, wherever the tree stands. -/
def Node.AllExpr (Q : Expr σ → Prop) (node : Node σ) : Prop :=
  ∀ Γ, Node.Everywhere (fun _ => Node.OnExpr Q) Γ node

/-- All expressions in a phrase have the property. -/
def Phrase.AllExpr (Q : Expr Unit → Prop) : Phrase → Prop
  | .expr e => (Node.expr e).AllExpr Q
  | .optional o => ∀ e ∈ o, (Node.expr e).AllExpr Q
  | .args es => ∀ e ∈ es, (Node.expr e).AllExpr Q
  | .params _ => True
  | .routine _ body => (Node.stmts body).AllExpr Q
  | .stmt s => (Node.stmt s).AllExpr Q
  | .start o => ∀ s ∈ o, (Node.stmt s).AllExpr Q
  | .stmts ss => (Node.stmts ss).AllExpr Q
  | .methods ms => ∀ m ∈ ms, ∀ Γ, (m.node Γ).2.AllExpr Q

namespace Node.AllExpr

variable {Q : Expr σ → Prop}

theorem nil : (Node.stmts []).AllExpr Q := fun _ => .leaf trivial rfl

theorem cons {s : Stmt σ} {ss : List (Stmt σ)} (hs : (Node.stmt s).AllExpr Q)
    (hss : (Node.stmts ss).AllExpr Q) : (Node.stmts (s :: ss)).AllExpr Q :=
  fun Γ => .two trivial rfl (hs Γ) (hss _)

theorem pair {s s' : Stmt σ} (hs : (Node.stmt s).AllExpr Q) (hs' : (Node.stmt s').AllExpr Q) :
    (Node.stmt (.block [s, s'])).AllExpr Q :=
  fun _ => .one trivial rfl (cons hs (cons hs' nil) _)

/-- A `for` loop has the expressions of its parts, and `true` where it has no condition. -/
theorem forLoop (htrue : Q (.literal .true)) {init : Option (Stmt σ)} {test step : Option (Expr σ)}
    {body : Stmt σ} (hinit : ∀ s ∈ init, (Node.stmt s).AllExpr Q)
    (htest : ∀ e ∈ test, (Node.expr e).AllExpr Q) (hstep : ∀ e ∈ step, (Node.expr e).AllExpr Q)
    (hbody : (Node.stmt body).AllExpr Q) :
    (Node.stmt (.forLoop init test step body)).AllExpr Q := by
  have htest' : (Node.expr (test.getD (.literal .true))).AllExpr Q := by
    cases test with
    | none => exact fun _ => .leaf htrue rfl
    | some e => exact htest e rfl
  have hwhole : (Node.stmt (.forLoop none test step body)).AllExpr Q := by
    cases step with
    | none => exact fun Γ => .two trivial rfl (htest' Γ) (hbody Γ)
    | some e =>
      have he : (Node.stmt (.expression e)).AllExpr Q := fun Γ => .one trivial rfl (hstep e rfl Γ)
      exact fun Γ => .two trivial rfl (htest' Γ) (pair hbody he Γ)
  cases init with
  | none => exact hwhole
  | some s => exact pair (hinit s rfl) hwhole

end Node.AllExpr

/-- **What holds of each expression that is laid in good tokens holds of all expressions in a
phrase that is laid in good tokens**, by induction on how the phrase is laid. -/
theorem Laid.everywhere {Q : Expr Unit → Prop} {good : Token → Prop} (htrue : Q (.literal .true))
    (hQ : ∀ e w, Laid (.expr e) w → (∀ t ∈ w, good t) → Q e) {p : Phrase} {w : List Token}
    (h : Laid p w) (hw : ∀ t ∈ w, good t) : p.AllExpr Q := by
  have hleaf : ∀ {e : Expr Unit} {w : List Token}, Laid (.expr e) w → (∀ t ∈ w, good t) →
      (∀ Γ, (Node.expr e).children Γ = []) → (Node.expr e).AllExpr Q :=
    fun h hw hc Γ => .leaf (hQ _ _ h hw) (hc Γ)
  induction h with
  | literal ht => exact hleaf (.literal ht) hw fun _ => rfl
  | ref ht => exact hleaf (.ref ht) hw fun _ => rfl
  | this ht => exact hleaf (.this ht) hw fun _ => rfl
  | super ht hdot hmethod => exact hleaf (.super ht hdot hmethod) hw fun _ => rfl
  | group hl he hr ih =>
    have he' := ih fun t ht => hw t (by simp [ht])
    exact fun Γ => .one (hQ _ _ (.group hl he hr) hw) rfl (he' Γ)
  | unary hop he ih =>
    have he' := ih fun t ht => hw t (by simp [ht])
    exact fun Γ => .one (hQ _ _ (.unary hop he) hw) rfl (he' Γ)
  | binary hop hlevel ha hb iha ihb =>
    have ha' := iha fun t ht => hw t (by simp [ht])
    have hb' := ihb fun t ht => hw t (by simp [ht])
    exact fun Γ => .two (hQ _ _ (.binary hop hlevel ha hb) hw) rfl (ha' Γ) (hb' Γ)
  | logical hop ha hb iha ihb =>
    have ha' := iha fun t ht => hw t (by simp [ht])
    have hb' := ihb fun t ht => hw t (by simp [ht])
    exact fun Γ => .two (hQ _ _ (.logical hop ha hb) hw) rfl (ha' Γ) (hb' Γ)
  | assign ht hequals he ih =>
    have he' := ih fun t ht => hw t (by simp [ht])
    exact fun Γ => .one (hQ _ _ (.assign ht hequals he) hw) rfl (he' Γ)
  | call hf hl hes hparen ihf ihes =>
    have hf' := ihf fun t ht => hw t (by simp [ht])
    have hes' := ihes fun t ht => hw t (by simp [ht])
    exact fun Γ => .intro (hQ _ _ (.call hf hl hes hparen) hw)
      (List.forall_mem_cons.2 ⟨hf' Γ, List.forall_mem_map.2 fun e he => hes' e he Γ⟩)
  | get he hdot hname ih =>
    have he' := ih fun t ht => hw t (by simp [ht])
    exact fun Γ => .one (hQ _ _ (.get he hdot hname) hw) rfl (he' Γ)
  | set ha hdot hname hequals hb iha ihb =>
    have ha' := iha fun t ht => hw t (by simp [ht])
    have hb' := ihb fun t ht => hw t (by simp [ht])
    exact fun Γ => .two (hQ _ _ (.set ha hdot hname hequals hb) hw) rfl (ha' Γ) (hb' Γ)
  | lambda ht hl hroutine ih =>
    have hbody := ih fun t ht => hw t (by simp [ht])
    exact fun Γ => .one (hQ _ _ (.lambda ht hl hroutine) hw) rfl (hbody _)
  | none => nofun
  | some he ih =>
    rintro _ ⟨⟩
    exact ih hw
  | noArgs => nofun
  | oneArg he ih => exact List.forall_mem_singleton.2 (ih hw)
  | moreArgs he hcomma hes ihe ihes =>
    have he' := ihe fun t ht => hw t (by simp [ht])
    exact List.forall_mem_cons.2 ⟨he', ihes fun t ht => hw t (by simp [ht])⟩
  | noParams | oneParam | moreParams => trivial
  | routine hparams hr hleft hbody hright _ ih => exact ih fun t ht => hw t (by simp [ht])
  | expression he hsemicolon ih =>
    have he' := ih fun t ht => hw t (by simp [ht])
    exact fun Γ => .one trivial rfl (he' Γ)
  | print ht he hsemicolon ih =>
    have he' := ih fun t ht => hw t (by simp [ht])
    exact fun Γ => .one trivial rfl (he' Γ)
  | var => exact fun Γ => .leaf trivial rfl
  | varInit ht hname hequals he hsemicolon ih =>
    have he' := ih fun t ht => hw t (by simp [ht])
    exact fun Γ => .one trivial rfl (he' _)
  | block hleft hbody hright ih =>
    have hbody' := ih fun t ht => hw t (by simp [ht])
    exact fun Γ => .one trivial rfl (hbody' _)
  | cond ht hl he hr hyes hdeclared ihe ihyes =>
    have he' := ihe fun t ht => hw t (by simp [ht])
    have hyes' := ihyes fun t ht => hw t (by simp [ht])
    exact fun Γ => .two trivial rfl (he' Γ) (hyes' Γ)
  | condElse ht hl he hr hyes hdeclared ht' hno hdeclared' ihe ihyes ihno =>
    have he' := ihe fun t ht => hw t (by simp [ht])
    have hyes' := ihyes fun t ht => hw t (by simp [ht])
    have hno' := ihno fun t ht => hw t (by simp [ht])
    exact fun Γ => .intro trivial (List.forall_mem_cons.2 ⟨he' Γ, List.forall_mem_cons.2
      ⟨hyes' Γ, List.forall_mem_singleton.2 (hno' _)⟩⟩)
  | loop ht hl he hr hbody hdeclared ihe ihbody =>
    have he' := ihe fun t ht => hw t (by simp [ht])
    have hbody' := ihbody fun t ht => hw t (by simp [ht])
    exact fun Γ => .two trivial rfl (he' Γ) (hbody' Γ)
  | noStart => nofun
  | start hs ih =>
    rintro _ ⟨⟩
    exact ih hw
  | forLoop ht hl hinit htest hsemicolon hstep hr hbody hdeclared ihinit ihtest ihstep ihbody =>
    exact .forLoop htrue (ihinit fun t ht => hw t (by simp [ht]))
      (ihtest fun t ht => hw t (by simp [ht])) (ihstep fun t ht => hw t (by simp [ht]))
      (ihbody fun t ht => hw t (by simp [ht]))
  | function ht hname hl hroutine ih =>
    have hbody := ih fun t ht => hw t (by simp [ht])
    exact fun Γ => .one trivial rfl (hbody _)
  | @ret _ _ value _ ht hvalue hsemicolon ih =>
    have hvalue' := ih fun t ht => hw t (by simp [ht])
    cases value with
    | none => exact fun Γ => .leaf trivial rfl
    | some e => exact fun Γ => .one trivial rfl (hvalue' e rfl Γ)
  | classDecl ht hname hleft hms hright ih =>
    have hms' := ih fun t ht => hw t (by simp [ht])
    exact fun Γ => .intro trivial (List.forall_mem_map.2 fun m hm => hms' m hm _ _)
  | @subclass _ _ _ s _ _ _ _ ht hname hless hs hleft hms hright ih =>
    have hms' := ih fun t ht => hw t (by simp [ht])
    have hs' := hleaf (.ref hs) (List.forall_mem_singleton.2 (hw s (by simp))) fun _ => rfl
    exact fun Γ => .intro trivial (List.forall_mem_cons.2 ⟨hs' _,
      List.forall_mem_map.2 fun m hm => hms' m hm _ _⟩)
  | nil => exact .nil
  | cons hs hss ihs ihss =>
    exact .cons (ihs fun t ht => hw t (by simp [ht])) (ihss fun t ht => hw t (by simp [ht]))
  | noMethods => nofun
  | method hname hl hroutine hms ihroutine ihms =>
    have hbody := ihroutine fun t ht => hw t (by simp [ht])
    exact List.forall_mem_cons.2 ⟨fun _ => hbody, ihms fun t ht => hw t (by simp [ht])⟩

/-- Marks do not matter for what holds of the expressions of a tree. -/
theorem Node.allExpr_map {Q : Expr σ → Prop} {Q' : Expr τ → Prop} {f : σ → τ}
    (hQ : ∀ e : Expr σ, Q' (e.map f) → Q e) {Γ : Context} {node : Node σ}
    (h : Node.Everywhere (fun _ => OnExpr Q') Γ (node.map f)) :
    Node.Everywhere (fun _ => OnExpr Q) Γ node := by
  generalize hnode : node.map f = node' at h
  induction h generalizing node with
  | intro hhere _ ih =>
    subst hnode
    refine .intro ?_ fun p hp => ?_
    · cases node with
      | expr e => exact hQ e hhere
      | stmt | stmts => trivial
    · refine ih (p.1, p.2.map f) ?_ rfl
      rw [Node.children_map]
      exact List.mem_map_of_mem hp

/-! ## Genuine tokens -/

/-- The text of the token spells its kind. -/
def Token.Genuine (t : Token) : Prop := t.kind.Spells t.lexeme.toList

/-- Only end marks are not spelled by a text. -/
theorem Piece.genuine_of_mem_items {source : List Char} (line : Nat) {t : Token}
    (h : .token t ∈ items line (cut source)) : t.kind = .eof ∨ t.Genuine := by
  have hitems : ∀ ps : List Piece, (∀ p ∈ ps, p ∈ cut source) → ∀ line,
      .token t ∈ items line ps → t.kind = .eof ∨ t.Genuine := by
    intro ps
    induction ps with
    | nil =>
      intro _ line h
      cases List.mem_singleton.1 h
      exact .inl rfl
    | cons p ps ih =>
      intro hps line h
      obtain ⟨hp, hps⟩ := List.forall_mem_cons.1 hps
      rcases List.mem_append.1 h with h | h
      · unfold item? at h
        split at h
        · next kind hshape =>
          cases List.mem_singleton.1 h
          refine .inr ?_
          rw [Token.Genuine, String.toList_ofList]
          exact spells_of_mem_cut hp hshape
        · cases h
        · cases List.mem_singleton.1 h
      · exact ih hps _ h
  exact hitems _ (fun _ hp => hp) line h

theorem Token.genuine_of_mem_scan {source : String} {t : Token} (h : t ∈ Token.scan source)
    (hend : t.isEnd = false) : t.Genuine := by
  obtain ⟨item, hitem, ht⟩ := List.mem_filterMap.1 h
  cases item with
  | error => cases ht
  | token t' =>
    cases ht
    exact (Piece.genuine_of_mem_items 1 hitem).resolve_left (by simpa [isEnd] using hend)

/-- The token of the kind is genuine. -/
def Token.IsGenuine (kind : Kind) (t : Token) : Prop := t.kind = kind ∧ t.Genuine

/-- The tokens an expression keeps, and its number if it is one, stand for genuine tokens. -/
def Expr.Genuine : Expr σ → Prop
  | .literal (.number value) => ∃ text, Kind.Spells (.number value) text
  | .unary op _ => (op.kind = .bang ∨ op.kind = .minus) ∧ op.Genuine
  | .binary op _ _ => (∃ level, op.kind.level? = some level ∧ 2 ≤ level) ∧ op.Genuine
  | .logical op _ _ => (op.kind = .kwOr ∨ op.kind = .kwAnd) ∧ op.Genuine
  | .ref s | .assign s _ => s.name.IsGenuine .identifier
  | .call _ paren _ => paren.IsGenuine .rightParen
  | .get _ name | .set _ name _ => name.IsGenuine .identifier
  | .this s => s.name.IsGenuine .kwThis
  | .super s method => s.name.IsGenuine .kwSuper ∧ method.IsGenuine .identifier
  | .literal _ | .group _ | .lambda _ _ => True

theorem Expr.genuine_map (f : σ → τ) (e : Expr σ) : (e.map f).Genuine ↔ e.Genuine := by
  cases e with
  | literal v => cases v <;> rfl
  | _ => rfl

/-- An expression that is laid in genuine tokens is genuine. -/
theorem Laid.genuine {e : Expr Unit} {w : List Token} (h : Laid (.expr e) w)
    (hw : ∀ t ∈ w, t.Genuine) : e.Genuine := by
  cases h with
  | @literal t v ht =>
    cases v with
    | number value =>
      have hspells := hw t (by simp)
      rw [Token.Genuine, ht] at hspells
      exact ⟨_, hspells⟩
    | _ => trivial
  | unary hop => exact ⟨hop, hw _ (by simp)⟩
  | binary hop hlevel => exact ⟨⟨_, hop, hlevel⟩, hw _ (by simp)⟩
  | logical hop => exact ⟨hop, hw _ (by simp)⟩
  | ref ht => exact ⟨ht, hw _ (by simp)⟩
  | assign ht => exact ⟨ht, hw _ (by simp)⟩
  | call _ _ _ hparen => exact ⟨hparen, hw _ (by simp)⟩
  | get _ _ hname => exact ⟨hname, hw _ (by simp)⟩
  | set _ _ hname => exact ⟨hname, hw _ (by simp)⟩
  | this ht => exact ⟨ht, hw _ (by simp)⟩
  | super ht _ hmethod => exact ⟨⟨ht, hw _ (by simp)⟩, hmethod, hw _ (by simp)⟩
  | group | lambda => trivial

/-- The tokens of a source in front of the end mark are genuine. -/
theorem Token.genuine_of_prefix {source : String} {w : List Token}
    (h : w <+: (Token.scan source).takeWhile (!·.isEnd)) : ∀ t ∈ w, t.Genuine := by
  intro t ht
  have hmem := h.subset ht
  have hend := List.mem_takeWhile_imp hmem
  exact genuine_of_mem_scan ((List.takeWhile_prefix _).subset hmem) (by simpa using hend)

/-- **What is read from a source stands for genuine tokens.** -/
theorem Line.ReadFrom.genuine {source : String} {line : Line σ} (h : line.ReadFrom source) :
    line.Everywhere fun _ => Node.OnExpr Expr.Genuine := by
  have hmap : ∀ node : Node σ,
      Node.Everywhere (fun _ => Node.OnExpr Expr.Genuine) [] (node.map fun _ => ()) →
      node.Everywhere (fun _ => Node.OnExpr Expr.Genuine) [] :=
    fun _ => Node.allExpr_map fun e => (e.genuine_map _).1
  rcases h with ⟨style, hread⟩ | ⟨e, rfl, hread⟩
  · obtain ⟨w, hprefix, u, v, rfl, hu, hv⟩ := Style.laid_of_read hread
    have hgenuine := Token.genuine_of_prefix hprefix
    have hss := hu.everywhere trivial (fun _ _ => Laid.genuine)
      fun t ht => hgenuine t (List.mem_append_left v ht)
    have htrailing := hv.everywhere trivial (fun _ _ => Laid.genuine)
      fun t ht => hgenuine t (List.mem_append_right u ht)
    refine ⟨hmap (.stmts _) (hss []), fun e he => hmap (.expr e) ?_⟩
    exact htrailing _ (congrArg (Option.map _) he) []
  · obtain ⟨c, hrun, hrest, hc⟩ := Expr.read_ok_iff.1 hread
    obtain ⟨w, hw, he⟩ := Reading.Sound.of_run (fun n => (Reading.laidOn n).assignment) hrun hc
    have hprefix : w <+: (Token.scan source).takeWhile (!·.isEnd) := ⟨_, hw.symm⟩
    have hgenuine := Token.genuine_of_prefix hprefix
    refine ⟨.leaf trivial rfl, ?_⟩
    rintro _ ⟨⟩
    exact hmap (.expr e) (he.everywhere trivial (fun _ _ => Laid.genuine) hgenuine [])

end LoxLang
