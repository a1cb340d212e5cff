import LoxLang.Proofs.Grammar.Acceptance
import LoxLang.Proofs.Run.Session
import LoxLang.Proofs.Scope.Resolution
import LoxLang.Proofs.Safety.Nesting

/-!
# Accepted code

A line of code is accepted if its sites bear the distances of the text and its names are spelled as
names (`Line.Accepted`). So is the code of every source without lexical, grammatical and scope
errors (`Style.accepted_of_code?`): the words of a source are keywords or else names, reading keeps
to that, and neither numbering the sites nor linking them changes how a tree is spelled.
-/

namespace LoxLang

/-- The sites of a line bear the distances of the text, and its names are spelled as names. -/
structure Line.Accepted (line : Line (Option Nat)) : Prop where
  resolved : line.Everywhere Node.Resolved
  spelled : line.Everywhere fun _ => Node.Spelled

namespace Line.Within

variable {line : Line (Option Nat)} {Γ : Context} {node : Node (Option Nat)}

theorem resolved (hw : line.Within Γ node) (h : line.Accepted) : Node.Resolved Γ node :=
  (h.resolved.within hw).here

theorem spelled (hw : line.Within Γ node) (h : line.Accepted) : node.Spelled :=
  (h.spelled.within hw).here

theorem proper (hw : line.Within Γ node) (h : line.Accepted) : Γ.Proper :=
  (hw.placed h.spelled).proper

/-- No initializer is being evaluated where a statement stands. -/
theorem settled (hw : line.Within Γ node) (h : line.Accepted) (hne : ∀ e, node ≠ .expr e) :
    Γ.Settled :=
  (hw.placed h.spelled).settled hne

end Line.Within

/-! ## Words -/

/-- Only words need to be spelled in some way. -/
theorem Token.Spelled.of_kind {kind : Kind}
    (h : kind ≠ .identifier ∧ kind ≠ .kwThis ∧ kind ≠ .kwSuper) (lexeme : String) (line : Nat) :
    Token.Spelled ⟨kind, lexeme, line⟩ :=
  ⟨fun he => absurd he h.1, fun he => absurd he h.2.1, fun he => absurd he h.2.2⟩

/-- A word has the kind of a keyword only if it reads like it. -/
theorem Kind.mem_keywords_of_ofWord {word : String} {kind : Kind} (h : Kind.ofWord word = kind)
    (hkind : kind ≠ .identifier) : (word, kind) ∈ Kind.keywords := by
  unfold Kind.ofWord at h
  cases hk : Kind.keywords.lookup word with
  | none =>
    rw [hk] at h
    exact absurd h.symm hkind
  | some k =>
    rw [hk] at h
    obtain ⟨l₁, l₂, hl, -⟩ := List.lookup_eq_some_iff.1 hk
    rw [hl, ← h]
    exact List.mem_append_right l₁ List.mem_cons_self

/-- A word is spelled as its kind says. -/
theorem Kind.spelled_ofWord (word : String) (line : Nat) :
    Token.Spelled ⟨Kind.ofWord word, word, line⟩ := by
  refine ⟨fun h => ⟨?_, ?_⟩, fun h => ?_, fun h => ?_⟩
  · rintro rfl
    cases h
  · rintro rfl
    cases h
  · have hmem := Kind.mem_keywords_of_ofWord h nofun
    simp only [Kind.keywords, List.mem_cons, Prod.mk.injEq, reduceCtorEq, and_false, and_true,
      false_or, or_false, List.not_mem_nil] at hmem
    exact hmem
  · have hmem := Kind.mem_keywords_of_ofWord h nofun
    simp only [Kind.keywords, List.mem_cons, Prod.mk.injEq, reduceCtorEq, and_false, and_true,
      false_or, or_false, List.not_mem_nil] at hmem
    exact hmem

/-- The token at the front of a source is spelled as its kind says. -/
theorem Piece.spelled_of_front {c : Char} {cs : List Char} {kind : Kind} {more : Nat}
    (h : Piece.front c cs = (.token kind, more)) (line : Nat) :
    Token.Spelled ⟨kind, String.ofList (c :: cs.take more), line⟩ := by
  have hsingle : ∀ {c : Char} {kind : Kind}, Piece.single? c = some kind →
      kind ≠ .identifier ∧ kind ≠ .kwThis ∧ kind ≠ .kwSuper := by
    intro c kind h
    unfold Piece.single? at h
    split at h <;> cases h <;> exact ⟨nofun, nofun, nofun⟩
  have hoperator : ∀ {c : Char} {alone withEqual : Kind},
      Piece.operator? c = some (alone, withEqual) →
      (alone ≠ .identifier ∧ alone ≠ .kwThis ∧ alone ≠ .kwSuper) ∧
        (withEqual ≠ .identifier ∧ withEqual ≠ .kwThis ∧ withEqual ≠ .kwSuper) := by
    intro c alone withEqual h
    unfold Piece.operator? at h
    split at h <;> cases h <;> exact ⟨⟨nofun, nofun, nofun⟩, nofun, nofun, nofun⟩
  unfold Piece.front at h
  split at h
  · cases h
  split at h
  · next k hk =>
    cases h
    exact .of_kind (hsingle hk) _ line
  split at h
  · next alone withEqual hk =>
    split at h <;> cases h
    · exact .of_kind (hoperator hk).2 _ line
    · exact .of_kind (hoperator hk).1 _ line
  split at h
  · split at h <;> cases h
    exact ⟨nofun, nofun, nofun⟩
  split at h
  · dsimp only at h
    split at h <;> cases h
    exact ⟨nofun, nofun, nofun⟩
  split at h
  · cases h
    exact ⟨nofun, nofun, nofun⟩
  split at h
  · cases h
    rw [← List.prefix_iff_eq_take.1 (List.takeWhile_prefix Piece.isWordPart)]
    exact Kind.spelled_ofWord _ line
  · cases h

/-- The tokens of consecutive pieces are spelled as their kinds say. -/
theorem Piece.allSpelled_items (source : List Char) (line : Nat) :
    AllSpelled ((Piece.items line (Piece.cut source)).filterMap Item.token?) := by
  fun_induction Piece.cut source generalizing line with
  | case1 =>
    exact List.forall_mem_singleton.2 (.of_kind (by simp) "" line)
  | case2 c cs shape more hfront ih =>
    unfold Piece.items
    rw [List.filterMap_append, allSpelled_append]
    refine ⟨?_, ih _⟩
    unfold Piece.item?
    cases shape with
    | token kind => exact List.forall_mem_singleton.2 (Piece.spelled_of_front hfront _)
    | blank | fault => exact allSpelled_nil

/-- The tokens of a source are spelled as their kinds say. -/
theorem Token.allSpelled_scan (source : String) : AllSpelled (Token.scan source) :=
  Piece.allSpelled_items source.toList 1

/-! ## Marks do not matter -/

variable {σ τ : Type}

mutual

/-- Numbering changes nothing but the marks. -/
theorem Expr.map_label (c : τ) : ∀ (e : Expr σ) (n : Nat),
    (e.label n).1.map (fun _ => c) = e.map fun _ => c
  | .literal _, _ | .ref _, _ | .this _, _ | .super _ _, _ => rfl
  | .group e, n => congrArg Expr.group (e.map_label c n)
  | .unary op e, n => congrArg (Expr.unary op) (e.map_label c n)
  | .binary op a b, n => congrArg₂ (Expr.binary op) (a.map_label c n) (b.map_label c _)
  | .logical op a b, n => congrArg₂ (Expr.logical op) (a.map_label c n) (b.map_label c _)
  | .assign _ e, n => congrArg (Expr.assign _) (e.map_label c (n + 1))
  | .call e paren args, n =>
    congrArg₂ (Expr.call · paren ·) (e.map_label c n) (Expr.mapAll_labelAll c args _)
  | .get e name, n => congrArg (Expr.get · name) (e.map_label c n)
  | .set e name v, n => congrArg₂ (Expr.set · name ·) (e.map_label c n) (v.map_label c _)
  | .lambda params body, n => congrArg (Expr.lambda params) (Stmt.mapAll_labelAll c body n)

theorem Expr.mapAll_labelAll (c : τ) : ∀ (es : List (Expr σ)) (n : Nat),
    Expr.mapAll (fun _ => c) (Expr.labelAll es n).1 = Expr.mapAll (fun _ => c) es
  | [], _ => rfl
  | e :: es, n => congrArg₂ List.cons (e.map_label c n) (Expr.mapAll_labelAll c es _)

theorem Stmt.map_label (c : τ) : ∀ (s : Stmt σ) (n : Nat),
    (s.label n).1.map (fun _ => c) = s.map fun _ => c
  | .expression e, n => congrArg Stmt.expression (e.map_label c n)
  | .print e, n => congrArg Stmt.print (e.map_label c n)
  | .var _ none, _ | .ret _ none, _ => rfl
  | .var name (some e), n => congrArg (Stmt.var name <| some ·) (e.map_label c n)
  | .block body, n => congrArg Stmt.block (Stmt.mapAll_labelAll c body n)
  | .cond e yes none, n => congrArg₂ (Stmt.cond · · none) (e.map_label c n) (yes.map_label c _)
  | .cond e yes (some no), n => by
    change Stmt.cond _ _ _ = Stmt.cond _ _ _
    rw [e.map_label c n, yes.map_label c _, no.map_label c _]
  | .loop e body, n => congrArg₂ Stmt.loop (e.map_label c n) (body.map_label c _)
  | .function name params body, n =>
    congrArg (Stmt.function name params) (Stmt.mapAll_labelAll c body n)
  | .ret keyword (some e), n => congrArg (Stmt.ret keyword <| some ·) (e.map_label c n)
  | .classDecl name none methods, n =>
    congrArg (Stmt.classDecl name none) (Method.mapAll_labelAll c methods n)
  | .classDecl name (some _) methods, n =>
    congrArg (Stmt.classDecl name _) (Method.mapAll_labelAll c methods (n + 1))

theorem Stmt.mapAll_labelAll (c : τ) : ∀ (ss : List (Stmt σ)) (n : Nat),
    Stmt.mapAll (fun _ => c) (Stmt.labelAll ss n).1 = Stmt.mapAll (fun _ => c) ss
  | [], _ => rfl
  | s :: ss, n => congrArg₂ List.cons (s.map_label c n) (Stmt.mapAll_labelAll c ss _)

theorem Method.mapAll_labelAll (c : τ) : ∀ (ms : List (Method σ)) (n : Nat),
    Method.mapAll (fun _ => c) (Method.labelAll ms n).1 = Method.mapAll (fun _ => c) ms
  | [], _ => rfl
  | .mk name params body :: ms, n =>
    congrArg₂ List.cons (congrArg (Method.mk name params) (Stmt.mapAll_labelAll c body n))
      (Method.mapAll_labelAll c ms _)

end

/-- The node with each mark replaced by its image. -/
def Node.map (f : σ → τ) : Node σ → Node τ
  | .expr e => .expr (e.map f)
  | .stmt s => .stmt (s.map f)
  | .stmts ss => .stmts (Stmt.mapAll f ss)

theorem Expr.mapAll_eq (f : σ → τ) (es : List (Expr σ)) :
    Expr.mapAll f es = es.map (Expr.map f) := by
  induction es with
  | nil => rfl
  | cons e es ih => exact congrArg (e.map f :: ·) ih

/-- A method with each mark replaced by its image. -/
def Method.map (f : σ → τ) : Method σ → Method τ
  | .mk name params body => .mk name params (Stmt.mapAll f body)

theorem Method.mapAll_eq (f : σ → τ) (ms : List (Method σ)) :
    Method.mapAll f ms = ms.map (Method.map f) := by
  induction ms with
  | nil => rfl
  | cons m ms ih =>
    cases m
    exact congrArg (Method.mk _ _ _ :: ·) ih

theorem Method.params_map (f : σ → τ) (m : Method σ) : (m.map f).params = m.params := by
  cases m
  rfl

/-- The body of a method stands where it stood. -/
theorem Method.node_map (f : σ → τ) (Γ : Context) (m : Method σ) :
    (m.map f).node Γ = ((m.node Γ).1, (m.node Γ).2.map f) := by
  cases m
  rfl

/-- The parts of a tree stand where they stood. -/
theorem Node.children_map (f : σ → τ) (Γ : Context) (node : Node σ) :
    (node.map f).children Γ = (node.children Γ).map fun p => (p.1, p.2.map f) := by
  cases node with
  | expr e =>
    cases e with
    | call callee paren args =>
      change (Γ, Node.expr _) :: (Expr.mapAll f args).map _ = _ :: ((args.map _).map _)
      rw [Expr.mapAll_eq, List.map_map, List.map_map]
      rfl
    | _ => rfl
  | stmt s =>
    cases s with
    | var name init => cases init <;> rfl
    | ret keyword value => cases value <;> rfl
    | cond test yes no =>
      cases no with
      | none => rfl
      | some no =>
        change [_, _, (Γ.after (yes.map f), _)] = _
        rw [Context.after_map]
        rfl
    | classDecl name superclass methods =>
      change (superclass.map (Site.map f)).toList.map _ ++ (Method.mapAll f methods).map _ = _
      rw [Method.mapAll_eq, List.map_map, Node.children, List.map_append, List.map_map,
        List.map_map]
      have hmethods : ∀ Γ, methods.map ((fun m : Method τ => m.node Γ) ∘ Method.map f) =
          methods.map ((fun p => (p.1, p.2.map f)) ∘ fun m : Method σ => m.node Γ) :=
        fun Γ => List.map_congr_left fun m _ => m.node_map f Γ
      cases superclass with
      | none => exact congrArg ([] ++ ·) (hmethods _)
      | some site => exact congrArg ([_] ++ ·) (hmethods _)
    | _ => rfl
  | stmts ss =>
    cases ss with
    | nil => rfl
    | cons s ss =>
      change [_, (Γ.after (s.map f), _)] = _
      rw [Context.after_map]
      rfl

/-- Marks do not matter for how a node is spelled. -/
theorem Node.spelled_map (f : σ → τ) (node : Node σ) : (node.map f).Spelled ↔ node.Spelled := by
  cases node with
  | expr e => cases e <;> rfl
  | stmt s =>
    cases s with
    | var name init => cases init <;> rfl
    | ret keyword value => cases value <;> rfl
    | cond test yes no =>
      have hyes := yes.declared_map f
      cases no with
      | none =>
        change (yes.map f).declared = [] ∧ (∀ s ∈ none, _) ↔ _ ∧ (∀ s ∈ none, _)
        rw [hyes]
        exact and_congr_right fun _ => ⟨nofun, nofun⟩
      | some no =>
        change (yes.map f).declared = [] ∧ (∀ s ∈ some (no.map f), s.declared = []) ↔
          yes.declared = [] ∧ ∀ s ∈ some no, s.declared = []
        rw [hyes]
        refine and_congr_right fun _ => ⟨fun h s hs => ?_, fun h s hs => ?_⟩
        · cases hs
          exact (no.declared_map f).symm.trans (h _ rfl)
        · cases hs
          exact (no.declared_map f).trans (h no rfl)
    | loop test body =>
      change (body.map f).declared = [] ↔ body.declared = []
      rw [Stmt.declared_map]
    | classDecl name superclass methods =>
      change name.IsName ∧ (∀ m ∈ Method.mapAll f methods, ∀ p ∈ m.params, p.IsName) ↔
        name.IsName ∧ ∀ m ∈ methods, ∀ p ∈ m.params, p.IsName
      rw [Method.mapAll_eq, List.forall_mem_map]
      simp only [Method.params_map]
    | _ => rfl
  | stmts ss => rfl

/-- Marks do not matter for how a tree is spelled. -/
theorem Node.everywhere_spelled_map (f : σ → τ) {Γ : Context} {node : Node σ} :
    Everywhere (fun _ => Spelled) Γ (node.map f) ↔ Everywhere (fun _ => Spelled) Γ node := by
  constructor
  · intro h
    generalize hnode : node.map f = node' at h
    induction h generalizing node with
    | intro hhere _ ih =>
      subst hnode
      refine .intro ((node.spelled_map f).1 hhere) fun p hp => ?_
      refine ih (p.1, p.2.map f) ?_ rfl
      rw [Node.children_map]
      exact List.mem_map_of_mem hp
  · intro h
    induction h with
    | @intro Γ node hhere _ ih =>
      refine .intro ((node.spelled_map f).2 hhere) fun p hp => ?_
      rw [Node.children_map] at hp
      obtain ⟨q, hq, rfl⟩ := List.mem_map.1 hp
      exact ih q hq

theorem Node.allSpelled_map (f : σ → τ) (node : Node σ) :
    (node.map f).AllSpelled ↔ node.AllSpelled :=
  forall_congr' fun _ => Node.everywhere_spelled_map f

/-- A tree that is numbered and linked is spelled as before. -/
theorem Expr.allSpelled_link {e : Expr σ} (h : (Node.expr e).AllSpelled) (n : Nat)
    (f : Nat → τ) : (Node.expr ((e.label n).1.map f)).AllSpelled := by
  refine (Node.allSpelled_map f (.expr (e.label n).1)).2 ?_
  refine (Node.allSpelled_map (fun _ => ()) (.expr (e.label n).1)).1 ?_
  change (Node.expr ((e.label n).1.map fun _ => ())).AllSpelled
  rw [Expr.map_label]
  exact (Node.allSpelled_map (fun _ => ()) (.expr e)).2 h

theorem Stmt.allSpelled_linkAll {ss : List (Stmt σ)} (h : (Node.stmts ss).AllSpelled) (n : Nat)
    (f : Nat → τ) : (Node.stmts (Stmt.mapAll f (Stmt.labelAll ss n).1)).AllSpelled := by
  refine (Node.allSpelled_map f (.stmts (Stmt.labelAll ss n).1)).2 ?_
  refine (Node.allSpelled_map (fun _ => ()) (.stmts (Stmt.labelAll ss n).1)).1 ?_
  change (Node.stmts (Stmt.mapAll (fun _ => ()) (Stmt.labelAll ss n).1)).AllSpelled
  rw [Stmt.mapAll_labelAll]
  exact (Node.allSpelled_map (fun _ => ()) (.stmts ss)).2 h

/-! ## Sources -/

/-- What is read from the tokens of a source is spelled as it should be. -/
theorem Style.allSpelled_of_read {style : Style} {tokens : List Token} (htokens : AllSpelled tokens)
    {line : Line Unit} (h : style.read tokens = .ok line) :
    (Node.stmts line.statements).AllSpelled ∧
      ∀ e ∈ line.trailing, (Node.expr e).AllSpelled := by
  have hspelled : AllSpelled (tokens.takeWhile (!·.isEnd)) :=
    fun t ht => htokens t ((List.takeWhile_prefix _).subset ht)
  cases style with
  | program =>
    unfold Style.read at h
    cases hread : Stmt.readAll tokens with
    | error es =>
      rw [hread] at h
      cases h
    | ok ss =>
      rw [hread] at h
      cases h
      obtain ⟨c, hrun, hc⟩ := Reading.run_ok_iff.1 hread
      obtain ⟨w, hw, -, hss⟩ := Reading.Sound.of_run Reading.program_sound hrun hc
      rw [hw, allSpelled_append] at hspelled
      exact ⟨hss hspelled.1, nofun⟩
  | interactive =>
    obtain ⟨c, hrun, hc⟩ := Reading.run_ok_iff.1 h
    obtain ⟨w, hw, hline⟩ := Reading.Sound.of_run Reading.line_sound hrun hc
    rw [hw, allSpelled_append] at hspelled
    exact hline hspelled.1

/-- **The code of a source is accepted.** -/
theorem Style.accepted_of_code? {style : Style} {next : Nat} {source : String}
    {code : Line (Option Nat)} (h : style.code? next source = some code) : code.Accepted := by
  obtain ⟨⟨ss, trailing⟩, b, hread, hb, rfl⟩ := Style.code?_eq_some h
  obtain ⟨hss, htrailing⟩ := Style.allSpelled_of_read (Token.allSpelled_scan source) hread
  refine ⟨Line.resolved_of_bindings _ next hb, ?_⟩
  cases trailing with
  | none => exact ⟨Stmt.allSpelled_linkAll hss next b.distance? [], nofun⟩
  | some e =>
    refine ⟨Stmt.allSpelled_linkAll hss next b.distance? [], ?_⟩
    rintro _ ⟨⟩
    exact Expr.allSpelled_link (htrailing e rfl) _ b.distance? []

end LoxLang
