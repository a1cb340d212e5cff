import LoxLang.Proofs.Diagnostics.Grammar
import LoxLang.Proofs.Diagnostics.Scope
import LoxLang.Proofs.Token.Lines
import LoxLang.Proofs.Token.Spacing

/-!
# The order of diagnostics

The diagnostics of a rejected source are grouped by their kind. Within one kind they are meant to
come in the order of their lines, and lexical errors do. The others are reported in the order in
which their faults are noticed, and this is not always the order of lines: the error about the
target of an assignment comes behind those in the value, the value that a property is set to is
resolved before the object, and the body of a `for` loop before its step. These are the only reasons
why a line can be smaller than the one before it (`rejected_in_order`).
-/

namespace LoxLang

/-- Two diagnostics of one kind. -/
def Diagnostic.Alike : Diagnostic → Diagnostic → Prop
  | .lexical .., .lexical .. | .grammar .., .grammar .. | .scope .., .scope .. => True
  | _, _ => False

/-- Within each kind the lines do not decrease. -/
def Diagnostic.InLineOrder (ds : List Diagnostic) : Prop :=
  ds.Pairwise fun a b => a.Alike b → ∀ i ∈ a.line?, ∀ j ∈ b.line?, i ≤ j

/-! ## Lines of a source -/

/-- The lexical errors of a source are in the order of their lines. -/
theorem LexicalError.pairwise_scan (source : String) :
    (LexicalError.scan source).Pairwise (·.line ≤ ·.line) := by
  refine List.Pairwise.filterMap _ ?_ (Piece.pairwise_items 1 (Piece.cut source.toList)).1
  rintro (_ | e) (_ | e') h _ ⟨⟩ _ ⟨⟩
  exact h

/-- The tokens of a source are in the order of their lines. -/
theorem Token.pairwise_scan (source : String) :
    (Token.scan source).Pairwise (·.line ≤ ·.line) := by
  refine List.Pairwise.filterMap _ ?_ (Piece.pairwise_items 1 (Piece.cut source.toList)).1
  rintro (t | _) (t' | _) h _ ⟨⟩ _ ⟨⟩
  exact h

/-- A source has an end mark, so reading puts none behind its tokens. -/
theorem Token.throughEnd_scan_sublist (source : String) :
    (Cursor.throughEnd (Token.scan source)).Sublist (Token.scan source) := by
  obtain ⟨ts, line, hscan⟩ := Token.exists_scan_eq_append source
  have hwith : Cursor.withEnd (Token.scan source) = Token.scan source := by
    rw [Cursor.withEnd, if_pos]
    rw [hscan, List.getLast?_concat]
    rfl
  rw [Cursor.throughEnd, hwith]
  exact List.take_sublist _ _

/-! ## Grammar and scope -/

/-- The grammar errors of a source are in order. -/
theorem Style.pairwise_of_read {style : Style} {source : String} {es : List GrammarError}
    (h : style.read (Token.scan source) = .error es) : es.Pairwise GrammarError.Precedes := by
  have htokens := (Token.pairwise_scan source).sublist (Token.throughEnd_scan_sublist source)
  cases style with
  | program =>
    refine Reading.pairwise_of_run (fun n => Reading.program_keepsOrder n) htokens ?_
    unfold Style.read Stmt.readAll at h
    rcases hread : Reading.run Reading.program (Token.scan source) with es' | ss <;>
      rw [hread] at h <;> cases h
    rfl
  | interactive => exact Reading.pairwise_of_run (fun n => Reading.line_keepsOrder n) htokens h

/-- Resolving a line reports violations in the order of lines if and only if all its nodes are
straight. -/
theorem Line.Laid.pairwise_iff {line : Line Unit} {ts : List Token} (h : line.Laid ts)
    (hts : ts.Pairwise (·.line ≤ ·.line)) (n : Nat) {es : List ScopeError}
    (hes : (line.label n).1.bindings = .error es) :
    es.Pairwise (·.token.line ≤ ·.token.line) ↔ (line.label n).1.Everywhere Node.Straight := by
  obtain ⟨ss, trailing⟩ := line
  obtain ⟨u, v, rfl, hss, htrailing⟩ := h
  have hlo : ∀ t ∈ u ++ v, 0 ≤ t.line := fun t _ => Nat.zero_le t.line
  obtain ⟨hi, hspan⟩ := Token.Span.exists_of_pairwise hts hlo
  obtain ⟨mid, hu, hv⟩ := Token.span_append.1 hspan
  have hstatements := (hss.told hu n Walk.At.start .nil).1
  have htells : Walk.Tells .start (((Line.mk ss trailing).label n).1.resolve .start) 0 hi
      (((Line.mk ss trailing).label n).1.Everywhere Node.Straight) := by
    cases trailing with
    | none =>
      refine (hstatements.widen (Nat.le_refl 0) hv.le).iff ⟨fun h => ⟨h, nofun⟩, fun h => h.1⟩
    | some e =>
      have hat : (Stmt.resolveAll (Stmt.labelAll ss n).1 .start).At [] := by
        have hat := Stmt.at_resolveAll (Stmt.labelAll ss n).1 Walk.At.start .nil
        rwa [Context.afterAll_nil] at hat
      have he := htrailing.told hv e rfl (Stmt.labelAll ss n).2 hat
      refine (hstatements.seq he).iff ⟨fun h => ⟨h.1, ?_⟩, fun h => ⟨h.1, h.2 _ rfl⟩⟩
      rintro _ ⟨⟩
      exact h.2
  obtain ⟨reported, herrors, -, hsorted, -⟩ := htells
  unfold Line.bindings Walk.finish at hes
  split at hes
  · cases hes
  · cases hes
    rw [herrors, ← hsorted]
    simp [Walk.start]

/-- **Diagnostics are in the order of lines, but for three reasons.** If a session rejects a source,
the lexical errors come first, then the grammar errors, then the violations of scope.

- The lines of lexical errors do not decrease.
- Where the lines of grammar errors decrease, the later error is about the target of an assignment.
- The lines of violations of scope do not decrease if and only if wherever resolving visits two
  parts against the order of the text, the violations of the part visited first are on no later
  line than those of the other. The two parts are the value and the object where a property is set,
  and the body of a loop and a step behind it. -/
theorem rejected_in_order {s : Session} {fuel : Nat} {style : Style} {source : String}
    {ds : List Diagnostic} (h : (s.step fuel style source).1.ending = .rejected ds) :
    ∃ (lexical : List LexicalError) (grammar : List GrammarError) (scope : List ScopeError),
      ds = lexical.map LexicalError.diagnostic ++ grammar.map GrammarError.diagnostic ++
        scope.map ScopeError.diagnostic ∧
      lexical.Pairwise (·.line ≤ ·.line) ∧
      grammar.Pairwise GrammarError.Precedes ∧
      (scope.Pairwise (·.token.line ≤ ·.token.line) ↔
        ∀ line next, style.readSource s.nextSite source = .ok (line, next) →
          line.Everywhere Node.Straight) := by
  have hlexical := LexicalError.pairwise_scan source
  have hread := Style.readSource_eq style s.nextSite source
  unfold Session.step at h
  cases hgrammar : style.read (Token.scan source) with
  | error es =>
    rw [hgrammar] at hread
    rw [hread] at h ⊢
    cases h
    exact ⟨_, es, [], by simp, hlexical, Style.pairwise_of_read hgrammar,
      iff_of_true .nil fun _ _ => nofun⟩
  | ok line =>
    rw [hgrammar] at hread
    by_cases hscan : LexicalError.scan source = []
    · replace hread := hread.trans (if_pos hscan)
      rw [hread] at h ⊢
      obtain ⟨w, hw, hlaid⟩ := Style.laid_of_read hgrammar
      have htokens := (Token.pairwise_scan source).sublist
        (hw.sublist.trans (List.takeWhile_sublist _))
      cases hbindings : (line.label s.nextSite).1.bindings with
      | error es =>
        simp only [hbindings] at h
        cases h
        refine ⟨[], [], es, by simp, .nil, .nil, ?_⟩
        rw [hlaid.pairwise_iff htokens s.nextSite hbindings]
        constructor
        · intro hstraight line' _ hline
          have hsame : (line.label s.nextSite).1 = line' := congrArg Prod.fst (Except.ok.inj hline)
          exact hsame ▸ hstraight
        · exact fun hall => hall _ _ rfl
      | ok b =>
        simp only [hbindings, Session.perform_eq] at h
        split at h <;> cases h
    · replace hread := hread.trans (if_neg hscan)
      rw [hread] at h ⊢
      cases h
      exact ⟨_, [], [], by simp, hlexical, .nil, iff_of_true .nil fun _ _ => nofun⟩

/-- A property of an object on the first line is set to a value on the second, and neither has a
class around it. The violation of the value comes first, so some node is not straight. -/
theorem value_before_object :
    let source := "super.a\n.b = this;"
    let s : Session := .start (fun _ => 0) none
    let this : ScopeError := ⟨⟨.kwThis, "this", 2⟩, .thisOutsideClass⟩
    let super : ScopeError := ⟨⟨.kwSuper, "super", 1⟩, .superOutsideClass⟩
    (s.step 0 .program source).1.ending = .rejected [this.diagnostic, super.diagnostic] ∧
      ¬ ∀ line next, Style.program.readSource s.nextSite source = .ok (line, next) →
        line.Everywhere Node.Straight := by
  intro source s this super
  have hrejected : (s.step 0 .program source).1.ending =
      .rejected [this.diagnostic, super.diagnostic] := by cbv
  refine ⟨hrejected, fun hstraight => ?_⟩
  obtain ⟨lexical, grammar, scope, hds, -, -, hscope⟩ := rejected_in_order hrejected
  have hlines : (scope.map ScopeError.diagnostic).Pairwise
      fun a b => ∀ i ∈ a.line?, ∀ j ∈ b.line?, i ≤ j := by
    refine (hscope.2 hstraight).map _ ?_
    rintro a b hab _ ⟨⟩ _ ⟨⟩
    exact hab
  cases lexical with
  | cons e _ => cases (List.cons.inj hds).1
  | nil =>
    cases grammar with
    | cons e _ => cases (List.cons.inj hds).1
    | nil =>
      replace hds : _ = scope.map ScopeError.diagnostic := hds
      rw [← hds] at hlines
      have hle := (List.pairwise_cons.1 hlines).1 _ List.mem_cons_self 2 rfl 1 rfl
      exact absurd hle (by decide)

/-- Within violations of scope a line can be smaller than the one before it. -/
theorem not_all_in_line_order : ¬ ∀ (s : Session) (fuel : Nat) (style : Style) (source : String)
    (ds : List Diagnostic), (s.step fuel style source).1.ending = .rejected ds →
      Diagnostic.InLineOrder ds := by
  intro h
  let source := "super.a\n.b = this;"
  have hrejected : ((Session.start (fun _ => 0) none).step 0 .program source).1.ending =
      .rejected [.scope ⟨.kwThis, "this", 2⟩ ScopeCause.thisOutsideClass.message,
        .scope ⟨.kwSuper, "super", 1⟩ ScopeCause.superOutsideClass.message] := by cbv
  have horder := h _ _ _ _ _ hrejected
  have hlines := (List.pairwise_cons.1 horder).1 _ List.mem_cons_self trivial 2 rfl 1 rfl
  exact absurd hlines (by decide)

end LoxLang
