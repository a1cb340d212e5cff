import LoxLang.Proofs.Run.Session
import LoxLang.Proofs.Scope.Joining

/-!
# What a source comes to

A source comes to code or to the diagnostics that reject it, and which of them is a matter of its
text alone (`Style.code`). Numbers tell the sites of a session apart; the violations of scope and
the distances of the sites do not depend on them (`Line.bindings_label`). So a step of a session
rejects its source or runs the code it comes to, whatever has been numbered before
(`Session.step_of_code_eq_error`, `Session.step_of_code_eq_ok`).
-/

namespace LoxLang

variable {σ : Type}

/-! ## Numbers of sites -/

open Walk (Alike)

theorem Line.alike_resolve (line : Line σ) (n n' : Nat) :
    Alike id ((line.label n).1.resolve .start) ((line.label n').1.resolve .start) := by
  obtain ⟨ss, trailing⟩ := line
  have hss := Stmt.alike_resolveAll ss n n' (Alike.start id)
  rw [Stmt.relineAll_id] at hss
  cases trailing with
  | none => exact hss
  | some e =>
    have he := e.alike_resolve (Stmt.labelAll ss n).2 (Stmt.labelAll ss n').2 hss
    rw [Expr.reline_id] at he
    exact he

theorem Line.link_unique (line : Line σ) {n n' : Nat} {g g' : Nat → Option Nat}
    (h : ((line.label n).1.map g).Everywhere Node.Resolved)
    (h' : ((line.label n').1.map g').Everywhere Node.Resolved) :
    (line.label n').1.map g' = (line.label n).1.map g := by
  obtain ⟨ss, trailing⟩ := line
  have hss : Stmt.mapAll g' (Stmt.labelAll ss n').1 = Stmt.mapAll g (Stmt.labelAll ss n).1 := by
    have hstatements : ∀ (k : Nat) (g : Nat → Option Nat),
        (((Line.mk ss trailing).label k).1.map g).statements =
          Stmt.mapAll g (Stmt.labelAll ss k).1 := fun k g => by cases trailing <;> rfl
    have hfirst : Node.Everywhere Node.Resolved []
        (.stmts (Stmt.mapAll g (Stmt.labelAll ss n).1)) := hstatements n g ▸ h.1
    have hsecond : Node.Everywhere Node.Resolved []
        (.stmts (Stmt.mapAll g' (Stmt.labelAll (Stmt.relineAll id ss) n').1)) := by
      rw [Stmt.relineAll_id]
      exact hstatements n' g' ▸ h'.1
    have hunique := Stmt.linkAll_unique ss hfirst hsecond
    rwa [Stmt.relineAll_id, Stmt.relineAll_id] at hunique
  cases trailing with
  | none => exact congrArg (Line.mk · none) hss
  | some e =>
    have hsecond : Node.Everywhere Node.Resolved []
        (.expr (((e.reline id).label (Stmt.labelAll ss n').2).1.map g')) := by
      rw [Expr.reline_id]
      exact h'.2 _ rfl
    have hunique := e.link_unique (h.2 _ rfl) hsecond
    rw [Expr.reline_id, Expr.reline_id] at hunique
    exact congrArg₂ (fun ss e => Line.mk ss (some e)) hss hunique

/-- **Numbers do not matter to resolving.** A line has the same violations and its sites the same
distances whatever its first number. -/
theorem Line.bindings_label (line : Line σ) (n n' : Nat) :
    (∃ es, (line.label n).1.bindings = .error es ∧ (line.label n').1.bindings = .error es) ∨
      ∃ b b', (line.label n).1.bindings = .ok b ∧ (line.label n').1.bindings = .ok b' ∧
        (line.label n').1.link b' = (line.label n).1.link b := by
  have herrors : ((line.label n').1.resolve .start).errors =
      ((line.label n).1.resolve .start).errors :=
    (line.alike_resolve n n').errors.trans (List.map_id _)
  cases hb : (line.label n).1.bindings with
  | error es =>
    refine .inl ⟨es, rfl, ?_⟩
    unfold Line.bindings Walk.finish at hb ⊢
    rw [herrors]
    split at hb
    · cases hb
    · next he => rwa [if_neg he]
  | ok b =>
    obtain ⟨b', hb'⟩ : ∃ b', (line.label n').1.bindings = .ok b' := by
      unfold Line.bindings Walk.finish at hb ⊢
      rw [herrors]
      split at hb
      · next he => exact ⟨_, if_pos he⟩
      · cases hb
    exact .inr ⟨b, b', rfl, hb', line.link_unique (line.resolved_of_bindings n hb)
      (line.resolved_of_bindings n' hb')⟩

/-! ## Sources -/

namespace Style

/-- The code of a source, or the diagnostics that reject it. -/
def code (style : Style) (source : String) : Except (List Diagnostic) (Line (Option Nat)) :=
  match style.readSource 0 source with
  | .error ds => .error ds
  | .ok (line, _) =>
    match line.bindings with
    | .error es => .error (es.map ScopeError.diagnostic)
    | .ok bindings => .ok (line.link bindings)

/-- The source has no lexical, no grammatical and no scope error. -/
def Accepts (style : Style) (source : String) : Prop :=
  LexicalError.scan source = [] ∧ ∃ line, style.read (Token.scan source) = .ok line ∧
    ∃ b, (line.label 0).1.bindings = .ok b

variable {style : Style} {source : String}

/-- Reading a source depends on its tokens and its lexical errors. -/
theorem readSource_eq (style : Style) (n : Nat) (source : String) :
    style.readSource n source = match style.read (Token.scan source) with
      | .error es => .error ((LexicalError.scan source).map LexicalError.diagnostic ++
          es.map GrammarError.diagnostic)
      | .ok line => if LexicalError.scan source = [] then .ok (line.label n)
          else .error ((LexicalError.scan source).map LexicalError.diagnostic) := by
  change (match style.read (Token.scan source) with
    | .error es => Except.error ((LexicalError.scan source).map LexicalError.diagnostic ++
        es.map GrammarError.diagnostic)
    | .ok line =>
      if ((LexicalError.scan source).map LexicalError.diagnostic).isEmpty then .ok (line.label n)
      else .error ((LexicalError.scan source).map LexicalError.diagnostic)) = _
  cases style.read (Token.scan source) with
  | error es => rfl
  | ok line => simp only [List.isEmpty_iff, List.map_eq_nil_iff]

/-- A source is read into the same tree whatever the first number of its sites. -/
theorem readSource_cases (style : Style) (source : String) :
    (∃ ds, ∀ n, style.readSource n source = .error ds) ∨
      LexicalError.scan source = [] ∧ ∃ bare, style.read (Token.scan source) = .ok bare ∧
        ∀ n, style.readSource n source = .ok (bare.label n) := by
  simp only [readSource_eq]
  cases style.read (Token.scan source) with
  | error es => exact .inl ⟨_, fun _ => rfl⟩
  | ok bare =>
    by_cases hlexical : LexicalError.scan source = []
    · exact .inr ⟨hlexical, bare, rfl, fun _ => if_pos hlexical⟩
    · exact .inl ⟨_, fun _ => if_neg hlexical⟩

/-- The code is read from the tokens of the source, numbered, resolved and linked. -/
theorem code_eq_ok_iff {code : Line (Option Nat)} : style.code source = .ok code ↔
    LexicalError.scan source = [] ∧ ∃ line b, style.read (Token.scan source) = .ok line ∧
      (line.label 0).1.bindings = .ok b ∧ code = (line.label 0).1.link b := by
  unfold Style.code
  rcases readSource_cases style source with ⟨ds, hread⟩ | ⟨hlexical, line, hline, hread⟩
  · rw [hread]
    refine ⟨nofun, ?_⟩
    rintro ⟨hlexical, line, b, hline, -⟩
    have hok := hread 0
    rw [readSource_eq, hline] at hok
    cases (if_pos hlexical).symm.trans hok
  · rw [hread]
    change (match (line.label 0).1.bindings with
      | .error es => _
      | .ok b => Except.ok ((line.label 0).1.link b)) = _ ↔ _
    rw [hline]
    cases hb : (line.label 0).1.bindings with
    | error es =>
      refine ⟨nofun, ?_⟩
      rintro ⟨-, line', b, hl, hb', -⟩
      cases hl
      cases hb.symm.trans hb'
    | ok b =>
      constructor
      · intro h
        cases h
        exact ⟨hlexical, line, b, rfl, hb, rfl⟩
      · rintro ⟨-, line', b', hl, hb', rfl⟩
        cases hl
        cases hb.symm.trans hb'
        rfl

/-- A source without errors comes to code. -/
theorem accepts_iff : style.Accepts source ↔ ∃ code, style.code source = .ok code := by
  simp only [code_eq_ok_iff, Accepts]
  constructor
  · rintro ⟨hlexical, line, hline, b, hb⟩
    exact ⟨_, hlexical, line, b, hline, hb, rfl⟩
  · rintro ⟨_, hlexical, line, b, hline, hb, rfl⟩
    exact ⟨hlexical, line, hline, b, hb⟩

end Style

/-- The line is read from a source: as a program, as a line of a session or as a single expression.
Its sites may be marked in any way. -/
def Line.ReadFrom (source : String) (line : Line σ) : Prop :=
  (∃ style : Style, style.read (Token.scan source) = .ok (line.map fun _ => ())) ∨
    ∃ e, line = ⟨[], some e⟩ ∧ Expr.read (Token.scan source) = .ok (e.map fun _ => ())

namespace Session

variable {s : Session} {style : Style} {source : String}

/-- A rejected source prints nothing, and the machine does not change. -/
theorem step_of_code_eq_error (fuel : Nat) {ds : List Diagnostic}
    (h : style.code source = .error ds) :
    ∃ next, s.step fuel style source = (⟨.empty, .rejected ds⟩, ⟨s.machine, next⟩) := by
  unfold Style.code at h
  unfold step
  rcases Style.readSource_cases style source with ⟨ds', hread⟩ | ⟨-, line, -, hread⟩
  · rw [hread] at h ⊢
    cases h
    exact ⟨s.nextSite, rfl⟩
  · rw [hread] at h ⊢
    refine ⟨(line.label s.nextSite).2, ?_⟩
    rcases line.bindings_label 0 s.nextSite with ⟨es, he, he'⟩ | ⟨b, b', hb, -, -⟩
    · simp only [he] at h
      cases h
      simp only [he']
    · simp only [hb] at h
      cases h

/-- An accepted source runs its code. -/
theorem step_of_code_eq_ok (fuel : Nat) {code : Line (Option Nat)}
    (h : style.code source = .ok code) :
    ∃ next, s.step fuel style source = (Session.mk s.machine next).perform fuel code := by
  unfold Style.code at h
  unfold step
  rcases Style.readSource_cases style source with ⟨ds', hread⟩ | ⟨-, line, -, hread⟩
  · rw [hread] at h
    cases h
  · rw [hread] at h ⊢
    refine ⟨(line.label s.nextSite).2, ?_⟩
    rcases line.bindings_label 0 s.nextSite with ⟨es, he, -⟩ | ⟨b, b', hb, hb', hlink⟩
    · simp only [he] at h
      cases h
    · simp only [hb] at h
      cases h
      simp only [hb', hlink]

end Session

end LoxLang
