import LoxLang.Proofs.Grammar.Joining
import LoxLang.Proofs.Lines.Runs
import LoxLang.Proofs.Safety.Evaluation
import LoxLang.Proofs.Session.Sources
import LoxLang.Proofs.Token.Joining
import Mathlib

/-!
# Programs run together

Two programs in a row make one program: it comes to the code of the first and then the code of the
second, which stands on later lines (`Style.code_append`). No statement of the first ends the run,
since no `return` stands outside of functions (`Run.executeAll_proceeds`), so the run goes on with
the second on the machine the first has left. It prints what both print, ends as the second ends and
leaves a machine that later sources cannot tell from the one after two runs (`joined_runs_as_both`).
All of this is up to lines, which are forgotten by moving all code to line 0.
-/

namespace LoxLang

/-! ## The code of both -/

theorem Stmt.relineAll_append {σ : Type} (f : Nat → Nat) (ss ts : List (Stmt σ)) :
    relineAll f (ss ++ ts) = relineAll f ss ++ relineAll f ts := by
  induction ss with
  | nil => rfl
  | cons s ss ih => exact congrArg (s.reline f :: ·) ih

theorem Stmt.length_relineAll {σ : Type} (f : Nat → Nat) (ss : List (Stmt σ)) :
    (relineAll f ss).length = ss.length := by
  induction ss with
  | nil => rfl
  | cons s ss ih => exact congrArg Nat.succ ih

/-- A program that is read has no trailing expression. -/
theorem Style.read_program_eq_ok {tokens : List Token} {line : Line Unit}
    (h : Style.program.read tokens = .ok line) :
    ∃ ss, Stmt.readAll tokens = .ok ss ∧ line = ⟨ss, none⟩ := by
  unfold Style.read at h
  dsimp only at h
  cases hread : Stmt.readAll tokens with
  | error es => rw [hread] at h; cases h
  | ok ss => rw [hread] at h; cases h; exact ⟨ss, rfl, rfl⟩

/-- **Two programs in a row come to the code of both**, the second on later lines. -/
theorem Style.code_append {first second : String} (hclosed : ¬ EndsInComment first.toList)
    (hfirst : Style.program.Accepts first) (hsecond : Style.program.Accepts second) :
    ∃ (f : Nat → Nat) (ss ts : List Code),
      Style.program.code first = .ok ⟨ss, none⟩ ∧ Style.program.code second = .ok ⟨ts, none⟩ ∧
      Style.program.code (first ++ "\n" ++ second) = .ok ⟨ss ++ Stmt.relineAll f ts, none⟩ ∧
      Node.Everywhere Node.Resolved [] (.stmts ss) := by
  obtain ⟨hlexical, line, hline, b, hb⟩ := hfirst
  obtain ⟨hlexical', line', hline', c, hc⟩ := hsecond
  obtain ⟨ss, hss, rfl⟩ := read_program_eq_ok hline
  obtain ⟨ts, hts, rfl⟩ := read_program_eq_ok hline'
  obtain ⟨tokens, last, hnot, htokens, hscan⟩ := Token.scan_append hclosed hlexical
  obtain ⟨hjoined, herrors⟩ := hscan second
  let f : Nat → Nat := (· + last)
  rw [htokens] at hss
  have hread := Stmt.readAll_append f hnot (Token.scan_ne_nil second) hss hts
  rw [← hjoined] at hread
  obtain ⟨d, hd⟩ := Stmt.exists_bindings_append f 0 ⟨b, hb⟩ ⟨c, hc⟩
  have hlink := Stmt.link_append f hb hc hd
  refine ⟨f, Stmt.mapAll b.distance? (Stmt.labelAll ss 0).1,
    Stmt.mapAll c.distance? (Stmt.labelAll ts 0).1, ?_, ?_, ?_, ?_⟩
  · exact code_eq_ok_iff.2 ⟨hlexical, _, b, hline, hb, rfl⟩
  · exact code_eq_ok_iff.2 ⟨hlexical', _, c, hline', hc, rfl⟩
  · have hline : Style.program.read (Token.scan (first ++ "\n" ++ second)) =
        .ok ⟨ss ++ Stmt.relineAll f ts, none⟩ := congrArg (Except.map (Line.mk · none)) hread
    have herrors : LexicalError.scan (first ++ "\n" ++ second) = [] := by
      rw [herrors, hlexical']
      rfl
    exact code_eq_ok_iff.2 ⟨herrors, _, d, hline, hd, congrArg (Line.mk · none) hlink.symm⟩
  · exact (Line.resolved_of_bindings ⟨ss, none⟩ 0 hb).1

/-! ## The run of both -/

namespace Run

open Node (Everywhere Resolved)

/-- Statements outside of functions do not return, on the fuel `n`. -/
structure ProceedsOn (n : Nat) : Prop where
  execute : ∀ {Γ : Context} {s : Code} {m m' : Machine} {flow : Flow}, Γ.bodyKind = .topLevel →
    Everywhere Resolved Γ (.stmt s) → execute n s m = .ok flow m' → flow = .proceed
  executeAll : ∀ {Γ : Context} {ss : List Code} {m m' : Machine} {flow : Flow},
    Γ.bodyKind = .topLevel → Everywhere Resolved Γ (.stmts ss) →
    executeAll n ss m = .ok flow m' → flow = .proceed

theorem of_inFrame_ok {α : Type} {frame : Nat} {r : Run α} {m m' : Machine} {a : α}
    (h : inFrame frame r m = .ok a m') : ∃ m₁ m₂, r m₁ = .ok a m₂ := by
  unfold inFrame at h
  split at h
  · next hr => cases h; exact ⟨_, _, hr⟩
  · cases h

/-- What is done before a statement proceeds does not matter. -/
theorem eq_proceed_of_bind {α : Type} {r : Run α} {k : α → Run Flow} {m m' : Machine} {flow : Flow}
    (h : (r >>= k) m = .ok flow m')
    (hk : ∀ a m₁, k a m₁ = .ok flow m' → flow = .proceed) : flow = .proceed := by
  obtain ⟨a, m₁, -, h⟩ := of_bind_ok h
  exact hk a m₁ h

theorem eq_proceed_of_pure {m m' : Machine} {flow : Flow}
    (h : (pure .proceed : Run Flow) m = .ok flow m') : flow = .proceed := by
  cases h
  rfl

namespace ProceedsOn

variable {n : Nat} {Γ : Context} {m m' : Machine} {flow : Flow}

theorem executeAll_succ (ih : ProceedsOn n) {ss : List Code} (hΓ : Γ.bodyKind = .topLevel)
    (hss : Everywhere Resolved Γ (.stmts ss)) (h : Run.executeAll (n + 1) ss m = .ok flow m') :
    flow = .proceed := by
  cases ss with
  | nil => exact eq_proceed_of_pure h
  | cons s ss =>
    obtain ⟨first, m₁, hfirst, h⟩ := of_bind_ok h
    cases ih.execute hΓ (hss.child (.head _)) hfirst
    exact ih.executeAll ((Γ.bodyKind_after s).trans hΓ) (hss.child (.tail _ (.head _))) h

theorem execute_succ (ih : ProceedsOn n) {s : Code} (hΓ : Γ.bodyKind = .topLevel)
    (hs : Everywhere Resolved Γ (.stmt s)) (h : Run.execute (n + 1) s m = .ok flow m') :
    flow = .proceed := by
  cases s with
  | expression e => exact eq_proceed_of_bind h fun _ _ => eq_proceed_of_pure
  | print e =>
    exact eq_proceed_of_bind h fun _ _ h => eq_proceed_of_bind h fun _ _ => eq_proceed_of_pure
  | var name init =>
    cases init with
    | none => exact eq_proceed_of_bind h fun _ _ => eq_proceed_of_pure
    | some e =>
      exact eq_proceed_of_bind h fun _ _ h => eq_proceed_of_bind h fun _ _ => eq_proceed_of_pure
  | block body =>
    refine eq_proceed_of_bind h fun _ _ h => eq_proceed_of_bind h fun frame m₁ h => ?_
    obtain ⟨_, _, h⟩ := of_inFrame_ok h
    exact ih.executeAll (Γ := .block :: Γ) hΓ (hs.child (.head _)) h
  | cond test yes no =>
    refine eq_proceed_of_bind h fun v m₁ h => ?_
    cases no with
    | none =>
      dsimp only at h
      split at h
      · exact ih.execute hΓ (hs.child (.tail _ (.head _))) h
      · exact eq_proceed_of_pure h
    | some no =>
      dsimp only at h
      split at h
      · exact ih.execute hΓ (hs.child (.tail _ (.head _))) h
      · exact ih.execute ((Γ.bodyKind_after yes).trans hΓ)
          (hs.child (.tail _ (.tail _ (.head _)))) h
  | loop test body =>
    refine eq_proceed_of_bind h fun v m₁ h => ?_
    split at h
    · obtain ⟨first, m₂, hfirst, h⟩ := of_bind_ok h
      cases ih.execute hΓ (hs.child (.tail _ (.head _))) hfirst
      exact ih.execute hΓ hs h
    · exact eq_proceed_of_pure h
  | function name params body =>
    exact eq_proceed_of_bind h fun _ _ h => eq_proceed_of_bind h fun _ _ => eq_proceed_of_pure
  | ret keyword value => exact absurd hΓ hs.here
  | classDecl name superclass methods => exact eq_proceed_of_bind h fun _ _ => eq_proceed_of_pure

end ProceedsOn

/-- **Statements outside of functions do not return**, by induction on the fuel. -/
theorem proceedsOn (n : Nat) : ProceedsOn n := by
  induction n with
  | zero => exact ⟨fun _ _ h => (nomatch h), fun _ _ h => (nomatch h)⟩
  | succ n ih => exact ⟨ih.execute_succ, ih.executeAll_succ⟩

/-- Statements behind others run on the machine and the fuel these leave. -/
theorem executeAll_append {n : Nat} {ss : List Code} {m m' : Machine}
    (h : executeAll n ss m = .ok .proceed m') (ts : List Code) :
    ss.length < n ∧ executeAll n (ss ++ ts) m = executeAll (n - ss.length) ts m' := by
  induction ss generalizing n m with
  | nil =>
    cases n with
    | zero => cases h
    | succ n => cases h; exact ⟨n.succ_pos, rfl⟩
  | cons s ss ih =>
    cases n with
    | zero => cases h
    | succ n =>
      obtain ⟨flow, m₁, hs, h⟩ := of_bind_ok h
      cases flow with
      | returned v => cases h
      | proceed =>
        obtain ⟨hlength, happend⟩ := ih h
        refine ⟨Nat.succ_lt_succ hlength, ?_⟩
        rw [List.length_cons, Nat.add_sub_add_right, ← happend]
        exact bind_ok hs

/-- **A run of both programs is a run of the second behind one of the first**, up to lines: on the
machine the first leaves, and with what the first has printed in front. -/
theorem line_append (f : Nat → Nat) {ss ts : List Code} {m m₁ : Machine} {v : Option Value}
    {n₁ n₂ n : Nat} (hresolved : Everywhere Resolved [] (.stmts ss))
    (hfirst : line n₁ ⟨ss, none⟩ m = .ok v m₁)
    (hsecond : ∀ m', line n₂ ⟨ts, none⟩ m₁.unprinted ≠ .error .outOfFuel m') (hn : n₁ + n₂ ≤ n) :
    movedResult (fun _ => 0) .empty (Option.map (Value.reline fun _ => 0))
        (line n ⟨ss ++ Stmt.relineAll f ts, none⟩ m) =
      movedResult (fun _ => 0) m₁.printed (Option.map (Value.reline fun _ => 0))
        (line n₂ ⟨ts, none⟩ m₁.unprinted) := by
  obtain ⟨flow, m', hss, hend⟩ := of_bind_ok hfirst
  cases hend
  cases (proceedsOn n₁).executeAll rfl hresolved hss
  have hlength : ss.length < n₁ := (executeAll_append hss []).1
  -- the first on the fuel for both, with all lines forgotten
  have hmore : executeAll n (Stmt.relineAll (fun _ => 0) ss) (m.moved (fun _ => 0) .empty) =
      .ok .proceed (m₁.moved (fun _ => 0) .empty) := by
    have hle : n₁ ≤ n := by omega
    have hmoves := (movesOn False (fun _ => 0) .empty hle (False.elim ·)).executeAll ss m
    rw [hmoves (.inr fun _ h => nomatch hss.symm.trans h), hss]
    rfl
  have hboth := (executeAll_append hmore (Stmt.relineAll (fun _ => 0) ts)).2
  rw [Stmt.length_relineAll] at hboth
  have hexact := Moves.line True (fun _ => 0) .empty n.le_refl (fun _ => rfl)
    ⟨ss ++ Stmt.relineAll f ts, none⟩ m (.inl trivial)
  have hleft : n₂ ≤ n - ss.length := by omega
  have hrest := Moves.line False (fun _ => 0) m₁.printed hleft (False.elim ·) ⟨ts, none⟩
    m₁.unprinted (.inr hsecond)
  have hmachine : m₁.unprinted.moved (fun _ => 0) m₁.printed = m₁.moved (fun _ => 0) .empty := by
    rw [Machine.moved, Machine.moved, ByteArray.empty_append]
    exact congrArg (fun printed => { m₁.moved (fun _ => 0) .empty with printed })
      ByteArray.append_empty
  rw [hmachine] at hrest
  rw [← hexact, ← hrest]
  have hstart : executeAll n (Stmt.relineAll (fun _ => 0) (ss ++ Stmt.relineAll f ts))
      (m.moved (fun _ => 0) .empty) = executeAll (n - ss.length) (Stmt.relineAll (fun _ => 0) ts)
        (m₁.moved (fun _ => 0) .empty) := by
    rw [Stmt.relineAll_append, Stmt.relineAll_relineAll]
    exact hboth
  exact bind_congr hstart fun _ => pure none

end Run

/-! ## Outcomes and machines up to lines -/

/-- The ending with its fault on line 0. -/
def Ending.unplaced : Ending → Ending
  | .failed fault => .failed (fault.reline fun _ => 0)
  | e => e

/-- The outcome with its fault on line 0. -/
def Outcome.unplaced (o : Outcome) : Outcome := ⟨o.printed, o.ending.unplaced⟩

/-- The machines are the same up to the lines of their code and to what they have printed. -/
def Machine.Alike (m m' : Machine) : Prop :=
  m.unprinted.moved (fun _ => 0) .empty = m'.unprinted.moved (fun _ => 0) .empty

section

open Run (movedResult)

variable {before before' : ByteArray} {r r' : Run (Option Value)} {m m' : Machine}

theorem Outcome.ofResult_moved (before : ByteArray)
    (r : EStateM.Result Fault Machine (Option Value)) :
    ofResult (movedResult (fun _ => 0) before (Option.map (Value.reline fun _ => 0)) r) =
      ⟨before ++ (ofResult r).printed, (ofResult r).ending.unplaced⟩ := by
  cases r with
  | error e m => rfl
  | ok v m =>
    refine congrArg (fun v => Outcome.mk (before ++ m.printed) (.finished v)) ?_
    cases v with
    | none => rfl
    | some v => exact congrArg some (v.text_reline _)

/-- Runs that come to the same once all lines are 0 have the same outcome up to lines. -/
theorem Outcome.eq_of_movedResult_eq
    (h : movedResult (fun _ => 0) before (Option.map (Value.reline fun _ => 0)) (r m) =
      movedResult (fun _ => 0) before' (Option.map (Value.reline fun _ => 0)) (r' m')) :
    before ++ (ofResult (r m)).printed = before' ++ (ofResult (r' m')).printed ∧
      (ofResult (r m)).ending.unplaced = (ofResult (r' m')).ending.unplaced := by
  have h := congrArg ofResult h
  rw [ofResult_moved, ofResult_moved] at h
  exact ⟨congrArg printed h, congrArg ending h⟩

/-- Runs that come to the same once all lines are 0 leave machines that are the same up to lines. -/
theorem Machine.alike_of_movedResult_eq {α β : Type} {g : α → β} {r r' : Run α}
    (h : movedResult (fun _ => 0) before g (r m) = movedResult (fun _ => 0) before' g (r' m')) :
    (r.after m).Alike (r'.after m') := by
  unfold Run.after
  rcases hr : r m with ⟨a, m₁⟩ | ⟨e, m₁⟩ <;> rcases hr' : r' m' with ⟨a', m₂⟩ | ⟨e', m₂⟩ <;>
    rw [hr, hr'] at h
  · exact congrArg unprinted (EStateM.Result.ok.inj h).2
  · cases h
  · cases h
  · exact congrArg unprinted (EStateM.Result.error.inj h).2

end

namespace Session

/-- Runs from machines that are the same up to lines end the same, on machines that are. -/
theorem perform_alike {m m' : Machine} (hm : m.Alike m') (next next' fuel : Nat)
    (code : Line (Option Nat)) :
    ((mk m next).perform fuel code).1.unplaced = ((mk m' next').perform fuel code).1.unplaced ∧
      ((mk m next).perform fuel code).2.machine.Alike
        ((mk m' next').perform fuel code).2.machine := by
  have hmoves := Run.Moves.line True (fun _ => 0) .empty fuel.le_refl (fun _ => rfl) code
  have h := (hmoves m.unprinted (.inl trivial)).symm.trans
    ((congrArg _ hm).trans (hmoves m'.unprinted (.inl trivial)))
  rw [outcome_perform, outcome_perform, machine_perform, machine_perform]
  obtain ⟨hprinted, hending⟩ := Outcome.eq_of_movedResult_eq h
  rw [ByteArray.empty_append, ByteArray.empty_append] at hprinted
  exact ⟨congrArg₂ Outcome.mk hprinted hending, Machine.alike_of_movedResult_eq h⟩

/-- Later sources cannot tell machines that are the same up to lines. -/
theorem step_alike {m m' : Machine} (hm : m.Alike m') (next next' fuel : Nat) (style : Style)
    (source : String) :
    ((mk m next).step fuel style source).1.unplaced =
        ((mk m' next').step fuel style source).1.unplaced ∧
      ((mk m next).step fuel style source).2.machine.Alike
        ((mk m' next').step fuel style source).2.machine := by
  cases hcode : style.code source with
  | error ds =>
    obtain ⟨k, h⟩ := step_of_code_eq_error (s := mk m next) fuel hcode
    obtain ⟨k', h'⟩ := step_of_code_eq_error (s := mk m' next') fuel hcode
    rw [h, h']
    exact ⟨rfl, hm⟩
  | ok code =>
    obtain ⟨k, h⟩ := step_of_code_eq_ok (s := mk m next) fuel hcode
    obtain ⟨k', h'⟩ := step_of_code_eq_ok (s := mk m' next') fuel hcode
    rw [h, h']
    exact perform_alike hm k k' fuel code

theorem steps_alike {m m' : Machine} (hm : m.Alike m') (next next' fuel : Nat)
    (sources : List (Style × String)) :
    ((mk m next).steps fuel sources).1.map Outcome.unplaced =
      ((mk m' next').steps fuel sources).1.map Outcome.unplaced := by
  induction sources generalizing m m' next next' with
  | nil => rfl
  | cons source sources ih =>
    obtain ⟨style, source⟩ := source
    obtain ⟨houtcome, hm⟩ := step_alike hm next next' fuel style source
    rw [steps_cons, steps_cons]
    exact congrArg₂ List.cons houtcome (ih hm _ _)

end Session

/-- **One run equals two.** Let the first program be accepted and run to its end, and let it leave
no comment open; let the second be accepted, and its run behind that of the first come to an end.
Then both in one source are accepted. On the fuel for both they print what the two runs print, end
as the second run ends, and leave a session in which all later sources have the outcomes they have
after two runs, up to lines. -/
theorem joined_runs_as_both (s : Session) {first second : String} {n₁ n₂ n : Nat}
    (hclosed : ¬ EndsInComment first.toList) (hfirst : Style.program.Accepts first)
    (hsecond : Style.program.Accepts second)
    (hok : ¬ (s.step n₁ .program first).1.isFailed)
    (hends : ((s.step n₁ .program first).2.step n₂ .program second).1.ending ≠ .failed .outOfFuel)
    (hn : n₁ + n₂ ≤ n) :
    let one := s.step n₁ .program first
    let two := one.2.step n₂ .program second
    let joined := s.step n .program (first ++ "\n" ++ second)
    Style.program.Accepts (first ++ "\n" ++ second) ∧
      joined.1.printed = one.1.printed ++ two.1.printed ∧
      joined.1.ending.unplaced = two.1.ending.unplaced ∧
      ∀ fuel rest, (joined.2.steps fuel rest).1.map Outcome.unplaced =
        (two.2.steps fuel rest).1.map Outcome.unplaced := by
  obtain ⟨f, ss, ts, hss, hts, hboth, hresolved⟩ := Style.code_append hclosed hfirst hsecond
  refine ⟨Style.accepts_iff.2 ⟨_, hboth⟩, ?_⟩
  obtain ⟨k, hone⟩ := Session.step_of_code_eq_ok (s := s) n₁ hss
  obtain ⟨k', hjoined⟩ := Session.step_of_code_eq_ok (s := s) n hboth
  rw [hone, Session.outcome_perform] at hok
  cases hr : Run.line n₁ ⟨ss, none⟩ s.machine.unprinted with
  | error e m₁ => exact absurd (congrArg Outcome.isFailed (congrArg Outcome.ofResult hr)) hok
  | ok v m₁ =>
    have hfinished : s.step n₁ .program first =
        (⟨m₁.printed, .finished (v.map Value.text)⟩, ⟨m₁, k⟩) := by
      rw [hone, Session.perform_eq, hr]
    rw [hfinished] at hends ⊢
    obtain ⟨k'', htwo⟩ := Session.step_of_code_eq_ok (s := ⟨m₁, k⟩) n₂ hts
    rw [htwo, Session.outcome_perform] at hends
    have hmore : ∀ m', Run.line n₂ ⟨ts, none⟩ m₁.unprinted ≠ .error .outOfFuel m' := fun m' h =>
      hends (congrArg (fun r => (Outcome.ofResult r).ending) h)
    have hresult := Run.line_append f hresolved hr hmore hn
    obtain ⟨hprinted, hending⟩ := Outcome.eq_of_movedResult_eq hresult
    have halike := Machine.alike_of_movedResult_eq hresult
    rw [ByteArray.empty_append] at hprinted
    rw [hjoined, htwo]
    refine ⟨?_, ?_, fun fuel rest => Session.steps_alike ?_ _ _ fuel rest⟩
    · rw [Session.outcome_perform, Session.outcome_perform]
      exact hprinted
    · rw [Session.outcome_perform, Session.outcome_perform]
      exact hending
    · rw [Session.machine_perform, Session.machine_perform]
      exact halike

/-- A declaration and a use that fails behind it. In the joined source the fault is a line further
down. -/
theorem declaration_joined_with_use :
    let s := Session.start (fun _ => 0) none
    let one := s.step 20 .program "var a = nil;"
    let two := one.2.step 20 .program "print a;\nb;"
    let joined := s.step 40 .program ("var a = nil;" ++ "\n" ++ "print a;\nb;")
    (¬ EndsInComment "var a = nil;".toList ∧ Style.program.Accepts "var a = nil;" ∧
      Style.program.Accepts "print a;\nb;" ∧ ¬ one.1.isFailed ∧
      two.1.ending ≠ .failed .outOfFuel) ∧
    joined.1.printed = one.1.printed ++ two.1.printed ∧
    joined.1.ending.unplaced = .failed (.runtime 0 (.undefinedVariable "b")) := by
  have hclosed : ¬ EndsInComment "var a = nil;".toList := by
    rintro ⟨ps, body, hcuts, -⟩
    have hlast : (Piece.cut "var a = nil;".toList).getLast? = some ⟨.token .semicolon, [';']⟩ := by
      cbv
    rw [← Piece.cuts_iff.1 hcuts, List.getLast?_append] at hlast
    cases hlast
  have hfirst : Style.program.Accepts "var a = nil;" := Style.accepts_iff.2 ⟨_, by cbv⟩
  have hsecond : Style.program.Accepts "print a;\nb;" := Style.accepts_iff.2 ⟨_, by cbv⟩
  have hok : ¬ ((Session.start (fun _ => 0) none).step 20 .program "var a = nil;").1.isFailed :=
    ne_true_of_eq_false (by cbv)
  have htwo : (((Session.start (fun _ => 0) none).step 20 .program "var a = nil;").2.step 20 .program
      "print a;\nb;").1.ending = .failed (.runtime 2 (.undefinedVariable "b")) := by
    cbv
  have hends : (((Session.start (fun _ => 0) none).step 20 .program "var a = nil;").2.step 20
      .program "print a;\nb;").1.ending ≠ .failed .outOfFuel := by
    rw [htwo]
    exact fun h => by cases h
  obtain ⟨-, hprinted, hending, -⟩ :=
    joined_runs_as_both (Session.start (fun _ => 0) none) hclosed hfirst hsecond hok hends
      (by decide : 20 + 20 ≤ 40)
  exact ⟨⟨hclosed, hfirst, hsecond, hok, hends⟩, hprinted, hending.trans (congrArg _ htwo)⟩

end LoxLang
