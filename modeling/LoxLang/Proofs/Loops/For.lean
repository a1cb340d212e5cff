import LoxLang.Proofs.Loops.Clauses
import LoxLang.Proofs.Loops.Direct
import LoxLang.Proofs.Loops.Start
import Mathlib

/-!
# `for` loops are what they seem

The tree that reading makes of a `for` loop has one frame more than the loop in each round that has
an increment. Nothing is declared in that frame, so the tree runs in step with the loop
(`Gaps.Simulates.framedLoop`), and wherever a session comes to run it, it ends as the loop does
(`for_loops_direct`).
-/

namespace LoxLang

/-! ## In step with the loop without the frames of its rounds -/

namespace Gaps.Simulates

variable {α β : Type} {W : Places} {i : Nat} {p : Place} {P : Places → α → β → Prop}

theorem andThen {x x' y y' : Run Flow} (hx : Simulates W i p Flows x x')
    (hy : ∀ W', W.Extends W' → Simulates W' i p Flows y y') :
    Simulates W i p Flows (Run.andThen x y) (Run.andThen x' y') := by
  refine bind hx fun W' hW flow flow' hflow => ?_
  cases hflow with
  | proceed => exact hy W' hW
  | returned hv => exact .pure (.returned hv)

/-- A new frame in both machines. -/
theorem inNewFrame {x : Run α} {y : Run β} (h : ∀ W' j j', W.Extends W' →
      Simulates W' j ⟨j', false :: p.gaps⟩ P x y) :
    Simulates W i p P (Run.inNewFrame x) (Run.inNewFrame y) := by
  refine bind get fun W₁ hW₁ m m' hm => ?_
  rw [hm.frame, hm.frame']
  exact bind (createFrame .empty hm.here) fun W₂ hW₂ j j' hj =>
    inFrame hj (h W₂ j j' (hW₁.trans hW₂))

theorem rounds {test test' : Nat → Run Bool} {round round' : Nat → Run Flow}
    (ht : ∀ W' k, W.Extends W' → Simulates W' i p Same (test k) (test' k))
    (hr : ∀ W' k, W.Extends W' → Simulates W' i p Flows (round k) (round' k)) (n : Nat) :
    Simulates W i p Flows (Run.rounds test round n) (Run.rounds test' round' n) := by
  induction n generalizing W with
  | zero => exact throw _
  | succ n ih =>
    refine bind (ht W n (.refl W)) fun W₁ hW₁ b b' hb => ?_
    cases hb
    cases b with
    | false => exact .pure .proceed
    | true =>
      refine andThen (hr W₁ n hW₁) fun W₂ hW₂ => ih (fun W' k hW => ?_) fun W' k hW => ?_
      · exact ht W' k ((hW₁.trans hW₂).trans hW)
      · exact hr W' k ((hW₁.trans hW₂).trans hW)

section

variable {Γ : Context}

theorem holds (hΓ : p.gaps.In Γ) (n : Nat) {test : Option (Expr (Option Nat))}
    (h : ∀ e ∈ test, Node.Accepted Γ (.expr e)) :
    Simulates W i p Same (Run.holds n test)
      (Run.holds n ((test.map Expr.bare).map (Expr.bindIn (p.gaps.thin Γ.names)))) := by
  cases test with
  | none => exact .pure rfl
  | some e =>
    exact bind ((simulatesOn n).evaluate hΓ (h e rfl)) fun _ _ _ _ hv => .pure hv.isTruthy

theorem increment (hΓ : p.gaps.In Γ) (n : Nat) {step : Option (Expr (Option Nat))}
    (h : ∀ e ∈ step, Node.Accepted Γ (.expr e)) :
    Simulates W i p Flows (Run.increment n step)
      (Run.increment n ((step.map Expr.bare).map (Expr.bindIn (p.gaps.thin Γ.names)))) := by
  cases step with
  | none => exact .pure .proceed
  | some e => exact bind ((simulatesOn n).evaluate hΓ (h e rfl)) fun _ _ _ _ _ => .pure .proceed

variable {loop : ForLoop (Option Nat)} {scopes : Scopes}

theorem round (hΓ : p.gaps.In Γ) (hscopes : loop.bare.inner scopes = p.gaps.thin Γ.names)
    (hbody : Node.Accepted Γ (.stmt loop.body))
    (hstep : ∀ e ∈ loop.step, Node.Accepted Γ (.expr e)) (hdeclared : loop.body.declared = [])
    (n : Nat) :
    Simulates W i p Flows (Run.round loop n) (Run.round (loop.bare.bindIn scopes) n) := by
  unfold Run.round ForLoop.bindIn
  rw [hscopes]
  exact andThen ((simulatesOn n).execute hΓ hbody fun _ => hdeclared) fun W' hW =>
    increment hΓ n hstep

/-- The frame of a round may be left out, since the body declares nothing in it. -/
theorem framedRound (hΓ : p.gaps.In Γ) (hscopes : loop.bare.inner scopes = p.gaps.thin Γ.names)
    (h : Node.Accepted Γ (.stmt loop.turn)) (hdeclared : loop.body.declared = []) (n : Nat) :
    Simulates W i p Flows (Run.framedRound loop n) (Run.round (loop.bare.bindIn scopes) n) := by
  unfold ForLoop.turn at h
  unfold Run.framedRound
  cases hstep : loop.step with
  | none =>
    rw [hstep] at h
    exact round hΓ hscopes h (by rw [hstep]; nofun) hdeclared n
  | some e =>
    rw [hstep] at h
    have hstmts := h.child (.head _)
    have he := (hstmts.child (.tail _ (.head _))).child (.head _) |>.child (.head _)
    rw [Context.after_of_declared hdeclared] at he
    refine leaveOut fun W' j hW => round (p := ⟨p.frame, true :: p.gaps⟩) (.gap hΓ) hscopes
      (hstmts.child (.head _)) (fun e' he' => ?_) hdeclared n
    cases hstep.symm.trans he'
    exact he

theorem repeated (hΓ : p.gaps.In Γ) (hscopes : loop.bare.inner scopes = p.gaps.thin Γ.names)
    (h : Node.Accepted Γ (.stmt loop.repeated)) (hdeclared : loop.body.declared = []) (n : Nat) :
    Simulates W i p Flows (Run.rounds (Run.holds · loop.test) (Run.framedRound loop) n)
      (Run.rounds (Run.holds · (loop.bare.bindIn scopes).test)
        (Run.round (loop.bare.bindIn scopes)) n) := by
  have htest : ∀ e ∈ loop.test, Node.Accepted Γ (.expr e) := fun e he => by
    have hfirst := h.child (.head _)
    rwa [Option.mem_def.1 he] at hfirst
  refine rounds (fun W' k _ => ?_) (fun W' k _ => ?_) n
  · unfold ForLoop.bindIn
    rw [hscopes]
    exact holds hΓ k htest
  · exact framedRound hΓ hscopes (h.child (.tail _ (.head _))) hdeclared k

/-- **A loop with frames for its rounds is in step with the loop without them.** -/
theorem framedLoop (hΓ : p.gaps.In Γ) (h : Node.Accepted Γ (.stmt loop.stmt))
    (hdeclared : loop.body.declared = []) (n : Nat) :
    Simulates W i p Flows (Run.framedLoop n loop)
      (Run.forLoop n (loop.bare.bindIn (p.gaps.thin Γ.names))) := by
  rw [Run.forLoop_eq]
  rw [ForLoop.stmt_eq] at h
  obtain ⟨init, test, step, body⟩ := loop
  cases init with
  | none => exact repeated hΓ rfl h hdeclared n
  | some s =>
    have hstmts := h.child (.head _)
    refine inNewFrame fun W₁ j j' hW₁ => ?_
    have hs := (simulatesOn n).execute (W := W₁) (i := j) (p := ⟨j', false :: p.gaps⟩) (.keep hΓ)
      (hstmts.child (.head _)) nofun
    have hkeep : In (false :: p.gaps) (.block :: Γ) := .keep hΓ
    obtain ⟨hΓ', hscopes⟩ := hkeep.after (s := s) nofun
    have hinner : (ForLoop.bare ⟨some s, test, step, body⟩).inner (p.gaps.thin Γ.names) = _ :=
      hscopes
    refine andThen hs fun W₂ hW₂ => ?_
    exact repeated (p := ⟨j', false :: p.gaps⟩) hΓ' hinner
      ((hstmts.child (.tail _ (.head _))).child (.head _)) hdeclared n

end

end Gaps.Simulates

/-! ## Ends -/

/-- Of two runs, given for all fuel, either ends wherever the other one does, the first one on a
little more fuel, and the ends are related. -/
structure Run.EndAlike {α β : Type}
    (R : EStateM.Result Fault Machine α → EStateM.Result Fault Machine β → Prop)
    (x : Nat → EStateM.Result Fault Machine α) (y : Nat → EStateM.Result Fault Machine β) :
    Prop where
  left : ∀ n, Ended (x n) → R (x n) (y n)
  right : ∀ n, Ended (y n) → R (x (n + 7)) (y n)

theorem Run.EndAlike.mono {α β : Type}
    {R R' : EStateM.Result Fault Machine α → EStateM.Result Fault Machine β → Prop}
    {x : Nat → EStateM.Result Fault Machine α} {y : Nat → EStateM.Result Fault Machine β}
    (h : EndAlike R x y) (hR : ∀ {a b}, R a b → R' a b) : EndAlike R' x y where
  left n hx := hR (h.left n hx)
  right n hy := hR (h.right n hy)

/-- What is seen of the end of a run: what has been printed, and the fault if there is one. -/
def Run.seen {α : Type} : EStateM.Result Fault Machine α → ByteArray × Option Fault
  | .ok _ m => (m.printed, none)
  | .error e m => (m.printed, some e)

/-- Ends of two runs of statements from one machine. They are of one kind, with related values or
with one fault, and the machines are back in the frame in which the runs began and differ only in
frames without names. -/
abbrev Machine.SameEnds (m : Machine) :
    EStateM.Result Fault Machine Flow → EStateM.Result Fault Machine Flow → Prop :=
  Gaps.Ends m.store.places m.frame ⟨m.frame, []⟩ Gaps.Flows

section

variable {α β : Type} {W : Places} {i : Nat} {p : Place} {P : Places → α → β → Prop}

theorem Gaps.Ends.seen {x : EStateM.Result Fault Machine α} {y : EStateM.Result Fault Machine β}
    (h : Ends W i p P x y) : Run.seen y = Run.seen x := by
  cases h with
  | ok _ hm => exact congrArg (·, none) hm.printed
  | error e _ hm => exact congrArg (·, some e) hm.printed

theorem Gaps.Ends.ended {x : EStateM.Result Fault Machine α} {y : EStateM.Result Fault Machine β}
    (h : Ends W i p P x y) (hy : Run.Ended y) : Run.Ended x := by
  cases h with
  | ok => nofun
  | error e =>
    intro m he
    cases he
    exact hy _ rfl

/-- Where the first run ends without a fault, the second one has printed the same. -/
theorem Gaps.Ends.seen_of_endAlike {x : Nat → EStateM.Result Fault Machine α}
    {y : Nat → EStateM.Result Fault Machine β} (h : Run.EndAlike (Ends W i p P) x y) {n : Nat}
    {printed : ByteArray} (hx : Run.seen (x n) = (printed, none)) :
    Run.seen (y n) = (printed, none) := by
  have hended : Run.Ended (x n) := fun m he => by
    rw [he] at hx
    cases hx
  exact (h.left n hended).seen.trans hx

/-- A run ends like one that is in step with what it does on a little more fuel. -/
theorem Gaps.Simulates.endAlike {x z : Nat → Run α} {y : Nat → Run β}
    (hxz : ∀ n, Run.Extends (x n) (z n)) (hzx : ∀ n, Run.Extends (z n) (x (n + 7)))
    (h : ∀ n, Simulates W i p P (z n) (y n)) {m m' : Machine} (hm : Machines W i p m m') :
    Run.EndAlike (Ends W i p P) (x · m) (y · m') where
  left n hx := (hxz n).eq_of_ended hx ▸ h n m m' hm
  right n hy := by
    have hends := h n m m' hm
    rwa [← (hzx n).eq_of_ended (hends.ended hy)] at hends

end

/-! ## Loops in a session -/

/-- **The tree of a loop ends as the loop does**, and what follows on the tree ends as what follows
on the loop. -/
theorem Machine.Stands.forLoop {L : Log} (hL : L.Lawful) {m : Machine} {Γ : Context}
    {loop : ForLoop (Option Nat)} (h : m.Stands L Γ (.stmt loop.stmt)) (hm : m.Good L)
    (hroot : m.Rooted) (hdeclared : loop.body.declared = []) :
    Run.EndAlike m.SameEnds (Run.execute · loop.stmt m)
        (Run.forLoop · (loop.bare.bindIn Γ.names) m) ∧
      ∀ k rest, Node.Accepted Γ (.stmts rest) → Run.EndAlike m.SameEnds
        (fun n => Run.andThen (Run.execute n loop.stmt) (Run.executeAll k rest) m)
        (fun n => Run.andThen (Run.forLoop n (loop.bare.bindIn Γ.names)) (Run.executeAll k rest)
          m) := by
  obtain ⟨line, hline, hw⟩ := h.within
  have haccepted : Node.Accepted Γ (.stmt loop.stmt) := ⟨line, hL.accepted line hline, hw⟩
  have hmachines := hm.machines hL h.fits hroot.parent?
  have hloop := Gaps.Simulates.framedLoop (W := m.store.places) (i := m.frame) (p := ⟨m.frame, []⟩)
    (.whole Γ) haccepted hdeclared
  refine ⟨?_, fun k rest hrest => ?_⟩
  · exact Gaps.Simulates.endAlike (Run.execute_stmt_extends loop) (Run.extends_execute_stmt loop)
      hloop hmachines
  · have hsame := Stmt.bindAllIn_bare rest hrest.resolved
    refine Gaps.Simulates.endAlike (fun n => (Run.execute_stmt_extends loop n).andThen (.refl _))
      (fun n => (Run.extends_execute_stmt loop n).andThen (.refl _)) (fun n => ?_) hmachines
    refine (hloop n).andThen fun W' hW => ?_
    have hall := (Gaps.simulatesOn k).executeAll (W := W') (i := m.frame) (p := ⟨m.frame, []⟩)
      (.whole Γ) hrest nofun
    rwa [Gaps.thin, hsame] at hall

/-- **A `for` loop is what it seems to be.** Where a statement is read at the word `for`, a loop
stands, and the statement is the tree of whatever loop stands there: its clauses are those that are
read at their places, and the others are left out. Take any session, and any machine in which it
comes to run this tree. In the scopes around it, the tree ends as the loop does when it is run
directly. There, the initializer is run once, in one frame that all rounds share; a round evaluates
the condition, runs the body and, if and only if the body ends normally, evaluates the increment,
once; a `return` or a fault ends the loop on the spot; and the condition and the increment are bound
in scopes to which the body adds nothing. On any fuel on which one of the two ends, the other one
ends, too: both normally, both with a `return` of related values, or both with one fault, and always
in the frame in which they began. What they leave behind stands in frames that correspond to each
other, closures included, and those of all rounds share the frame of the initializer. So whatever
accepted statements run next, they print the same and have the same fault. -/
theorem for_loops_direct {n : Nat} {c c' : Cursor} {s : Stmt Unit} (hfor : c.peek.kind = .kwFor)
    (hread : (Reading.statement n).Gives c s c') :
    (∃ loop, ForLoop.ReadAt n c loop c') ∧
      ∀ loop c'', ForLoop.ReadAt n c loop c'' → c'' = c' ∧ s = loop.stmt ∧ loop.Written ∧
        ∀ clock room fuel sources left code m,
          Session.Reached clock room fuel sources left (.run (.stmt code)) m → code.bare = s →
          ∃ Γ : Context, m.At Γ ∧ Node.Accepted Γ (.stmt code) ∧
            Run.EndAlike m.SameEnds (Run.execute · code m)
              (Run.forLoop · (loop.bindIn Γ.names) m) ∧
            ∀ k rest, Node.Accepted Γ (.stmts rest) →
              Run.EndAlike (fun x y => Run.seen y = Run.seen x)
                (fun n => Run.andThen (Run.execute n code) (Run.executeAll k rest) m)
                (fun n => Run.andThen (Run.forLoop n (loop.bindIn Γ.names)) (Run.executeAll k rest)
                  m) := by
  refine ⟨(Reading.exists_readAt hfor hread).imp fun _ h => h.1, fun loop c'' hloop => ?_⟩
  obtain ⟨rfl, rfl⟩ := (Reading.gives_of_readAt hloop).unique hread
  have hwritten := Reading.written_of_readAt hloop
  refine ⟨rfl, rfl, hwritten, fun clock room fuel sources left code m hreached hbare => ?_⟩
  obtain ⟨hm, Γ, hs⟩ := hreached.situated
  obtain ⟨marked, rfl, hmarked⟩ := ForLoop.exists_of_bare hbare
  rw [← hmarked] at hwritten ⊢
  have hdeclared : marked.body.declared = [] :=
    (Stmt.declared_map _ marked.body).symm.trans hwritten.body
  obtain ⟨line, hline, hw⟩ := hs.within
  have haccepted := Session.log_lawful.accepted line hline
  obtain ⟨hends, hrest⟩ := hs.forLoop Session.log_lawful hm hreached.rooted hdeclared
  exact ⟨Γ, hs.fits, ⟨line, haccepted, hw⟩, hends,
    fun k rest hr => (hrest k rest hr).mono fun h => h.seen⟩

/-- A loop with a variable of its own prints what its tree prints. -/
theorem loop_of_a_variable :
    let go : Token := ⟨.identifier, "go", 1⟩
    let loop : ForLoop Unit := ⟨some (.var go (some (.literal .true))), some (.ref ⟨(), go⟩),
      some (.assign ⟨(), go⟩ (.literal .false)), .print (.ref ⟨(), go⟩)⟩
    ∃ (c c' : Cursor) (n : Nat) (code : Code) (m : Machine), c.peek.kind = .kwFor ∧
      (Reading.statement 20).Gives c loop.stmt c' ∧ ForLoop.ReadAt 20 c loop c' ∧
      code.bare = loop.stmt ∧
      Session.Reached (fun _ => 0) none 30 [(.program,
        "for (var go = true; go; go = false) print go;")] n (.run (.stmt code)) m ∧
      ∃ Γ : Context, Run.seen (Run.forLoop n (loop.bindIn Γ.names) m) =
        ("true\n".toUTF8, none) := by
  intro go loop
  let tokens : List Token := [⟨.kwFor, "for", 1⟩, ⟨.leftParen, "(", 1⟩, ⟨.kwVar, "var", 1⟩, go,
    ⟨.equal, "=", 1⟩, ⟨.kwTrue, "true", 1⟩, ⟨.semicolon, ";", 1⟩, go, ⟨.semicolon, ";", 1⟩, go,
    ⟨.equal, "=", 1⟩, ⟨.kwFalse, "false", 1⟩, ⟨.rightParen, ")", 1⟩, ⟨.kwPrint, "print", 1⟩, go,
    ⟨.semicolon, ";", 1⟩]
  let behind (k : Nat) : Cursor := ⟨tokens.drop k, .endMark 1, []⟩
  have hinit : ForLoop.InitAt 18 (behind 2) loop.init (behind 7) := .var rfl (by cbv)
  have htest : ForLoop.ClauseAt 18 .semicolon (behind 7) loop.test (behind 8) :=
    .given (by decide) (by cbv)
  have hstep : ForLoop.ClauseAt 18 .rightParen (behind 9) loop.step (behind 12) :=
    .given (by decide) (by cbv)
  have hbody : (Reading.statement 18).Gives (behind 13) loop.body (behind 16) := by cbv
  have hloop : ForLoop.ReadAt 20 (behind 0) loop (behind 16) :=
    .intro rfl rfl hinit htest rfl hstep rfl hbody
  have hread := Reading.gives_of_readAt hloop
  have hruns := Session.Runs.single (fun _ => 0) none 30 .program
    "for (var go = true; go; go = false) print go;" (by cbv)
  have hreached := (Session.Reached.statements hruns).begins .statement
  refine ⟨_, _, _, _, _, rfl, hread, hloop, rfl, hreached, ?_⟩
  obtain ⟨-, h⟩ := for_loops_direct rfl hread
  obtain ⟨-, -, -, h⟩ := h loop _ hloop
  obtain ⟨Γ, -, -, hends, -⟩ := h _ _ _ _ _ _ _ hreached rfl
  exact ⟨Γ, Gaps.Ends.seen_of_endAlike hends (by cbv)⟩

end LoxLang
