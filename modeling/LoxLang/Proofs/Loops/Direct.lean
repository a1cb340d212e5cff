import LoxLang.Proofs.Loops.Syntax
import LoxLang.Proofs.Run.Control
import LoxLang.Proofs.Run.Fuel

/-!
# `for` loops, run directly

A `for` loop can be run without the tree that reading makes of it (`Run.forLoop`). The initializer
is run once, in a frame that all rounds share. A round evaluates the condition, runs the body and,
if the body ends normally, evaluates the increment; the loop ends with a condition that does not
hold, with a `return` and with a fault. The sites of the loop are bound by its own scopes: the
condition, the increment and the body stand in the scope of the initializer (`ForLoop.bindIn`).

The tree has one frame more in each round that has an increment. It does what a loop with these
frames does, on a little more fuel (`Run.execute_stmt_extends`, `Run.extends_execute_stmt`).
-/

namespace LoxLang

/-! ## The loop -/

namespace ForLoop

variable {σ : Type}

/-- The scopes behind the initializer. -/
def inner (scopes : Scopes) (loop : ForLoop σ) : Scopes :=
  match loop.init with
  | none => scopes
  | some s => Scopes.after ([] :: scopes) s

/-- Marks the sites of a loop with their distances: the initializer opens a scope, and all other
parts stand in the scopes behind it. -/
def bindIn (scopes : Scopes) (loop : ForLoop Unit) : ForLoop (Option Nat) where
  init := loop.init.map (Stmt.bindIn ([] :: scopes))
  test := loop.test.map (Expr.bindIn (loop.inner scopes))
  step := loop.step.map (Expr.bindIn (loop.inner scopes))
  body := loop.body.bindIn (loop.inner scopes)

end ForLoop

namespace Run

variable {α : Type}

/-- Runs something in a new frame inside the current one. -/
def inNewFrame (r : Run α) : Run α := do
  let frame ← createFrame .empty (← get).frame
  inFrame frame r

/-- Goes on with the second part unless the first one returns. -/
def andThen (first rest : Run Flow) : Run Flow := do
  match ← first with
  | .proceed => rest
  | .returned v => return .returned v

/-- Whether the condition holds. One that is left out does. -/
def holds (n : Nat) : Option (Expr (Option Nat)) → Run Bool
  | none => return true
  | some e => return (← evaluate n e).isTruthy

/-- Evaluates the increment, if there is one. -/
def increment (n : Nat) : Option (Expr (Option Nat)) → Run Flow
  | none => return .proceed
  | some e => do
    let _ ← evaluate n e
    return .proceed

/-- A round: the body and, if it ends normally, the increment. -/
def round (loop : ForLoop (Option Nat)) (n : Nat) : Run Flow :=
  andThen (execute n loop.body) (increment n loop.step)

/-- Rounds, each behind a test, up to the first one that returns or the first test that fails. -/
def rounds (test : Nat → Run Bool) (round : Nat → Run Flow) : Nat → Run Flow
  | 0 => outOfFuel
  | n + 1 => do
    if ← test n then andThen (round n) (rounds test round n) else return .proceed

/-- The frame of a loop: a new one if there is an initializer. -/
def loopFrame (init : Option Code) : Run Nat := do
  let outer := (← get).frame
  match init with
  | none => return outer
  | some _ => createFrame .empty outer

/-- Runs the initializer, if there is one. -/
def initial (n : Nat) : Option Code → Run Flow
  | none => return .proceed
  | some s => execute n s

/-- **A `for` loop.** Its initializer, which is run once, and all of its rounds share one frame. -/
def forLoop (n : Nat) (loop : ForLoop (Option Nat)) : Run Flow := do
  let shared ← loopFrame loop.init
  andThen (inFrame shared (initial n loop.init)) <|
    rounds (fun k => inFrame shared (holds k loop.test)) (fun k => inFrame shared (round loop k)) n

/-! ## The steps of a loop -/

namespace Compositional

variable {P : {α : Type} → Run α → Prop} (h : Compositional P)
include h

theorem andThen {first rest : Run Flow} (hfirst : P first) (hrest : P rest) :
    P (Run.andThen first rest) := by
  refine h.bind hfirst fun flow => ?_
  cases flow with
  | proceed => exact hrest
  | returned v => exact h.pure _

theorem holds (n : Nat) (test : Option (Expr (Option Nat))) : P (Run.holds n test) := by
  cases test with
  | none => exact h.pure true
  | some e => exact h.bind ((h.holdsOn n).evaluate e) fun v => h.pure _

theorem increment (n : Nat) (step : Option (Expr (Option Nat))) : P (Run.increment n step) := by
  cases step with
  | none => exact h.pure _
  | some e => exact h.bind ((h.holdsOn n).evaluate e) fun _ => h.pure _

theorem round (loop : ForLoop (Option Nat)) (n : Nat) : P (Run.round loop n) :=
  h.andThen ((h.holdsOn n).execute _) (h.increment n _)

theorem rounds {test : Nat → Run Bool} {round : Nat → Run Flow} (ht : ∀ k, P (test k))
    (hr : ∀ k, P (round k)) (n : Nat) : P (Run.rounds test round n) := by
  induction n with
  | zero => exact h.throw _
  | succ n ih =>
    refine h.bind (ht n) fun b => ?_
    cases b with
    | true => exact h.andThen (hr n) ih
    | false => exact h.pure _

end Compositional

/-! ## The frame of the loop is entered once -/

theorem inFrame_andThen {first : Run Flow} (h : Respects Machine.SameControl first)
    (rest : Run Flow) (j : Nat) :
    inFrame j (andThen first rest) = andThen (inFrame j first) (inFrame j rest) := by
  unfold andThen
  rw [inFrame_bind h]
  refine congrArg (inFrame j first >>= ·) (funext fun flow => ?_)
  cases flow <;> rfl

theorem inFrame_rounds {test : Nat → Run Bool} {round : Nat → Run Flow}
    (ht : ∀ k, Respects Machine.SameControl (test k))
    (hr : ∀ k, Respects Machine.SameControl (round k)) (j n : Nat) :
    inFrame j (rounds test round n) =
      rounds (fun k => inFrame j (test k)) (fun k => inFrame j (round k)) n := by
  induction n with
  | zero => rfl
  | succ n ih =>
    rw [rounds, rounds, inFrame_bind (ht n), ← ih, ← inFrame_andThen (hr n)]
    refine congrArg (inFrame j (test n) >>= ·) (funext fun b => ?_)
    cases b <;> rfl

/-- What follows on an initializer, if there is one, in the frame of the initializer. -/
def initially (n : Nat) (init : Option Code) (rest : Run Flow) : Run Flow :=
  match init with
  | none => rest
  | some s => inNewFrame (andThen (execute n s) rest)

/-- A loop enters its frame once. -/
theorem forLoop_eq (n : Nat) (loop : ForLoop (Option Nat)) :
    forLoop n loop = initially n loop.init (rounds (holds · loop.test) (round loop) n) := by
  have htest := (sameControl.holds · loop.test)
  have hround := sameControl.round loop
  have hrounds := inFrame_rounds htest hround
  funext m
  unfold forLoop initially
  cases loop.init with
  | none =>
    have hself := inFrame_self (sameControl.rounds htest hround n) m
    rw [hrounds] at hself
    exact hself
  | some s =>
    have hin := inFrame_andThen ((sameControl.holdsOn n).execute s)
      (rounds (holds · loop.test) (round loop) n) m.nextFrame
    rw [hrounds] at hin
    exact (congrFun hin (m.grow .empty m.frame)).symm

/-! ## The tree of a loop, with a frame for each round -/

/-- A round with a frame of its own, if there is an increment. -/
def framedRound (loop : ForLoop (Option Nat)) (n : Nat) : Run Flow :=
  match loop.step with
  | none => round loop n
  | some _ => inNewFrame (round loop n)

/-- A `for` loop with a frame for each round that has an increment. -/
def framedLoop (n : Nat) (loop : ForLoop (Option Nat)) : Run Flow :=
  initially n loop.init (rounds (holds · loop.test) (framedRound loop) n)

theorem Extends.andThen {a a' b b' : Run Flow} (ha : Extends a a') (hb : Extends b b') :
    Extends (andThen a b) (andThen a' b') := by
  refine extends_congruence.bind ha fun flow => ?_
  cases flow with
  | proceed => exact hb
  | returned v => exact .refl _

theorem Extends.inNewFrame {r r' : Run α} (h : Extends r r') :
    Extends (inNewFrame r) (inNewFrame r') :=
  extends_congruence.get (fun _ _ _ => rfl) (fun _ _ _ => rfl) fun _ =>
    extends_congruence.bind (.refl _) fun frame => extends_congruence.inFrame frame h

theorem Extends.rounds {c : Nat} {test test' : Nat → Run Bool} {round round' : Nat → Run Flow}
    (ht : ∀ k, Extends (test k) (test' (k + c))) (hr : ∀ k, Extends (round k) (round' (k + c)))
    (n : Nat) : Extends (rounds test round n) (rounds test' round' (n + c)) := by
  induction n with
  | zero => exact extends_congruence.outOfFuel _
  | succ n ih =>
    rw [Nat.succ_add]
    refine extends_congruence.bind (ht n) fun b => ?_
    cases b with
    | true => exact .andThen (hr n) ih
    | false => exact .refl _

/-- Nothing changes behind a part that does nothing. -/
theorem andThen_proceed (r : Run Flow) : andThen r (pure .proceed) = r := by
  funext m
  unfold andThen
  cases hr : r m with
  | error e m' => exact bind_error hr
  | ok flow m' =>
    rw [bind_ok hr]
    cases flow <;> rfl

theorem executeAll_cons (n : Nat) (s : Code) (ss : List Code) :
    executeAll (n + 1) (s :: ss) = andThen (execute n s) (executeAll n ss) := rfl

theorem execute_block (n : Nat) (body : List Code) :
    execute (n + 1) (.block body) = inNewFrame (executeAll n body) := rfl

theorem executeAll_nil_extends (n : Nat) : Extends (executeAll n []) (pure .proceed) := by
  cases n with
  | zero => exact extends_congruence.outOfFuel _
  | succ n => exact .refl _

theorem executeAll_single_extends (n : Nat) (s : Code) :
    Extends (executeAll n [s]) (execute n s) := by
  cases n with
  | zero => exact extends_congruence.outOfFuel _
  | succ n =>
    have h := (execute_mono (Nat.le_succ n) s).andThen (executeAll_nil_extends n)
    rwa [andThen_proceed] at h

/-- A block of two statements runs them one after the other in a frame of its own. -/
theorem execute_pair_extends (n : Nat) (a b : Code) :
    Extends (execute n (.block [a, b])) (inNewFrame (andThen (execute n a) (execute n b))) := by
  match n with
  | 0 => exact extends_congruence.outOfFuel _
  | 1 => exact .inNewFrame (extends_congruence.outOfFuel _)
  | n + 2 =>
    have hb := (executeAll_single_extends n b).trans (execute_mono (Nat.le_add_right n 2) b)
    exact .inNewFrame ((execute_mono (Nat.le_add_right n 2) a).andThen hb)

/-- So does a block on more fuel. -/
theorem pair_extends_execute (n : Nat) (a b : Code) :
    Extends (inNewFrame (andThen (execute n a) (execute (n + 1) b)))
      (execute (n + 4) (.block [a, b])) := by
  have hb : executeAll (n + 2) [b] = execute (n + 1) b := andThen_proceed _
  rw [execute_block, executeAll_cons, hb]
  exact .inNewFrame ((execute_mono (Nat.le_add_right n 2) a).andThen (.refl _))

theorem holds_some (n : Nat) (e : Expr (Option Nat)) :
    holds n (some e) = evaluate n e >>= fun v => pure v.isTruthy := rfl

theorem execute_expression (n : Nat) (e : Expr (Option Nat)) :
    execute (n + 1) (.expression e) = increment n (some e) := rfl

theorem execute_expression_extends (n : Nat) (e : Expr (Option Nat)) :
    Extends (execute n (.expression e)) (increment n (some e)) := by
  cases n with
  | zero => exact extends_congruence.outOfFuel _
  | succ n =>
    exact extends_congruence.bind (evaluate_mono (Nat.le_succ n) e) fun _ => .refl _

/-- A `while` loop has rounds of its body. -/
theorem execute_loop (n : Nat) (e : Expr (Option Nat)) (body : Code) :
    execute n (.loop e body) = rounds (holds · (some e)) (execute · body) n := by
  induction n with
  | zero => rfl
  | succ n ih =>
    have hround : execute (n + 1) (.loop e body) = evaluate n e >>= fun v =>
        if v.isTruthy then andThen (execute n body) (execute n (.loop e body))
        else pure .proceed := rfl
    rw [hround, rounds, ← ih, holds_some, bind_assoc]
    refine congrArg (evaluate n e >>= ·) (funext fun v => ?_)
    rw [pure_bind]

section

variable (loop : ForLoop (Option Nat))

/-- A condition that is left out is that of a `while` loop that goes on for ever. -/
theorem holds_extends (n : Nat) : Extends (holds n (some (loop.test.getD (.literal .true))))
    (holds n loop.test) := by
  cases loop.test with
  | some e => exact .refl _
  | none =>
    cases n with
    | zero => exact extends_congruence.outOfFuel _
    | succ n => exact .refl _

theorem extends_holds (n : Nat) : Extends (holds n loop.test)
    (holds (n + 4) (some (loop.test.getD (.literal .true)))) := by
  cases loop.test with
  | some e =>
    exact extends_congruence.bind (evaluate_mono (Nat.le_add_right n 4) e) fun _ => .refl _
  | none => exact .refl _

theorem execute_turn_extends (n : Nat) : Extends (execute n loop.turn) (framedRound loop n) := by
  unfold ForLoop.turn framedRound round
  cases loop.step with
  | none => exact (andThen_proceed _).symm ▸ .refl _
  | some e =>
    exact (execute_pair_extends n _ _).trans
      (.inNewFrame (.andThen (.refl _) (execute_expression_extends n e)))

theorem extends_execute_turn (n : Nat) :
    Extends (framedRound loop n) (execute (n + 4) loop.turn) := by
  unfold ForLoop.turn framedRound round
  cases loop.step with
  | none => exact (andThen_proceed _).symm ▸ execute_mono (Nat.le_add_right n 4) _
  | some e =>
    have h := pair_extends_execute n loop.body (.expression e)
    rwa [execute_expression] at h

/-- **The tree of a loop does what the loop does with a frame for each round.** -/
theorem execute_stmt_extends (n : Nat) : Extends (execute n loop.stmt) (framedLoop n loop) := by
  have hrepeated : Extends (execute n loop.repeated)
      (rounds (holds · loop.test) (framedRound loop) n) := by
    rw [ForLoop.repeated, execute_loop]
    exact .rounds (c := 0) (holds_extends loop) (execute_turn_extends loop) n
  rw [ForLoop.stmt_eq]
  unfold framedLoop initially
  cases loop.init with
  | none => exact hrepeated
  | some s => exact (execute_pair_extends n _ _).trans (.inNewFrame (.andThen (.refl _) hrepeated))

/-- And it does so on a little more fuel than the loop. -/
theorem extends_execute_stmt (n : Nat) :
    Extends (framedLoop n loop) (execute (n + 7) loop.stmt) := by
  have hrepeated : Extends (rounds (holds · loop.test) (framedRound loop) n)
      (execute (n + 4) loop.repeated) := by
    rw [ForLoop.repeated, execute_loop]
    exact .rounds (extends_holds loop) (extends_execute_turn loop) n
  rw [ForLoop.stmt_eq]
  unfold framedLoop initially
  cases loop.init with
  | none => exact hrepeated.trans (execute_mono (by omega) _)
  | some s =>
    have hs := execute_mono (Nat.le_add_right n 3) s
    exact (Extends.inNewFrame (hs.andThen hrepeated)).trans (pair_extends_execute (n + 3) _ _)

end

end Run

end LoxLang
