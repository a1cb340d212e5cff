import LoxLang.Proofs.Loops.Binding

/-!
# `for` loops as they are written

A `for` loop has four parts, three of which may be left out (`ForLoop`). Reading makes a tree of
blocks and a `while` loop of it (`ForLoop.stmt`), and every tree with this text is the tree of a
loop (`ForLoop.exists_of_bare`). A loop that is written begins with the declaration of a variable or
with an expression, and its body declares nothing in the scope around it (`ForLoop.Written`).
-/

namespace LoxLang

/-- The parts of a `for` loop: what runs once at the start, the condition, the increment and the
body. -/
structure ForLoop (σ : Type) where
  init : Option (Stmt σ)
  test : Option (Expr σ)
  step : Option (Expr σ)
  body : Stmt σ

namespace ForLoop

variable {σ : Type}

/-- The statement that reading makes of the loop. -/
def stmt (loop : ForLoop σ) : Stmt σ := .forLoop loop.init loop.test loop.step loop.body

/-- The loop as it was read. -/
def bare (loop : ForLoop σ) : ForLoop Unit :=
  ⟨loop.init.map Stmt.bare, loop.test.map Expr.bare, loop.step.map Expr.bare, loop.body.bare⟩

/-- Whether the grammar has the loop: it may begin with a variable or with an expression, and its
body is not a declaration. -/
structure Written (loop : ForLoop Unit) : Prop where
  init : ∀ s ∈ loop.init, (∃ name value, s = .var name value) ∨ ∃ e, s = .expression e
  body : loop.body.declared = []

/-- The body of the `while` loop: the increment stands behind the body in a block of their own. -/
def turn (loop : ForLoop σ) : Stmt σ :=
  match loop.step with
  | some e => .block [loop.body, .expression e]
  | none => loop.body

/-- The `while` loop. -/
def repeated (loop : ForLoop σ) : Stmt σ := .loop (loop.test.getD (.literal .true)) loop.turn

theorem stmt_eq (loop : ForLoop σ) : loop.stmt = match loop.init with
    | some s => .block [s, loop.repeated]
    | none => loop.repeated :=
  rfl

/-! ## Trees that are read as a loop -/

theorem of_bare_literal {e : Expr σ} {v : Literal} (h : e.bare = .literal v) : e = .literal v := by
  cases e <;> cases h
  rfl

theorem of_bare_expression {s : Stmt σ} {e : Expr Unit} (h : s.bare = .expression e) :
    ∃ e', s = .expression e' ∧ e'.bare = e := by
  rcases s with e' | _ | ⟨_, _ | _⟩ | _ | ⟨_, _, _ | _⟩ | _ | _ | ⟨_, _ | _⟩ | _ <;> cases h
  exact ⟨e', rfl, rfl⟩

theorem of_bare_loop {s : Stmt σ} {e : Expr Unit} {body : Stmt Unit} (h : s.bare = .loop e body) :
    ∃ e' body', s = .loop e' body' ∧ e'.bare = e ∧ body'.bare = body := by
  rcases s with _ | _ | ⟨_, _ | _⟩ | _ | ⟨_, _, _ | _⟩ | ⟨e', body'⟩ | _ | ⟨_, _ | _⟩ | _ <;>
    cases h
  exact ⟨e', body', rfl, rfl, rfl⟩

theorem of_bare_block {s : Stmt σ} {a b : Stmt Unit} (h : s.bare = .block [a, b]) :
    ∃ a' b', s = .block [a', b'] ∧ a'.bare = a ∧ b'.bare = b := by
  rcases s with _ | _ | ⟨_, _ | _⟩ | _ | ⟨_, _, _ | _⟩ | _ | _ | ⟨_, _ | _⟩ | _ <;> try cases h
  next body =>
    rcases body with _ | ⟨a', _ | ⟨b', _ | _⟩⟩ <;> cases h
    exact ⟨a', b', rfl, rfl, rfl⟩

theorem turn_of_bare {loop : ForLoop Unit} {s : Stmt σ} (h : s.bare = loop.turn) :
    ∃ step body, s = turn ⟨none, none, step, body⟩ ∧ step.map Expr.bare = loop.step ∧
      body.bare = loop.body := by
  unfold turn at h
  cases hstep : loop.step with
  | none =>
    rw [hstep] at h
    exact ⟨none, s, rfl, rfl, h⟩
  | some e =>
    rw [hstep] at h
    obtain ⟨body, b, rfl, hbody, hb⟩ := of_bare_block h
    obtain ⟨e', rfl, rfl⟩ := of_bare_expression hb
    exact ⟨some e', body, rfl, rfl, hbody⟩

theorem repeated_of_bare {loop : ForLoop Unit} {s : Stmt σ} (h : s.bare = loop.repeated) :
    ∃ test step body, s = repeated ⟨none, test, step, body⟩ ∧ test.map Expr.bare = loop.test ∧
      step.map Expr.bare = loop.step ∧ body.bare = loop.body := by
  obtain ⟨e, turned, rfl, he, hturned⟩ := of_bare_loop h
  obtain ⟨step, body, rfl, hstep, hbody⟩ := turn_of_bare hturned
  cases htest : loop.test with
  | none =>
    rw [htest] at he
    cases of_bare_literal he
    exact ⟨none, step, body, rfl, rfl, hstep, hbody⟩
  | some e' =>
    rw [htest] at he
    exact ⟨some e, step, body, rfl, congrArg some he, hstep, hbody⟩

/-- A tree whose bare text is that of a loop is the tree of a loop. -/
theorem exists_of_bare {loop : ForLoop Unit} {s : Stmt σ} (h : s.bare = loop.stmt) :
    ∃ marked : ForLoop σ, s = marked.stmt ∧ marked.bare = loop := by
  rw [stmt_eq] at h
  obtain ⟨init, test, step, body⟩ := loop
  cases init with
  | none =>
    obtain ⟨test, step, body, rfl, rfl, rfl, rfl⟩ := repeated_of_bare h
    exact ⟨⟨none, test, step, body⟩, rfl, rfl⟩
  | some init =>
    obtain ⟨a, b, rfl, rfl, hb⟩ := of_bare_block h
    obtain ⟨test, step, body, rfl, rfl, rfl, rfl⟩ := repeated_of_bare hb
    exact ⟨⟨some a, test, step, body⟩, rfl, rfl⟩

end ForLoop

end LoxLang
