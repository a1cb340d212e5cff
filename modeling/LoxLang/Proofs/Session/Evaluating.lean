import LoxLang.Proofs.Grammar.Single
import LoxLang.Proofs.Run.Fuel
import LoxLang.Proofs.Run.Output
import LoxLang.Proofs.Session.Sources
import Mathlib

/-!
# Three ways to evaluate an expression

An expression can be evaluated on its own, entered as a line, and printed by a program. What each of
the three does with a source depends on its tokens (`Evaluation.ofSource_eq`, `Session.step_eq`).
The three resolve the same tree, and run it behind nothing else, so they have the same violations or
come to the same (`ways_to_evaluate_agree`): the line shows the value, and the program prints it.
-/

namespace LoxLang

/-! ## Tokens instead of sources -/

/-- Evaluates tokens that make up a single expression on a machine. -/
def Evaluation.ofTokens (m : Machine) (fuel : Nat) (tokens : List Token) : Evaluation :=
  match Expr.read tokens with
  | .error es => rejected [] es
  | .ok e =>
    let e := (e.label 0).1
    match e.bindings with
    | .error es => unresolved es
    | .ok bindings =>
      match Run.evaluate fuel (e.link bindings) m with
      | .ok v m => evaluated v m.printed
      | .error fault m => failed fault m.printed

/-- Runs tokens. -/
def Session.stepTokens (s : Session) (fuel : Nat) (style : Style) (tokens : List Token) :
    Outcome × Session :=
  match style.read tokens with
  | .error es => (⟨.empty, .rejected (es.map GrammarError.diagnostic)⟩, s)
  | .ok line =>
    let (line, next) := line.label s.nextSite
    let s := { s with nextSite := next }
    match line.bindings with
    | .error es => (⟨.empty, .rejected (es.map ScopeError.diagnostic)⟩, s)
    | .ok bindings => s.perform fuel (line.link bindings)

/-- Without a lexical error only the tokens of a source matter to its evaluation. -/
theorem Evaluation.ofSource_eq {source : String} (h : LexicalError.scan source = []) (m : Machine)
    (fuel : Nat) : ofSource m fuel source = ofTokens m fuel (Token.scan source) := by
  have h : (Item.scan source).filterMap Item.error? = [] := h
  unfold ofSource ofTokens Token.scan
  dsimp only
  rw [h]
  cases Expr.read ((Item.scan source).filterMap Item.token?) <;> rfl

/-- Without a lexical error only the tokens of a source matter to running it. -/
theorem Session.step_eq {source : String} (h : LexicalError.scan source = []) (s : Session)
    (fuel : Nat) (style : Style) :
    s.step fuel style source = s.stepTokens fuel style (Token.scan source) := by
  unfold step stepTokens
  rw [Style.readSource_eq, h]
  cases style.read (Token.scan source) <;> rfl

/-! ## The same violations, the same value or the same fault -/

/-- The evaluation has not run out of fuel. -/
def Evaluation.Ended (e : Evaluation) : Prop := ∀ printed, e ≠ .failed .outOfFuel printed

/-- The run of a source has not run out of fuel. -/
def Outcome.Ended (o : Outcome) : Prop := o.ending ≠ .failed .outOfFuel

/-- What evaluating an expression comes to, what a line with that expression comes to, and what a
program comes to that prints it. If the room for output is limited, then it may be too small for the
line that the program prints last. -/
inductive Evaluation.Agrees (room : Option Nat) : Evaluation → Outcome → Outcome → Prop
  | unresolved (es : List ScopeError) :
    Agrees room (.unresolved es) ⟨.empty, .rejected (es.map ScopeError.diagnostic)⟩
      ⟨.empty, .rejected (es.map ScopeError.diagnostic)⟩
  | failed (fault : Fault) (printed : ByteArray) :
    Agrees room (.failed fault printed) ⟨printed, .failed fault⟩ ⟨printed, .failed fault⟩
  | evaluated (v : Value) (printed : ByteArray) :
    Agrees room (.evaluated v printed) ⟨printed, .finished (some v.text)⟩
      ⟨printed ++ (v.text ++ "\n").toUTF8, .finished none⟩
  | truncated (v : Value) (printed : ByteArray) (left : Nat) :
    room ≠ none → left < (v.text ++ "\n").toUTF8.size →
    Agrees room (.evaluated v printed) ⟨printed, .finished (some v.text)⟩
      ⟨printed ++ (v.text ++ "\n").toUTF8.extract 0 left, .failed .outputFull⟩

/-- What evaluating an expression comes to. -/
def Evaluation.ofResult : EStateM.Result Fault Machine Value → Evaluation
  | .ok v m => .evaluated v m.printed
  | .error fault m => .failed fault m.printed

namespace Run

variable {e : Expr (Option Nat)} {m m' : Machine} {n : Nat}

/-- A line of an expression alone evaluates it. -/
theorem line_of_expression (n : Nat) (e : Expr (Option Nat)) :
    line (n + 1) ⟨[], some e⟩ = some <$> evaluate (n + 1) e := by
  rw [map_eq_pure_bind]
  rfl

/-- A program that prints an expression alone evaluates it and prints its text. -/
theorem line_of_print (n : Nat) (e : Expr (Option Nat)) :
    line (n + 2) ⟨[.print e], none⟩ = (do
      let v ← evaluate n e
      printLine v.text
      return none) := by
  funext m
  change (executeAll (n + 2) [.print e] >>= fun _ => pure none) m = _
  cases hx : evaluate n e m with
  | error fault m' =>
    have hexecute : execute (n + 1) (.print e) m = .error fault m' := bind_error hx
    have hall : executeAll (n + 2) [.print e] m = .error fault m' := bind_error hexecute
    rw [bind_error hall, bind_error hx]
  | ok v m' =>
    rw [bind_ok hx]
    cases hp : printLine v.text m' with
    | error fault m'' =>
      have hexecute : execute (n + 1) (.print e) m = .error fault m'' :=
        (bind_ok hx).trans (bind_error hp)
      have hall : executeAll (n + 2) [.print e] m = .error fault m'' := bind_error hexecute
      rw [bind_error hall, bind_error hp]
    | ok u m'' =>
      have hexecute : execute (n + 1) (.print e) m = .ok .proceed m'' :=
        (bind_ok hx).trans (bind_ok hp)
      have hall : executeAll (n + 2) [.print e] m = .ok .proceed m'' := bind_ok hexecute
      rw [bind_ok hall, bind_ok hp]

/-- A line is printed, or there is too little room and the bytes that fit are printed. -/
theorem printLine_cases (text : String) (m : Machine) :
    (∃ m', printLine text m = .ok () m' ∧ m'.printed = m.printed ++ (text ++ "\n").toUTF8) ∨
    ∃ left m', m.room = some left ∧ left < (text ++ "\n").toUTF8.size ∧
      printLine text m = .error .outputFull m' ∧
      m'.printed = m.printed ++ (text ++ "\n").toUTF8.extract 0 left := by
  rw [printLine_eq]
  generalize (text ++ "\n").toUTF8 = bytes
  unfold Machine.fits Machine.write
  cases m.room with
  | none => exact .inl ⟨_, if_pos rfl, rfl⟩
  | some left =>
    rcases Nat.lt_or_ge left bytes.size with hlt | hge
    · exact .inr ⟨left, _, rfl, hlt, if_neg (by simpa using hlt), rfl⟩
    · refine .inl ⟨_, if_pos (decide_eq_true hge), ?_⟩
      exact congrArg (m.printed ++ ·) (extract_of_size_le hge)

end Run

/-- The value is shown or printed, if there is room for it, or else the fault is the same. -/
theorem Evaluation.agrees_of_result {room : Option Nat} {e : Expr (Option Nat)} {m : Machine}
    {n : Nat} (hroom : m.room = room) :
    Agrees room (ofResult (Run.evaluate n e m)) (.ofResult ((some <$> Run.evaluate n e) m))
      (.ofResult ((do let v ← Run.evaluate n e; Run.printLine v.text; return none : Run _) m)) := by
  cases hx : Run.evaluate n e m with
  | error fault m' =>
    rw [map_eq_pure_bind, Run.bind_error hx, Run.bind_error hx]
    exact .failed fault m'.printed
  | ok v m' =>
    rw [map_eq_pure_bind, Run.bind_ok hx, Run.bind_ok hx]
    rcases Run.printLine_cases v.text m' with ⟨m₁, hprint, hprinted⟩ |
      ⟨left, m₁, hleft, hlt, hprint, hprinted⟩
    · rw [Run.bind_ok hprint]
      change Agrees room _ _ ⟨m₁.printed, _⟩
      rw [hprinted]
      exact .evaluated v m'.printed
    · have hlimited : room ≠ none := by
        -- unlimited room would have stayed unlimited
        intro hnone
        obtain ⟨W, hW⟩ := (Run.Truncates.compositional.holdsOn n).evaluate e m (hroom.trans hnone)
        have hsame := hW.room
        rw [Run.after_ok hx, hleft] at hsame
        cases hsame
      rw [Run.bind_error hprint]
      change Agrees room _ _ ⟨m₁.printed, _⟩
      rw [hprinted]
      exact .truncated v m'.printed left hlimited hlt

/-- Evaluations and runs that agree have all ended, or all run out of fuel. -/
theorem Evaluation.Agrees.ended_iff {room : Option Nat} {alone : Evaluation}
    {line program : Outcome} (h : Agrees room alone line program) :
    (alone.Ended ↔ line.Ended) ∧ (alone.Ended ↔ program.Ended) := by
  cases h with
  | unresolved => exact ⟨iff_of_true nofun nofun, iff_of_true nofun nofun⟩
  | evaluated => exact ⟨iff_of_true nofun nofun, iff_of_true nofun nofun⟩
  | truncated => exact ⟨iff_of_true nofun nofun, iff_of_true nofun nofun⟩
  | failed fault printed =>
    have hiff : (Evaluation.failed fault printed).Ended ↔
        Outcome.Ended ⟨printed, .failed fault⟩ := by
      refine not_iff_not.1 ?_
      unfold Evaluation.Ended Outcome.Ended
      simp
    exact ⟨hiff, hiff⟩

/-- The code of an expression that is read is evaluated, unless there are violations. -/
theorem Evaluation.ofTokens_of_read {tokens : List Token} {e : Expr Unit}
    (he : Expr.read tokens = .ok e) (m : Machine) (n : Nat) :
    ofTokens m n tokens = match (e.label 0).1.bindings with
      | .error es => unresolved es
      | .ok b => ofResult (Run.evaluate n ((e.label 0).1.link b) m) := by
  unfold ofTokens
  rw [he]
  dsimp only
  cases (e.label 0).1.bindings with
  | error es => rfl
  | ok b => rfl

/-- The code of a line that is read is run, unless there are violations. -/
theorem Session.outcome_of_read {tokens : List Token} {style : Style} {line : Line Unit}
    (h : style.read tokens = .ok line) (s : Session) (n : Nat) :
    (s.stepTokens n style tokens).1 = match (line.label s.nextSite).1.bindings with
      | .error es => ⟨.empty, .rejected (es.map ScopeError.diagnostic)⟩
      | .ok b => .ofResult (Run.line n ((line.label s.nextSite).1.link b) s.machine.unprinted) := by
  unfold stepTokens
  rw [h]
  dsimp only
  cases (line.label s.nextSite).1.bindings with
  | error es => rfl
  | ok b => exact outcome_perform _ n _

/-- A single expression is rejected in all three ways for its violations, or else its code is run in
all three: its sites have the same numbers, so they are bound in the same way. -/
theorem exists_code_of_read {tokens : List Token} {e : Expr Unit} (he : Expr.read tokens = .ok e)
    (first last : Nat) (clock : Nat → Float) (room : Option Nat) :
    let s := Session.start clock room
    let printing := Token.printing first last tokens
    (∃ es, ∀ n, Evaluation.ofTokens s.machine n tokens = .unresolved es ∧
      (s.stepTokens n .interactive tokens).1 =
        ⟨.empty, .rejected (es.map ScopeError.diagnostic)⟩ ∧
      (s.stepTokens n .program printing).1 =
        ⟨.empty, .rejected (es.map ScopeError.diagnostic)⟩) ∨
    ∃ code, ∀ n, Evaluation.ofTokens s.machine n tokens =
        .ofResult (Run.evaluate n code s.machine) ∧
      (s.stepTokens n .interactive tokens).1 =
        .ofResult (Run.line n ⟨[], some code⟩ s.machine) ∧
      (s.stepTokens n .program printing).1 =
        .ofResult (Run.line n ⟨[.print code], none⟩ s.machine) := by
  intro s printing
  have hline : Style.interactive.read tokens = .ok ⟨[], some e⟩ := Expr.read_eq_ok_iff_line.1 he
  have hprogram : Style.program.read printing = .ok ⟨[.print e], none⟩ := by
    rw [Style.read, Stmt.readAll_printing first last he]
    rfl
  have hshown : ((Line.mk [] (some e)).label s.nextSite).1.bindings = (e.label 0).1.bindings := rfl
  have hprinted : ((Line.mk [.print e] none).label s.nextSite).1.bindings =
      (e.label 0).1.bindings := rfl
  cases hb : (e.label 0).1.bindings with
  | error es =>
    refine .inl ⟨es, fun n => ⟨?_, ?_, ?_⟩⟩
    · rw [Evaluation.ofTokens_of_read he, hb]
    · rw [Session.outcome_of_read hline, hshown, hb]
    · rw [Session.outcome_of_read hprogram, hprinted, hb]
  | ok b =>
    refine .inr ⟨(e.label 0).1.link b, fun n => ⟨?_, ?_, ?_⟩⟩
    · rw [Evaluation.ofTokens_of_read he, hb]
    · rw [Session.outcome_of_read hline, hshown, hb]
      rfl
    · rw [Session.outcome_of_read hprogram, hprinted, hb]
      rfl

section

variable {m : Machine} {e : Expr (Option Nat)} {n : Nat}

theorem Evaluation.ended_ofResult : (ofResult (Run.evaluate n e m)).Ended ↔
    Run.Ended (Run.evaluate n e m) := by
  cases Run.evaluate n e m with
  | ok v m' => exact iff_of_true nofun nofun
  | error fault m' =>
    unfold Evaluation.Ended Run.Ended ofResult
    simp

/-- Three runs of an expression agree on any fuel on which they have ended. -/
theorem Evaluation.agrees_of_ended (room : Option Nat) (hroom : m.room = room) {n₁ n₂ n₃ : Nat}
    (h₁ : (ofResult (Run.evaluate n₁ e m)).Ended)
    (h₂ : (Outcome.ofResult (Run.line n₂ ⟨[], some e⟩ m)).Ended)
    (h₃ : (Outcome.ofResult (Run.line n₃ ⟨[.print e], none⟩ m)).Ended) :
    Agrees room (ofResult (Run.evaluate n₁ e m)) (.ofResult (Run.line n₂ ⟨[], some e⟩ m))
      (.ofResult (Run.line n₃ ⟨[.print e], none⟩ m)) := by
  have hagrees := fun n => agrees_of_result (e := e) (n := n) hroom
  -- a line and a program need some fuel in front of the expression
  rcases n₂ with _ | n₂
  · exact absurd rfl h₂
  rcases n₃ with _ | _ | n₃
  · exact absurd rfl h₃
  · exact absurd rfl h₃
  rw [Run.line_of_expression] at h₂ ⊢
  rw [Run.line_of_print] at h₃ ⊢
  have hended₁ := ended_ofResult.1 h₁
  have hended₂ := ended_ofResult.1 ((hagrees (n₂ + 1)).ended_iff.1.2 h₂)
  have hended₃ := ended_ofResult.1 ((hagrees n₃).ended_iff.2.2 h₃)
  rw [map_eq_pure_bind, Run.bind_congr (Run.evaluate_of_ended hended₁ hended₂),
    Run.bind_congr (Run.evaluate_of_ended hended₁ hended₃), ← map_eq_pure_bind]
  exact hagrees n₁

/-- An expression is evaluated to an end if a line with it is, and if a program is that prints
it. -/
theorem Evaluation.exists_ended_iff (e : Expr (Option Nat)) (m : Machine) :
    ((∃ n, (ofResult (Run.evaluate n e m)).Ended) ↔
      ∃ n, (Outcome.ofResult (Run.line n ⟨[], some e⟩ m)).Ended) ∧
    ((∃ n, (ofResult (Run.evaluate n e m)).Ended) ↔
      ∃ n, (Outcome.ofResult (Run.line n ⟨[.print e], none⟩ m)).Ended) := by
  have hagrees := fun n => (agrees_of_result (e := e) (m := m) (n := n) rfl).ended_iff
  refine ⟨⟨?_, ?_⟩, ?_, ?_⟩
  · rintro ⟨n, h⟩
    have hmore := (Run.extends_congruence.relatesOn (Nat.le_succ n)).evaluate e
    rw [← hmore.eq_of_ended (ended_ofResult.1 h)] at h
    refine ⟨n + 1, ?_⟩
    rw [Run.line_of_expression]
    exact (hagrees (n + 1)).1.1 h
  · rintro ⟨_ | n, h⟩
    · exact absurd rfl h
    · rw [Run.line_of_expression] at h
      exact ⟨n + 1, (hagrees (n + 1)).1.2 h⟩
  · rintro ⟨n, h⟩
    refine ⟨n + 2, ?_⟩
    rw [Run.line_of_print]
    exact (hagrees n).2.1 h
  · rintro ⟨_ | _ | n, h⟩
    · exact absurd rfl h
    · exact absurd rfl h
    · rw [Run.line_of_print] at h
      exact ⟨n, (hagrees n).2.2 h⟩

end

/-- **The three ways to evaluate an expression agree.** A single expression is read from tokens if
and only if it is read from them as a line, without statements in front. Sources without lexical
errors come to what their tokens come to. On a machine at its start the expression alone, the line,
and the program that prints it end on some fuel, or none of them does; where they have ended they
have the same violations, the same fault behind the same output, or the same value: the first two
return its text, the third prints it as its last line. -/
theorem ways_to_evaluate_agree (tokens : List Token) (first last : Nat) :
    (∀ e, Expr.read tokens = .ok e ↔ Line.read tokens = .ok ⟨[], some e⟩) ∧
    (∀ source, LexicalError.scan source = [] →
      (∀ m n, Evaluation.ofSource m n source = .ofTokens m n (Token.scan source)) ∧
      ∀ (s : Session) n style, s.step n style source = s.stepTokens n style (Token.scan source)) ∧
    ∀ e, Expr.read tokens = .ok e → ∀ clock room,
      let alone n := Evaluation.ofTokens (.start clock room) n tokens
      let line n := ((Session.start clock room).stepTokens n .interactive tokens).1
      let printing := Token.printing first last tokens
      let program n := ((Session.start clock room).stepTokens n .program printing).1
      ((∃ n, (alone n).Ended) ↔ ∃ n, (line n).Ended) ∧
      ((∃ n, (alone n).Ended) ↔ ∃ n, (program n).Ended) ∧
      ∀ n₁ n₂ n₃, (alone n₁).Ended → (line n₂).Ended → (program n₃).Ended →
        Evaluation.Agrees room (alone n₁) (line n₂) (program n₃) := by
  refine ⟨fun e => Expr.read_eq_ok_iff_line, fun source h => ⟨Evaluation.ofSource_eq h,
    fun s n style => s.step_eq h n style⟩, ?_⟩
  intro e he clock room alone line printing program
  rcases exists_code_of_read he first last clock room with ⟨es, h⟩ | ⟨code, h⟩
  · have hagrees : ∀ n₁ n₂ n₃, Evaluation.Agrees room (alone n₁) (line n₂) (program n₃) := by
      intro n₁ n₂ n₃
      rw [show alone n₁ = _ from (h n₁).1, show line n₂ = _ from (h n₂).2.1,
        show program n₃ = _ from (h n₃).2.2]
      exact .unresolved es
    have hended := fun n => (hagrees n n n).ended_iff
    exact ⟨exists_congr fun n => (hended n).1, exists_congr fun n => (hended n).2,
      fun n₁ n₂ n₃ _ _ _ => hagrees n₁ n₂ n₃⟩
  · have halone : alone = fun n => .ofResult (Run.evaluate n code (.start clock room)) :=
      funext fun n => (h n).1
    have hline : line = fun n => .ofResult (Run.line n ⟨[], some code⟩ (.start clock room)) :=
      funext fun n => (h n).2.1
    have hprogram : program =
        fun n => .ofResult (Run.line n ⟨[.print code], none⟩ (.start clock room)) :=
      funext fun n => (h n).2.2
    rw [halone, hline, hprogram]
    have hended := Evaluation.exists_ended_iff code (.start clock room)
    exact ⟨hended.1, hended.2, fun n₁ n₂ n₃ => Evaluation.agrees_of_ended room rfl⟩

/-- The expression `-true` fails in all three ways with the same fault. -/
theorem negated_truth_in_three_ways :
    let tokens := Token.scan "-true"
    let s := Session.start (fun _ => 0) none
    let fault := Fault.runtime 1 .operandNumber
    (∃ e, Expr.read tokens = .ok e) ∧
    Evaluation.ofTokens s.machine 3 tokens = .failed fault .empty ∧
    Evaluation.Agrees none (Evaluation.ofTokens s.machine 3 tokens)
      (s.stepTokens 3 .interactive tokens).1
      (s.stepTokens 5 .program (Token.printing 1 1 tokens)).1 := by
  have hread : ∃ e, Expr.read (Token.scan "-true") = .ok e := ⟨_, by cbv⟩
  have halone : Evaluation.ofTokens (Session.start (fun _ => 0) none).machine 3
      (Token.scan "-true") = .failed (.runtime 1 .operandNumber) .empty := by cbv
  have hline : ((Session.start (fun _ => 0) none).stepTokens 3 .interactive
      (Token.scan "-true")).1 = ⟨.empty, .failed (.runtime 1 .operandNumber)⟩ := by cbv
  have hprogram : ((Session.start (fun _ => 0) none).stepTokens 5 .program
      (Token.printing 1 1 (Token.scan "-true"))).1 =
        ⟨.empty, .failed (.runtime 1 .operandNumber)⟩ := by cbv
  obtain ⟨e, he⟩ := hread
  have hagrees := ((ways_to_evaluate_agree (Token.scan "-true") 1 1).2.2 e he (fun _ => 0) none).2.2
  refine ⟨⟨e, he⟩, halone, hagrees 3 3 5 ?_ ?_ ?_⟩
  · exact fun printed h => by cases halone.symm.trans h
  · exact fun h => by cases (congrArg Outcome.ending hline).symm.trans h
  · exact fun h => by cases (congrArg Outcome.ending hprogram).symm.trans h

end LoxLang
