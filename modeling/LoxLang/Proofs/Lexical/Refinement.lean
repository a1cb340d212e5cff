import LoxLang.Proofs.Lexical.Simulation
import LoxLang.Proofs.Run.Session

/-!
# Distances refine links
-/

namespace LoxLang

/-- Statements that end alike. -/
inductive Flow.Agrees (w : Depths) : Flow → Flow → Prop
  | proceed : Agrees w .proceed .proceed
  | returned {v v' : Value} : v.Agrees w v' → Agrees w (.returned v) (.returned v')

/-- Lists of values that agree one by one. -/
def SameValues (w : Depths) (vs vs' : List Value) : Prop := List.Forall₂ (Value.Agrees w) vs vs'

theorem SameValues.mono {w w' : Depths} {vs vs' : List Value} (h : SameValues w vs vs')
    (hw : w <+: w') : SameValues w' vs vs' :=
  List.Forall₂.imp (fun _ _ hv => hv.mono hw) h

/-- Parameters get values that agree. -/
theorem Table.Rel.ofArgs {w : Depths} {args args' : List Value} (h : SameValues w args args')
    (params : List String) :
    Table.Rel (Value.Agrees w)
      ((params.zip args).foldl (fun t p => t.insert p.1 p.2) Table.empty)
      ((params.zip args').foldl (fun t p => t.insert p.1 p.2) Table.empty) := by
  suffices hfold : ∀ t t' : Table Value, t.Rel (Value.Agrees w) t' → Table.Rel (Value.Agrees w)
      ((params.zip args).foldl (fun t p => t.insert p.1 p.2) t)
      ((params.zip args').foldl (fun t p => t.insert p.1 p.2) t') from hfold _ _ .empty
  induction params generalizing args args' with
  | nil => exact fun _ _ ht => ht
  | cons p params ih =>
    intro t t' ht
    cases h with
    | nil => exact ht
    | cons hv hvs => exact ih hvs _ _ (ht.insert p hv)

/-- All that runs on the given fuel runs in step with the reference interpreter. -/
structure SimulatesOn (n : Nat) : Prop where
  evaluate : ∀ {w : Depths} {Γ : Context} {e : Expr (Option Nat)},
    Node.Everywhere Node.Resolved Γ (.expr e) →
    Simulates w Γ.length SameValue (Run.evaluate n e) (Lexical.evaluate n (e.linkIn Γ.names))
  evaluateAll : ∀ {w : Depths} {Γ : Context} {es : List (Expr (Option Nat))},
    (∀ e ∈ es, Node.Everywhere Node.Resolved Γ (.expr e)) →
    Simulates w Γ.length SameValues (Run.evaluateAll n es)
      (Lexical.evaluateAll n (Expr.linkAllIn Γ.names es))
  call : ∀ {w : Depths} {k : Nat} {f f' : Value} {args args' : List Value} (paren : Token),
    f.Agrees w f' → SameValues w args args' →
    Simulates w k SameValue (Run.call n f paren args) (Lexical.call n f' paren args')
  apply : ∀ {w : Depths} {k : Nat} {f f' : Callee} {args args' : List Value},
    f.Agrees w f' → SameValues w args args' →
    Simulates w k SameValue (Run.apply n f args) (Lexical.apply n f' args')
  invoke : ∀ {w : Depths} {k : Nat} {r r' : Routine} {args args' : List Value},
    r.Agrees w [] r' → SameValues w args args' →
    Simulates w k SameValue (Run.invoke n r args) (Lexical.invoke n r' args')
  executeAll : ∀ {w : Depths} {Γ : Context} {ss : List Code},
    Node.Everywhere Node.Resolved Γ (.stmts ss) →
    Simulates w Γ.length Flow.Agrees (Run.executeAll n ss)
      (Lexical.executeAll n (Stmt.linkAllIn Γ.names ss))
  execute : ∀ {w : Depths} {Γ : Context} {s : Code},
    Node.Everywhere Node.Resolved Γ (.stmt s) →
    Simulates w Γ.length Flow.Agrees (Run.execute n s) (Lexical.execute n (s.linkIn Γ.names))

namespace SimulatesOn

open Simulates

variable {n k : Nat} {w : Depths} {Γ : Context}

theorem evaluate_succ (ih : SimulatesOn n) {e : Expr (Option Nat)}
    (h : Node.Everywhere Node.Resolved Γ (.expr e)) :
    Simulates w Γ.length SameValue (Run.evaluate (n + 1) e)
      (Lexical.evaluate (n + 1) (e.linkIn Γ.names)) := by
  cases e with
  | literal v => exact Simulates.pure (Value.Agrees.ofLiteral v)
  | group e => exact ih.evaluate (h.child List.mem_cons_self)
  | unary op e =>
    refine bind (ih.evaluate (h.child List.mem_cons_self)) fun w' hw v v' hv => ?_
    exact check op (hv.unary op.kind)
  | binary op a b =>
    refine bind (ih.evaluate (h.child List.mem_cons_self)) fun w' hw x x' hx => ?_
    refine bind (ih.evaluate (h.child (List.mem_cons_of_mem _ List.mem_cons_self)))
      fun w'' hw' y y' hy => ?_
    exact check op ((hx.mono hw').binary op.kind hy)
  | logical op a b =>
    refine bind (ih.evaluate (h.child List.mem_cons_self)) fun w' hw x x' hx => ?_
    have hb := ih.evaluate (w := w') (h.child (List.mem_cons_of_mem _ List.mem_cons_self))
    rw [hx.isTruthy]
    split
    · exact Simulates.pure hx
    · exact hb
  | ref site => exact lookUp h.here.1
  | this site => exact lookUp h.here.1
  | assign site e =>
    refine bind (ih.evaluate (h.child List.mem_cons_self)) fun w' hw v v' hv => ?_
    exact bind (assign h.here hv) fun w'' hw' _ _ _ => Simulates.pure (hv.mono hw')
  | call f paren args =>
    refine bind (ih.evaluate (h.child List.mem_cons_self)) fun w' hw f f' hf => ?_
    refine bind (ih.evaluateAll fun e he =>
      h.child (List.mem_cons_of_mem _ (List.mem_map_of_mem he))) fun w'' hw' vs vs' hvs => ?_
    exact ih.call paren (hf.mono hw') hvs
  | get e name =>
    refine bind (ih.evaluate (h.child List.mem_cons_self)) fun w' hw v v' hv => ?_
    exact getProperty hv name
  | set e name e' =>
    refine bind (ih.evaluate (h.child List.mem_cons_self)) fun w' hw v v' hv => ?_
    cases hv with
    | object address hc =>
      refine bind (ih.evaluate (h.child (List.mem_cons_of_mem _ List.mem_cons_self)))
        fun w'' hw' u u' hu => ?_
      refine bind (setField (.object address (hc.mono hw')) name.lexeme hu)
        fun w''' hw'' _ _ _ => Simulates.pure (hu.mono hw'')
    | nil | bool | number | string | clock | function | cls => exact fail name _
  | super site method => exact superMethod h.here.1 method
  | lambda params body => exact newFunction none params (h.child List.mem_cons_self)

theorem call_succ (ih : SimulatesOn n) {f f' : Value} {args args' : List Value} (paren : Token)
    (hf : f.Agrees w f') (hargs : SameValues w args args') :
    Simulates w k SameValue (Run.call (n + 1) f paren args)
      (Lexical.call (n + 1) f' paren args') := by
  have hcallee := hf.callee?
  have hlen : args'.length = args.length := (List.Forall₂.length_eq hargs).symm
  unfold Run.call Lexical.call
  generalize f.callee? = c at hcallee ⊢
  generalize f'.callee? = c' at hcallee ⊢
  cases hcallee with
  | none => exact fail paren _
  | some hc =>
    dsimp only
    rw [hc.arity, hlen]
    split
    · exact fail paren _
    · refine bind get fun w' hw m s hms => ?_
      rw [hms.depth]
      split
      · exact fail paren _
      · exact inCall (ih.apply (hc.mono hw) (hargs.mono hw))

theorem apply_succ (ih : SimulatesOn n) {f f' : Callee} {args args' : List Value}
    (hf : f.Agrees w f') (hargs : SameValues w args args') :
    Simulates w k SameValue (Run.apply (n + 1) f args) (Lexical.apply (n + 1) f' args') := by
  cases hf with
  | clock => exact readClock
  | routine hr => exact ih.invoke hr hargs
  | @construct c c' hc =>
    refine bind (newObject hc) fun w' hw o o' ho => ?_
    have hinit := (hc.mono hw).method? initName
    generalize c.method? initName = r at hinit ⊢
    generalize c'.method? initName = r' at hinit ⊢
    cases hinit with
    | none => exact Simulates.pure ho
    | some hr =>
      refine bind (bindMethod hr ho) fun w'' hw' b b' hb => ?_
      have hargs' := (hargs.mono hw).mono hw'
      exact bind (ih.invoke hb hargs') fun w''' hw'' _ _ _ =>
        Simulates.pure ((ho.mono hw').mono hw'')

theorem invoke_succ (ih : SimulatesOn n) {r r' : Routine} {args args' : List Value}
    (hr : r.Agrees w [] r') (hargs : SameValues w args args') :
    Simulates w k SameValue (Run.invoke (n + 1) r args) (Lexical.invoke (n + 1) r' args') := by
  obtain ⟨Γ, kind, hΓ, hcode, hlink⟩ := hr.code
  unfold Run.invoke Lexical.invoke
  rw [hr.params, hr.frame, hr.isInit, hlink]
  refine bind (createFrame (.ofArgs hargs r.params) hΓ) fun w' hw i j ⟨hij, hi⟩ => ?_
  cases hij
  refine bind (inFrame hi (ih.executeAll hcode)) fun w'' hw' flow flow' hflow => ?_
  split
  · exact receiver r.frame
  · cases hflow with
    | proceed => exact Simulates.pure .nil
    | returned hv => exact Simulates.pure hv

theorem execute_succ (ih : SimulatesOn n) {s : Code}
    (h : Node.Everywhere Node.Resolved Γ (.stmt s)) :
    Simulates w Γ.length Flow.Agrees (Run.execute (n + 1) s)
      (Lexical.execute (n + 1) (s.linkIn Γ.names)) := by
  cases s with
  | expression e =>
    exact bind (ih.evaluate (h.child List.mem_cons_self)) fun _ _ _ _ _ => Simulates.pure .proceed
  | print e =>
    refine bind (ih.evaluate (h.child List.mem_cons_self)) fun w' hw v v' hv => ?_
    rw [hv.text]
    exact bind (printLine v.text) fun _ _ _ _ _ => Simulates.pure .proceed
  | var name init =>
    cases init with
    | none => exact bind (define name.lexeme .nil) fun _ _ _ _ _ => Simulates.pure .proceed
    | some e =>
      have he := ih.evaluate (w := w) (h.child List.mem_cons_self)
      rw [Context.length_begin, Context.names_begin] at he
      refine bind he fun w' hw v v' hv => ?_
      exact bind (define name.lexeme hv) fun _ _ _ _ _ => Simulates.pure .proceed
  | block body =>
    refine bind get fun w' hw m s hms => ?_
    rw [hms.current]
    refine bind (createFrame .empty hms.here) fun w'' hw' i j ⟨hij, hi⟩ => ?_
    cases hij
    exact inFrame hi (ih.executeAll (h.child List.mem_cons_self))
  | cond test yes no =>
    cases no with
    | none =>
      refine bind (ih.evaluate (h.child List.mem_cons_self)) fun w' hw v v' hv => ?_
      have hyes := ih.execute (w := w') (h.child (List.mem_cons_of_mem _ List.mem_cons_self))
      rw [hv.isTruthy]
      split
      · exact hyes
      · exact Simulates.pure .proceed
    | some no =>
      refine bind (ih.evaluate (h.child List.mem_cons_self)) fun w' hw v v' hv => ?_
      have hyes := ih.execute (w := w') (h.child (List.mem_cons_of_mem _ List.mem_cons_self))
      have hno := ih.execute (w := w') (h.child
        (List.mem_cons_of_mem _ (List.mem_cons_of_mem _ List.mem_cons_self)))
      rw [Context.length_after, Context.names_after] at hno
      rw [hv.isTruthy]
      split
      · exact hyes
      · exact hno
  | loop test body =>
    refine bind (ih.evaluate (h.child List.mem_cons_self)) fun w' hw v v' hv => ?_
    have hbody := ih.execute (w := w') (h.child (List.mem_cons_of_mem _ List.mem_cons_self))
    rw [hv.isTruthy]
    split
    · refine bind hbody fun w'' hw' flow flow' hflow => ?_
      cases hflow with
      | proceed => exact ih.execute h
      | returned hv => exact Simulates.pure (.returned hv)
    · exact Simulates.pure .proceed
  | function name params body =>
    have hf := newFunction (w := w) (some name.lexeme) params (h.child List.mem_cons_self)
    rw [Context.length_declare, Context.names_declare] at hf
    refine bind hf fun w' hw f f' hf => ?_
    exact bind (define name.lexeme hf) fun _ _ _ _ _ => Simulates.pure .proceed
  | ret keyword value =>
    cases value with
    | none => exact Simulates.pure (.returned .nil)
    | some e =>
      refine bind (ih.evaluate (h.child List.mem_cons_self)) fun w' hw v v' hv => ?_
      exact Simulates.pure (.returned hv)
  | classDecl name superclass methods =>
    exact bind (declareClass h) fun _ _ _ _ _ => Simulates.pure .proceed

end SimulatesOn

/-- Every run is in step with the reference interpreter, by induction on the fuel. -/
theorem simulatesOn (n : Nat) : SimulatesOn n := by
  induction n with
  | zero =>
    exact ⟨fun _ => .throw _, fun _ => .throw _, fun _ _ _ => .throw _, fun _ _ => .throw _,
      fun _ _ => .throw _, fun _ => .throw _, fun _ => .throw _⟩
  | succ n ih =>
    refine ⟨ih.evaluate_succ, fun {w Γ es} h => ?_, ih.call_succ, ih.apply_succ, ih.invoke_succ,
      fun {w Γ ss} h => ?_, ih.execute_succ⟩
    · cases es with
      | nil => exact .pure .nil
      | cons e es =>
        refine .bind (ih.evaluate (h e List.mem_cons_self)) fun w' hw v v' hv => ?_
        have hes := ih.evaluateAll (w := w') fun e he => h e (List.mem_cons_of_mem _ he)
        exact .bind hes fun w'' hw' vs vs' hvs => .pure (.cons (hv.mono hw') hvs)
    · cases ss with
      | nil => exact .pure .proceed
      | cons s ss =>
        refine .bind (ih.execute (h.child List.mem_cons_self)) fun w' hw flow flow' hflow => ?_
        cases hflow with
        | proceed =>
          have hss := ih.executeAll (w := w')
            (h.child (List.mem_cons_of_mem _ List.mem_cons_self))
          rw [Context.length_after, Context.names_after] at hss
          exact hss
        | returned hv => exact .pure (.returned hv)

/-! ## Sessions -/

/-- A line that resolving has accepted runs in step with the line linked by its text. -/
theorem Simulates.line (n : Nat) {w : Depths} {line : Line (Option Nat)}
    (h : line.Everywhere Node.Resolved) :
    Simulates w 0 (fun w' => Option.Rel (Value.Agrees w')) (Run.line n line)
      (Lexical.line n line.linkByText) := by
  obtain ⟨ss, trailing⟩ := line
  refine bind ((simulatesOn n).executeAll h.1) fun w' hw _ _ _ => ?_
  cases trailing with
  | none => exact .pure .none
  | some e =>
    exact bind ((simulatesOn n).evaluate (h.2 e rfl)) fun w'' hw' v v' hv => .pure (.some hv)

/-- A machine and a state of the reference interpreter between two sources of a session. -/
structure Session.Agrees (s : Session) (s' : Lexical.Session) : Prop where
  nextSite : s'.nextSite = s.nextSite
  state : ∃ w, Agree w 0 s.machine s'.state

theorem Session.Agrees.start (clock : Nat → Float) (room : Option Nat) :
    (Session.start clock room).Agrees (Lexical.Session.start clock room) := by
  refine ⟨rfl, [0], ?_⟩
  refine ⟨rfl, rfl, fun i hi => ?_, fun i name => ?_, fun a => ?_, rfl, rfl, rfl, rfl, rfl, rfl,
    rfl, rfl⟩
  · obtain rfl : i = 0 := Nat.lt_one_iff.1 hi
    exact ⟨rfl, .inl ⟨rfl, rfl, rfl⟩⟩
  · cases i with
    | zero => exact Table.Rel.single "clock" .clock name
    | succ i => exact .none
  · exact .none

/-- A line that is accepted comes to the same outcome. -/
theorem Session.Agrees.perform {s : Session} {s' : Lexical.Session} (h : s.Agrees s') (fuel : Nat)
    {line : Line (Option Nat)} (hline : line.Everywhere Node.Resolved) :
    (s'.perform fuel line.linkByText).1 = (s.perform fuel line).1 ∧
      (s.perform fuel line).2.Agrees (s'.perform fuel line.linkByText).2 := by
  obtain ⟨hnext, w, hms⟩ := h
  have hunprinted : Agree w 0 s.machine.unprinted { s'.state with printed := .empty } :=
    { hms with printed := rfl }
  have hends := Simulates.line fuel hline _ _ hunprinted
  rw [Session.perform_eq]
  unfold Lexical.Session.perform
  generalize Run.line fuel line s.machine.unprinted = a at hends ⊢
  generalize Lexical.line fuel line.linkByText { s'.state with printed := .empty } = b at hends ⊢
  cases hends with
  | @ok w' m s₁ v v' hw hms' hv =>
    have htext : v'.map Value.text = v.map Value.text := by
      cases hv with
      | some hv => exact congrArg some hv.text
      | none => rfl
    refine ⟨?_, hnext, w', hms'⟩
    dsimp only
    rw [hms'.printed, htext]
  | @error w' m s₁ e hw hms' =>
    refine ⟨?_, hnext, w', hms'⟩
    dsimp only
    rw [hms'.printed]

/-- A source comes to the same outcome. -/
theorem Session.Agrees.step {s : Session} {s' : Lexical.Session} (h : s.Agrees s') (fuel : Nat)
    (style : Style) (source : String) :
    (s'.step fuel style source).1 = (s.step fuel style source).1 ∧
      (s.step fuel style source).2.Agrees (s'.step fuel style source).2 := by
  unfold Session.step Lexical.Session.step
  rw [h.nextSite]
  cases hread : style.readSource s.nextSite source with
  | error ds => exact ⟨rfl, h⟩
  | ok read =>
    obtain ⟨line, next⟩ := read
    obtain ⟨bare, -, rfl⟩ := Style.readSource_eq_ok hread
    dsimp only
    cases hb : (bare.label s.nextSite).1.bindings with
    | error es => exact ⟨rfl, rfl, h.state⟩
    | ok b =>
      have hlink : ((bare.label s.nextSite).1.link b).linkByText =
          (bare.label s.nextSite).1.linkByText := Line.linkByText_map ..
      have hnext : Session.Agrees ⟨s.machine, next⟩ ⟨s'.state, next⟩ := ⟨rfl, h.state⟩
      have hperform := hnext.perform fuel (bare.resolved_of_bindings s.nextSite hb)
      rw [hlink] at hperform
      exact hperform

/-- **Distances and chains of frames implement static scope.** -/
theorem outcomes_eq_reference (clock : Nat → Float) (room : Option Nat) (fuel : Nat)
    (sources : List (Style × String)) :
    ((Session.start clock room).steps fuel sources).1 =
      ((Lexical.Session.start clock room).steps fuel sources).1 := by
  suffices hsteps : ∀ {s : Session} {s' : Lexical.Session}, s.Agrees s' →
      (s.steps fuel sources).1 = (s'.steps fuel sources).1 from hsteps (.start clock room)
  induction sources with
  | nil => exact fun _ => rfl
  | cons source sources ih =>
    intro s s' h
    obtain ⟨style, source⟩ := source
    obtain ⟨houtcome, hnext⟩ := h.step fuel style source
    exact congrArg₂ List.cons houtcome.symm (ih hnext)

end LoxLang
