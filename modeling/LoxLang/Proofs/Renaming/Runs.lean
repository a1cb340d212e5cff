import LoxLang.Proofs.Renaming.Bindings
import LoxLang.Proofs.Renaming.Simulation
import LoxLang.Proofs.Run.Session
import Mathlib

/-!
# Renaming locals is unobservable

A program and the program in which a local variable has another name, one that occurs nowhere in it,
run in step on any fuel (`Renaming.simulatesOn`). So the renamed program is accepted with the same
bindings, prints the same and ends alike; only the message about an undefined variable may quote the
new name (`renaming_unobservable`).
-/

namespace LoxLang

namespace Renaming

/-- Ends of statements that differ in a renaming alone. -/
inductive Flows (ρ : Renaming) (g : Nat → Option Nat) (W : World) : Flow → Flow → Prop
  | proceed : Flows ρ g W .proceed .proceed
  | returned {v v' : Value} : ρ.Values g W v v' → Flows ρ g W (.returned v) (.returned v')

/-- Lists of values that differ in a renaming alone, one by one. -/
def ValueLists (ρ : Renaming) (g : Nat → Option Nat) (W : World) (vs vs' : List Value) : Prop :=
  List.Forall₂ (ρ.Values g W) vs vs'

variable {ρ : Renaming} {g : Nat → Option Nat}

theorem ValueLists.mono {W W' : World} {vs vs' : List Value} (h : ρ.ValueLists g W vs vs')
    (hW : W <+: W') : ρ.ValueLists g W' vs vs' :=
  List.Forall₂.imp (fun _ _ hv => Values.mono hv hW) h

/-- Parameters get related values, each under its name. -/
theorem Tables.ofArgs {W : World} {args args' : List Value} (h : ρ.ValueLists g W args args')
    (picked : Bool) {params : List Token} (hparams : ∀ p ∈ params, p.lexeme ≠ ρ.new) :
    ρ.Tables picked (ρ.Values g W)
      (((params.map Token.lexeme).zip args).foldl (fun t p => t.insert p.1 p.2) Table.empty)
      ((((params.map (ρ.token picked)).map Token.lexeme).zip args').foldl
        (fun t p => t.insert p.1 p.2) Table.empty) := by
  suffices hfold : ∀ t t' : Table Value, ρ.Tables picked (ρ.Values g W) t t' →
      ρ.Tables picked (ρ.Values g W)
        (((params.map Token.lexeme).zip args).foldl (fun t p => t.insert p.1 p.2) t)
        ((((params.map (ρ.token picked)).map Token.lexeme).zip args').foldl
          (fun t p => t.insert p.1 p.2) t') from
    hfold _ _ .empty
  induction params generalizing args args' with
  | nil => exact fun _ _ ht => ht
  | cons p params ih =>
    obtain ⟨hp, hparams⟩ := List.forall_mem_cons.1 hparams
    intro t t' ht
    cases h with
    | nil => exact ht
    | cons hv hvs => exact ih hvs hparams _ _ (ht.insert hp hv)

/-- All that runs on the given fuel is in step with its renaming. -/
structure SimulatesOn (ρ : Renaming) (g : Nat → Option Nat) (n : Nat) : Prop where
  evaluate : ∀ {W : World} {δ : Flags} {e : Expr Nat} (c : Choice), e.Lacks ρ.new →
    ρ.Simulates g W δ (ρ.Values g) (Run.evaluate n (e.map g))
      (Run.evaluate n ((e.rename ρ g δ c).map g))
  evaluateAll : ∀ {W : World} {δ : Flags} {es : List (Expr Nat)} (c : Choice),
    Expr.LacksAll ρ.new es →
    ρ.Simulates g W δ (ρ.ValueLists g) (Run.evaluateAll n (Expr.mapAll g es))
      (Run.evaluateAll n (Expr.mapAll g (Expr.renameAll ρ g δ c es)))
  call : ∀ {W : World} {δ : Flags} {f f' : Value} {args args' : List Value} (paren : Token),
    ρ.Values g W f f' → ρ.ValueLists g W args args' →
    ρ.Simulates g W δ (ρ.Values g) (Run.call n f paren args) (Run.call n f' paren args')
  apply : ∀ {W : World} {δ : Flags} {f f' : Callee} {args args' : List Value},
    ρ.Callees g W f f' → ρ.ValueLists g W args args' →
    ρ.Simulates g W δ (ρ.Values g) (Run.apply n f args) (Run.apply n f' args')
  invoke : ∀ {W : World} {δ : Flags} {r r' : Routine} {args args' : List Value},
    ρ.Routines g W [] r r' → ρ.ValueLists g W args args' →
    ρ.Simulates g W δ (ρ.Values g) (Run.invoke n r args) (Run.invoke n r' args')
  executeAll : ∀ {W : World} {δ : Flags} {ss : List (Stmt Nat)} (c : Choice),
    Stmt.LacksAll ρ.new ss → (δ.here = true → ρ.old ∉ Stmt.routinesAll ss) →
    ρ.Simulates g W δ (ρ.Flows g) (Run.executeAll n (Stmt.mapAll g ss))
      (Run.executeAll n (Stmt.mapAll g (Stmt.renameAll ρ g δ c ss)))
  execute : ∀ {W : World} {δ : Flags} {s : Stmt Nat} (c : Choice), s.Lacks ρ.new →
    (δ.here = true → ρ.old ∉ s.routines) →
    ρ.Simulates g W δ (ρ.Flows g) (Run.execute n (s.map g))
      (Run.execute n ((s.rename ρ g δ c).map g))

namespace SimulatesOn

open Renaming.Simulates

variable {n : Nat} {W : World} {δ : Flags}

theorem evaluate_succ (ih : ρ.SimulatesOn g n) {e : Expr Nat} (c : Choice) (h : e.Lacks ρ.new) :
    ρ.Simulates g W δ (ρ.Values g) (Run.evaluate (n + 1) (e.map g))
      (Run.evaluate (n + 1) ((e.rename ρ g δ c).map g)) := by
  cases e with
  | literal v => exact Simulates.pure (.ofLiteral v)
  | group e => exact ih.evaluate c h
  | unary op e =>
    exact bind (ih.evaluate c h) fun W₁ hW₁ v v' hv => check op (hv.unary op.kind)
  | binary op a b =>
    refine bind (ih.evaluate (c.part 0) h.1) fun W₁ hW₁ x x' hx => ?_
    refine bind (ih.evaluate (c.part 1) h.2) fun W₂ hW₂ y y' hy => ?_
    exact check op ((Values.mono hx hW₂).binary op.kind hy)
  | logical op a b =>
    refine bind (ih.evaluate (c.part 0) h.1) fun W₁ hW₁ x x' hx => ?_
    have hb := ih.evaluate (W := W₁) (δ := δ) (c.part 1) h.2
    rw [hx.isTruthy]
    split
    · exact Simulates.pure hx
    · exact hb
  | ref s => exact lookUp h
  | this s => exact lookUp h
  | assign s e =>
    refine bind (ih.evaluate c h.2) fun W₁ hW₁ v v' hv => ?_
    exact bind (assign h.1 hv) fun W₂ hW₂ _ _ _ => Simulates.pure (Values.mono hv hW₂)
  | call f paren args =>
    refine bind (ih.evaluate (c.part 0) h.1) fun W₁ hW₁ f f' hf => ?_
    refine bind (ih.evaluateAll (c.part 1) h.2) fun W₂ hW₂ vs vs' hvs => ?_
    exact ih.call paren (Values.mono hf hW₂) hvs
  | get e name =>
    exact bind (ih.evaluate c h) fun W₁ hW₁ v v' hv => getProperty hv name
  | set e name e' =>
    refine bind (ih.evaluate (c.part 0) h.1) fun W₁ hW₁ v v' hv => ?_
    cases hv with
    | object address hc =>
      refine bind (ih.evaluate (c.part 1) h.2) fun W₂ hW₂ u u' hu => ?_
      refine bind (setField (.object address (Classes.mono hc hW₂)) name.lexeme hu)
        fun W₃ hW₃ _ _ _ => Simulates.pure (Values.mono hu hW₃)
    | nil | bool | number | string | clock | function | cls => exact fail name _
  | super s method => exact superMethod s method
  | lambda params body => exact newFunction none c h.1 h.2

theorem evaluateAll_succ (ih : ρ.SimulatesOn g n) {es : List (Expr Nat)} (c : Choice)
    (h : Expr.LacksAll ρ.new es) :
    ρ.Simulates g W δ (ρ.ValueLists g) (Run.evaluateAll (n + 1) (Expr.mapAll g es))
      (Run.evaluateAll (n + 1) (Expr.mapAll g (Expr.renameAll ρ g δ c es))) := by
  cases es with
  | nil => exact .pure .nil
  | cons e es =>
    refine bind (ih.evaluate (c.part 0) h.1) fun W₁ hW₁ v v' hv => ?_
    exact bind (ih.evaluateAll (c.part 1) h.2) fun W₂ hW₂ vs vs' hvs =>
      Simulates.pure (.cons (Values.mono hv hW₂) hvs)

theorem call_succ (ih : ρ.SimulatesOn g n) {f f' : Value} {args args' : List Value} (paren : Token)
    (hf : ρ.Values g W f f') (hargs : ρ.ValueLists g W args args') :
    ρ.Simulates g W δ (ρ.Values g) (Run.call (n + 1) f paren args)
      (Run.call (n + 1) f' paren args') := by
  have hcallee := hf.callee?
  have hlen : args'.length = args.length := (List.Forall₂.length_eq hargs).symm
  unfold Run.call
  generalize f.callee? = callee at hcallee ⊢
  generalize f'.callee? = callee' at hcallee ⊢
  cases hcallee with
  | none => exact fail paren _
  | some hc =>
    dsimp only
    rw [Callees.arity hc, hlen]
    split
    · exact fail paren _
    · refine bind get fun W₁ hW₁ m m' hm => ?_
      rw [hm.depth]
      split
      · exact fail paren _
      · exact inCall (ih.apply (Callees.mono hc hW₁) (hargs.mono hW₁))

theorem apply_succ (ih : ρ.SimulatesOn g n) {f f' : Callee} {args args' : List Value}
    (hf : ρ.Callees g W f f') (hargs : ρ.ValueLists g W args args') :
    ρ.Simulates g W δ (ρ.Values g) (Run.apply (n + 1) f args) (Run.apply (n + 1) f' args') := by
  cases hf with
  | clock => exact readClock
  | routine hr => exact ih.invoke hr hargs
  | @construct c c' hc =>
    refine bind (newObject hc) fun W₁ hW₁ o o' ho => ?_
    have hinit := (Classes.mono hc hW₁).method? initName
    generalize c.method? initName = r at hinit ⊢
    generalize c'.method? initName = r' at hinit ⊢
    cases hinit with
    | none => exact Simulates.pure ho
    | some hr =>
      refine bind (bindMethod hr ho) fun W₂ hW₂ b b' hb => ?_
      exact bind (ih.invoke hb ((hargs.mono hW₁).mono hW₂)) fun W₃ hW₃ _ _ _ =>
        Simulates.pure (Values.mono (Values.mono ho hW₂) hW₃)

theorem invoke_succ (ih : ρ.SimulatesOn g n) {r r' : Routine} {args args' : List Value}
    (hr : ρ.Routines g W [] r r') (hargs : ρ.ValueLists g W args args') :
    ρ.Simulates g W δ (ρ.Values g) (Run.invoke (n + 1) r args) (Run.invoke (n + 1) r' args') := by
  obtain ⟨Δ, c, params, body, hΔ, ht⟩ := hr.code
  unfold Run.invoke
  rw [hr.frame, hr.isInit, ht.params_eq, ht.params_eq', ht.body_eq, ht.body_eq']
  refine bind (createFrame (ρ.picks c body) (.ofArgs hargs _ ht.params_lack) hΔ)
    fun W₁ hW₁ i j ⟨hij, hi⟩ => ?_
  cases hij
  refine bind (inFrame hi (ih.executeAll c ht.body_lacks not_mem_routines))
    fun W₂ hW₂ flow flow' hflow => ?_
  split
  · exact receiver (getElem?_of_extends (hW₁.trans hW₂) hΔ)
  · cases hflow with
    | proceed => exact Simulates.pure .nil
    | returned hv => exact Simulates.pure hv

theorem executeAll_succ (ih : ρ.SimulatesOn g n) {ss : List (Stmt Nat)} (c : Choice)
    (h : Stmt.LacksAll ρ.new ss) (hold : δ.here = true → ρ.old ∉ Stmt.routinesAll ss) :
    ρ.Simulates g W δ (ρ.Flows g) (Run.executeAll (n + 1) (Stmt.mapAll g ss))
      (Run.executeAll (n + 1) (Stmt.mapAll g (Stmt.renameAll ρ g δ c ss))) := by
  cases ss with
  | nil => exact .pure .proceed
  | cons s ss =>
    have hs := ih.execute (W := W) (c.part 0) h.1
      fun hδ hm => hold hδ (List.mem_append_left _ hm)
    refine bind hs fun W₁ hW₁ flow flow' hflow => ?_
    cases hflow with
    | proceed =>
      exact ih.executeAll (c.part 1) h.2 fun hδ hm => hold hδ (List.mem_append_right _ hm)
    | returned hv => exact .pure (.returned hv)

theorem execute_succ (ih : ρ.SimulatesOn g n) {s : Stmt Nat} (c : Choice) (h : s.Lacks ρ.new)
    (hold : δ.here = true → ρ.old ∉ s.routines) :
    ρ.Simulates g W δ (ρ.Flows g) (Run.execute (n + 1) (s.map g))
      (Run.execute (n + 1) ((s.rename ρ g δ c).map g)) := by
  cases s with
  | expression e =>
    exact bind (ih.evaluate c h) fun _ _ _ _ _ => Simulates.pure .proceed
  | print e =>
    refine bind (ih.evaluate c h) fun W₁ hW₁ v v' hv => ?_
    rw [Values.text hv]
    exact bind (printLine v.text) fun _ _ _ _ _ => Simulates.pure .proceed
  | var name init =>
    cases init with
    | none => exact bind (define h .nil) fun _ _ _ _ _ => Simulates.pure .proceed
    | some e =>
      refine bind (ih.evaluate c h.2) fun W₁ hW₁ v v' hv => ?_
      exact bind (define h.1 hv) fun _ _ _ _ _ => Simulates.pure .proceed
  | block body =>
    refine bind get fun W₁ hW₁ m m' hm => ?_
    rw [hm.frame]
    refine bind (createFrame (ρ.picks c body) .empty hm.here) fun W₂ hW₂ i j ⟨hij, hi⟩ => ?_
    cases hij
    exact inFrame hi (ih.executeAll c h not_mem_routines)
  | cond test yes no =>
    cases no with
    | none =>
      refine bind (ih.evaluate (c.part 0) h.1) fun W₁ hW₁ v v' hv => ?_
      have hyes := ih.execute (W := W₁) (c.part 1) h.2 hold
      rw [hv.isTruthy]
      split
      · exact hyes
      · exact Simulates.pure .proceed
    | some no =>
      refine bind (ih.evaluate (c.part 0) h.1) fun W₁ hW₁ v v' hv => ?_
      have hyes := ih.execute (W := W₁) (c.part 1) h.2.1
        fun hδ hm => hold hδ (List.mem_append_left _ hm)
      have hno := ih.execute (W := W₁) (c.part 2) h.2.2
        fun hδ hm => hold hδ (List.mem_append_right _ hm)
      rw [hv.isTruthy]
      split
      · exact hyes
      · exact hno
  | loop test body =>
    refine bind (ih.evaluate (c.part 0) h.1) fun W₁ hW₁ v v' hv => ?_
    have hbody := ih.execute (W := W₁) (c.part 1) h.2 hold
    rw [hv.isTruthy]
    split
    · refine bind hbody fun W₂ hW₂ flow flow' hflow => ?_
      cases hflow with
      | proceed => exact ih.execute (s := .loop test body) c h hold
      | returned hv => exact Simulates.pure (.returned hv)
    · exact Simulates.pure .proceed
  | function name params body =>
    refine bind (newFunction (some name.lexeme) c h.2.1 h.2.2) fun W₁ hW₁ f f' hf => ?_
    exact bind (define_routine h.1 (fun hδ hn => hold hδ (hn ▸ .head _)) hf)
      fun _ _ _ _ _ => Simulates.pure .proceed
  | ret keyword value =>
    cases value with
    | none => exact Simulates.pure (.returned .nil)
    | some e =>
      exact bind (ih.evaluate c h) fun W₁ hW₁ v v' hv => Simulates.pure (.returned hv)
  | classDecl name superclass methods =>
    have hname : δ.here = true → name.lexeme ≠ ρ.old := fun hδ hn => hold hδ (hn ▸ .head _)
    cases superclass with
    | none =>
      exact bind (declareClass c h.1 hname (fun _ hs => nomatch hs) h.2)
        fun _ _ _ _ _ => Simulates.pure .proceed
    | some s =>
      have hs : ∀ s' ∈ some s, s'.name.lexeme ≠ ρ.new := by
        rintro _ ⟨⟩
        exact h.2.1
      exact bind (declareClass c h.1 hname hs h.2.2) fun _ _ _ _ _ => Simulates.pure .proceed

end SimulatesOn

/-- Every run is in step with its renaming, by induction on the fuel. -/
theorem simulatesOn (ρ : Renaming) (g : Nat → Option Nat) (n : Nat) : ρ.SimulatesOn g n := by
  induction n with
  | zero =>
    exact ⟨fun _ _ => .throw _, fun _ _ => .throw _, fun _ _ _ => .throw _, fun _ _ => .throw _,
      fun _ _ => .throw _, fun _ _ _ => .throw _, fun _ _ _ => .throw _⟩
  | succ n ih =>
    exact ⟨ih.evaluate_succ, ih.evaluateAll_succ, ih.call_succ, ih.apply_succ, ih.invoke_succ,
      ih.executeAll_succ, ih.execute_succ⟩

/-! ## Programs -/

/-- Outcomes that are the same, but for the name of an undefined variable. -/
inductive Outcomes (ρ : Renaming) : Outcome → Outcome → Prop
  | same (o : Outcome) : Outcomes ρ o o
  | undefined (printed : ByteArray) (line : Nat) :
      Outcomes ρ ⟨printed, .failed (.runtime line (.undefinedVariable ρ.old))⟩
        ⟨printed, .failed (.runtime line (.undefinedVariable ρ.new))⟩

theorem Outcomes.of_ends {W : World} {δ : Flags}
    {r r' : EStateM.Result Fault Machine (Option Value)}
    (h : ρ.Ends g W δ (fun W' => Option.Rel (ρ.Values g W')) r r') :
    ρ.Outcomes (.ofResult r) (.ofResult r') := by
  cases h with
  | @ok W' m m' v v' _ hm hv =>
    have htext : v'.map Value.text = v.map Value.text := by
      cases hv with
      | some hv => exact congrArg some (Values.text hv)
      | none => rfl
    rw [Outcome.ofResult, Outcome.ofResult, hm.printed, htext]
    exact .same _
  | error _ hm he =>
    rw [Outcome.ofResult, Outcome.ofResult, hm.printed]
    cases he with
    | same e => exact .same _
    | undefined line => exact .undefined _ line

/-- A program and its renaming have the same outcome. -/
theorem Outcomes.perform (ρ : Renaming) (c : Choice) {ss : List (Stmt Nat)}
    (hnew : Stmt.LacksAll ρ.new ss) (b : Bindings) (clock : Nat → Float) (room : Option Nat)
    (fuel : Nat) :
    ρ.Outcomes ((Session.start clock room).perform fuel (Line.link ⟨ss, none⟩ b)).1
      ((Session.start clock room).perform fuel
        (Line.link ⟨Stmt.renameAll ρ b.distance? [] c ss, none⟩ b)).1 := by
  rw [Session.outcome_perform, Session.outcome_perform]
  have hrun : ρ.Simulates b.distance? [[]] [] (fun W' => Option.Rel (ρ.Values b.distance? W'))
      (Run.line fuel (Line.link ⟨ss, none⟩ b))
      (Run.line fuel (Line.link ⟨Stmt.renameAll ρ b.distance? [] c ss, none⟩ b)) :=
    .bind ((simulatesOn ρ b.distance? fuel).executeAll c hnew fun h => nomatch h)
      fun _ _ _ _ _ => .pure .none
  exact .of_ends (hrun _ _ (.start ρ b.distance? clock room))

end Renaming

/-- **Renaming locals is unobservable.** Let a program be accepted, and let a name occur nowhere in
it as that of a variable, a parameter, a function or a class. Give it to the variable or parameter
that has the old name in each of the chosen scopes, and to the sites bound to these. The program
that results has its sites numbered as before and is accepted with the same distance at every site.
On the same clock, room and fuel it prints the same and ends the same, except that where the old
name is undefined the message may quote the new one. -/
theorem renaming_unobservable {σ : Type} (ρ : Renaming) (c : Choice) {p : List (Stmt σ)}
    {b : Bindings} (haccepted : Stmt.bindings (Stmt.labelAll p 0).1 = .ok b)
    (hnew : Stmt.LacksAll ρ.new p) :
    let renamed := Stmt.renameAll ρ b.distance? [] c (Stmt.labelAll p 0).1
    (Stmt.labelAll renamed 0).1 = renamed ∧ Stmt.bindings renamed = .ok b ∧
      ∀ (clock : Nat → Float) (room : Option Nat) (fuel : Nat),
        ρ.Outcomes
          ((Session.start clock room).perform fuel (Line.link ⟨(Stmt.labelAll p 0).1, none⟩ b)).1
          ((Session.start clock room).perform fuel (Line.link ⟨renamed, none⟩ b)).1 :=
  ⟨congrArg Prod.fst (Stmt.labelAll_rename ρ b.distance? p 0 [] c),
    Stmt.bindings_rename ρ c haccepted hnew,
    fun clock room fuel => .perform ρ c (Stmt.lacksAll_label p 0 hnew) b clock room fuel⟩

/-- The inner of two variables gets another name. It is read in its own initializer, by a function,
so the message names it. -/
theorem inner_variable_renamed :
    ∃ p q : List (Stmt Unit),
      Style.program.read (Token.scan
        "{ var x = nil; print x; { var x = fun () { return x; }(); } }") = .ok ⟨p, none⟩ ∧
      Style.program.read (Token.scan
        "{ var x = nil; print x; { var y = fun () { return y; }(); } }") = .ok ⟨q, none⟩ ∧
      (Stmt.bindings (Stmt.labelAll p 0).1 = .ok [(1, 1), (0, 0)] ∧ Stmt.LacksAll "y" p) ∧
      Stmt.bindings (Stmt.labelAll q 0).1 = .ok [(1, 1), (0, 0)] ∧
      Renaming.Outcomes ⟨"x", "y", by decide, by decide, by decide, by decide⟩
        ⟨"nil\n".toUTF8, .failed (.runtime 1 (.undefinedVariable "x"))⟩
        ((Session.start (fun _ => 0) none).perform 30
          (Line.link ⟨(Stmt.labelAll q 0).1, none⟩ [(1, 1), (0, 0)])).1 := by
  have rename : ∀ {p q : List (Stmt Unit)} {b : Bindings} {o : Outcome} (ρ : Renaming),
      Stmt.bindings (Stmt.labelAll p 0).1 = .ok b → Stmt.LacksAll ρ.new p →
      Stmt.renameAll ρ b.distance? [] (· == [0, 1, 1, 0]) (Stmt.labelAll p 0).1 =
        (Stmt.labelAll q 0).1 →
      ((Session.start (fun _ => 0) none).perform 30
        (Line.link ⟨(Stmt.labelAll p 0).1, none⟩ b)).1 = o →
      (Stmt.bindings (Stmt.labelAll p 0).1 = .ok b ∧ Stmt.LacksAll ρ.new p) ∧
        Stmt.bindings (Stmt.labelAll q 0).1 = .ok b ∧
        ρ.Outcomes o ((Session.start (fun _ => 0) none).perform 30
          (Line.link ⟨(Stmt.labelAll q 0).1, none⟩ b)).1 := by
    intro p q b o ρ hb hnew hq ho
    obtain ⟨-, hbindings, hrun⟩ := renaming_unobservable ρ (· == [0, 1, 1, 0]) hb hnew
    rw [hq] at hbindings hrun
    exact ⟨⟨hb, hnew⟩, hbindings, ho ▸ hrun _ none 30⟩
  refine ⟨_, _, by cbv, by cbv,
    rename ⟨"x", "y", by decide, by decide, by decide, by decide⟩ ?_ ?_ ?_ ?_⟩
  · cbv
  · simp [Stmt.LacksAll, Stmt.Lacks, Expr.Lacks, Expr.LacksAll]
  · cbv
  · cbv

end LoxLang
