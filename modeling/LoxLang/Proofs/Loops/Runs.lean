import LoxLang.Proofs.Loops.Simulation

/-!
# Empty scopes are unobservable

Accepted code runs in step with its text bound in the scopes that stay when scopes without names are
left out (`Gaps.simulatesOn`), on any fuel. In a frame for a scope that is left out only code is run
that declares nothing there, so such a frame has no names.
-/

namespace LoxLang

namespace Gaps

/-- Ends of statements with related values. -/
inductive Flows (W : Places) : Flow → Flow → Prop
  | proceed : Flows W .proceed .proceed
  | returned {v v' : Value} : Values W v v' → Flows W (.returned v) (.returned v')

/-- Lists of related values. -/
def ValueLists (W : Places) (vs vs' : List Value) : Prop := List.Forall₂ (Values W) vs vs'

theorem ValueLists.mono {W W' : Places} {vs vs' : List Value} (h : ValueLists W vs vs')
    (hW : W.Extends W') : ValueLists W' vs vs' :=
  List.Forall₂.imp (fun _ _ hv => Values.mono hv hW) h

/-- Parameters get related values. -/
theorem tables_ofArgs {W : Places} {args args' : List Value} (h : ValueLists W args args')
    (params : List String) :
    Table.Rel (Values W)
      ((params.zip args).foldl (fun t p => t.insert p.1 p.2) Table.empty)
      ((params.zip args').foldl (fun t p => t.insert p.1 p.2) Table.empty) := by
  suffices hfold : ∀ t t' : Table Value, t.Rel (Values W) t' → Table.Rel (Values W)
      ((params.zip args).foldl (fun t p => t.insert p.1 p.2) t)
      ((params.zip args').foldl (fun t p => t.insert p.1 p.2) t') from hfold _ _ .empty
  induction params generalizing args args' with
  | nil => exact fun _ _ ht => ht
  | cons p params ih =>
    intro t t' ht
    cases h with
    | nil => exact ht
    | cons hv hvs => exact ih hvs _ _ (ht.insert p hv)

/-- All that runs on the given fuel is in step with its text bound in the scopes that stay. -/
structure SimulatesOn (n : Nat) : Prop where
  evaluate : ∀ {W : Places} {i : Nat} {p : Place} {Γ : Context} {e : Expr (Option Nat)},
    p.gaps.In Γ → Node.Accepted Γ (.expr e) →
    Simulates W i p Values (Run.evaluate n e)
      (Run.evaluate n (e.bare.bindIn (p.gaps.thin Γ.names)))
  evaluateAll : ∀ {W : Places} {i : Nat} {p : Place} {Γ : Context} {es : List (Expr (Option Nat))},
    p.gaps.In Γ → (∀ e ∈ es, Node.Accepted Γ (.expr e)) →
    Simulates W i p ValueLists (Run.evaluateAll n es)
      (Run.evaluateAll n (Expr.bindAllIn (p.gaps.thin Γ.names) (Expr.bareAll es)))
  call : ∀ {W : Places} {i : Nat} {p : Place} {f f' : Value} {args args' : List Value}
    (paren : Token), Values W f f' → ValueLists W args args' →
    Simulates W i p Values (Run.call n f paren args) (Run.call n f' paren args')
  apply : ∀ {W : Places} {i : Nat} {p : Place} {f f' : Callee} {args args' : List Value},
    Callees W f f' → ValueLists W args args' →
    Simulates W i p Values (Run.apply n f args) (Run.apply n f' args')
  invoke : ∀ {W : Places} {i : Nat} {p : Place} {r r' : Routine} {args args' : List Value},
    Routines W [] r r' → ValueLists W args args' →
    Simulates W i p Values (Run.invoke n r args) (Run.invoke n r' args')
  executeAll : ∀ {W : Places} {i : Nat} {p : Place} {Γ : Context} {ss : List Code},
    p.gaps.In Γ → Node.Accepted Γ (.stmts ss) →
    (p.gaps.here = true → ∀ s ∈ ss, s.declared = []) →
    Simulates W i p Flows (Run.executeAll n ss)
      (Run.executeAll n (Stmt.bindAllIn (p.gaps.thin Γ.names) (Stmt.bareAll ss)))
  execute : ∀ {W : Places} {i : Nat} {p : Place} {Γ : Context} {s : Code},
    p.gaps.In Γ → Node.Accepted Γ (.stmt s) → (p.gaps.here = true → s.declared = []) →
    Simulates W i p Flows (Run.execute n s)
      (Run.execute n (s.bare.bindIn (p.gaps.thin Γ.names)))

namespace SimulatesOn

open Gaps.Simulates

variable {n : Nat} {W : Places} {i : Nat} {p : Place} {Γ : Context}

theorem evaluate_succ (ih : SimulatesOn n) {e : Expr (Option Nat)} (hΓ : p.gaps.In Γ)
    (h : Node.Accepted Γ (.expr e)) :
    Simulates W i p Values (Run.evaluate (n + 1) e)
      (Run.evaluate (n + 1) (e.bare.bindIn (p.gaps.thin Γ.names))) := by
  cases e with
  | literal v => exact Simulates.pure (.ofLiteral v)
  | group e => exact ih.evaluate hΓ (h.child (.head _))
  | unary op e =>
    exact bind (ih.evaluate hΓ (h.child (.head _))) fun W₁ hW₁ v v' hv =>
      check op (hv.unary op.kind)
  | binary op a b =>
    refine bind (ih.evaluate hΓ (h.child (.head _))) fun W₁ hW₁ x x' hx => ?_
    refine bind (ih.evaluate hΓ (h.child (.tail _ (.head _)))) fun W₂ hW₂ y y' hy => ?_
    exact check op ((Values.mono hx hW₂).binary op.kind hy)
  | logical op a b =>
    refine bind (ih.evaluate hΓ (h.child (.head _))) fun W₁ hW₁ x x' hx => ?_
    have hb := ih.evaluate (W := W₁) (i := i) hΓ (h.child (.tail _ (.head _)))
    rw [hx.isTruthy]
    split
    · exact Simulates.pure hx
    · exact hb
  | ref s => exact lookUp hΓ h.resolved.here.1
  | this s => exact lookUp hΓ h.resolved.here.1
  | assign s e =>
    refine bind (ih.evaluate hΓ (h.child (.head _))) fun W₁ hW₁ v v' hv => ?_
    exact bind (assign hΓ h.resolved.here hv)
      fun W₂ hW₂ _ _ _ => Simulates.pure (Values.mono hv hW₂)
  | call f paren args =>
    refine bind (ih.evaluate hΓ (h.child (.head _))) fun W₁ hW₁ f f' hf => ?_
    refine bind (ih.evaluateAll hΓ fun e he =>
      h.child (List.mem_cons_of_mem _ (List.mem_map_of_mem he))) fun W₂ hW₂ vs vs' hvs => ?_
    exact ih.call paren (Values.mono hf hW₂) hvs
  | get e name =>
    exact bind (ih.evaluate hΓ (h.child (.head _))) fun W₁ hW₁ v v' hv => getProperty hv name
  | set e name e' =>
    refine bind (ih.evaluate hΓ (h.child (.head _))) fun W₁ hW₁ v v' hv => ?_
    cases hv with
    | object address hc =>
      refine bind (ih.evaluate hΓ (h.child (.tail _ (.head _)))) fun W₂ hW₂ u u' hu => ?_
      refine bind (setField (.object address (Classes.mono hc hW₂)) name.lexeme hu)
        fun W₃ hW₃ _ _ _ => Simulates.pure (Values.mono hu hW₃)
    | nil | bool | number | string | clock | function | cls => exact fail name _
  | super s method => exact superMethod hΓ h
  | lambda params body => exact newFunction hΓ none (h.child (.head _))

theorem evaluateAll_succ (ih : SimulatesOn n) {es : List (Expr (Option Nat))} (hΓ : p.gaps.In Γ)
    (h : ∀ e ∈ es, Node.Accepted Γ (.expr e)) :
    Simulates W i p ValueLists (Run.evaluateAll (n + 1) es)
      (Run.evaluateAll (n + 1) (Expr.bindAllIn (p.gaps.thin Γ.names) (Expr.bareAll es))) := by
  cases es with
  | nil => exact .pure .nil
  | cons e es =>
    obtain ⟨he, hes⟩ := List.forall_mem_cons.1 h
    refine bind (ih.evaluate hΓ he) fun W₁ hW₁ v v' hv => ?_
    exact bind (ih.evaluateAll hΓ hes) fun W₂ hW₂ vs vs' hvs =>
      Simulates.pure (.cons (Values.mono hv hW₂) hvs)

theorem call_succ (ih : SimulatesOn n) {f f' : Value} {args args' : List Value} (paren : Token)
    (hf : Values W f f') (hargs : ValueLists W args args') :
    Simulates W i p Values (Run.call (n + 1) f paren args) (Run.call (n + 1) f' paren args') := by
  have hcallee := hf.callee?
  have hlen : args'.length = args.length := (List.Forall₂.length_eq hargs).symm
  unfold Run.call
  generalize f.callee? = callee at hcallee ⊢
  generalize f'.callee? = callee' at hcallee ⊢
  cases hcallee with
  | none => exact fail paren _
  | some hc =>
    dsimp only
    rw [Callees.arity hc, hlen]
    split
    · exact fail paren _
    · refine bind get fun W₁ hW₁ m m' hm => ?_
      rw [hm.depth]
      split
      · exact fail paren _
      · exact inCall (ih.apply (Callees.mono hc hW₁) (hargs.mono hW₁))

theorem apply_succ (ih : SimulatesOn n) {f f' : Callee} {args args' : List Value}
    (hf : Callees W f f') (hargs : ValueLists W args args') :
    Simulates W i p Values (Run.apply (n + 1) f args) (Run.apply (n + 1) f' args') := by
  cases hf with
  | clock => exact readClock
  | routine hr => exact ih.invoke hr hargs
  | @construct c c' hc =>
    refine bind (newObject hc) fun W₁ hW₁ o o' ho => ?_
    have hinit := (Classes.mono hc hW₁).method? initName
    generalize c.method? initName = r at hinit ⊢
    generalize c'.method? initName = r' at hinit ⊢
    cases hinit with
    | none => exact Simulates.pure ho
    | some hr =>
      refine bind (bindMethod hr ho) fun W₂ hW₂ b b' hb => ?_
      exact bind (ih.invoke hb ((hargs.mono hW₁).mono hW₂)) fun W₃ hW₃ _ _ _ =>
        Simulates.pure (Values.mono (Values.mono ho hW₂) hW₃)

theorem invoke_succ (ih : SimulatesOn n) {r r' : Routine} {args args' : List Value}
    (hr : Routines W [] r r') (hargs : ValueLists W args args') :
    Simulates W i p Values (Run.invoke (n + 1) r args) (Run.invoke (n + 1) r' args') := by
  obtain ⟨Γ, kind, params, δ, hδ, hΓ, hinit, hbody, hbody'⟩ := hr.code
  unfold Run.invoke
  rw [hr.params, hr.isInit, hbody']
  refine bind (createFrame (tables_ofArgs hargs r.params) hδ) fun W₁ hW₁ j j' hj => ?_
  refine bind (inFrame hj (ih.executeAll (.keep hΓ) hbody nofun)) fun W₂ hW₂ flow flow' hflow => ?_
  split
  · next h => exact receiver (hW₂ _ _ (hW₁ _ _ hδ)) (hinit rfl h)
  · cases hflow with
    | proceed => exact Simulates.pure .nil
    | returned hv => exact Simulates.pure hv

theorem executeAll_succ (ih : SimulatesOn n) {ss : List Code} (hΓ : p.gaps.In Γ)
    (h : Node.Accepted Γ (.stmts ss)) (hss : p.gaps.here = true → ∀ s ∈ ss, s.declared = []) :
    Simulates W i p Flows (Run.executeAll (n + 1) ss)
      (Run.executeAll (n + 1) (Stmt.bindAllIn (p.gaps.thin Γ.names) (Stmt.bareAll ss))) := by
  cases ss with
  | nil => exact .pure .proceed
  | cons s ss =>
    have hs : p.gaps.here = true → s.declared = [] := fun hp => hss hp s (.head _)
    refine bind (ih.execute hΓ (h.child (.head _)) hs) fun W₁ hW₁ flow flow' hflow => ?_
    cases hflow with
    | proceed =>
      obtain ⟨hΓ', hnames⟩ := hΓ.after hs
      change Simulates _ _ _ _ _ (Run.executeAll n
        (Stmt.bindAllIn ((p.gaps.thin Γ.names).after s.bare) (Stmt.bareAll ss)))
      rw [hnames]
      exact ih.executeAll hΓ' (h.child (.tail _ (.head _))) fun hp s' hs' => hss hp s' (.tail _ hs')
    | returned hv => exact .pure (.returned hv)

theorem execute_succ (ih : SimulatesOn n) {s : Code} (hΓ : p.gaps.In Γ)
    (h : Node.Accepted Γ (.stmt s)) (hs : p.gaps.here = true → s.declared = []) :
    Simulates W i p Flows (Run.execute (n + 1) s)
      (Run.execute (n + 1) (s.bare.bindIn (p.gaps.thin Γ.names))) := by
  -- a statement that declares something stands in a scope that stays
  have hkept : s.declared ≠ [] → p.gaps.here = false := fun hd =>
    Bool.eq_false_iff.2 fun hp => hd (hs hp)
  cases s with
  | expression e =>
    exact bind (ih.evaluate hΓ (h.child (.head _))) fun _ _ _ _ _ => Simulates.pure .proceed
  | print e =>
    refine bind (ih.evaluate hΓ (h.child (.head _))) fun W₁ hW₁ v v' hv => ?_
    rw [Values.text hv]
    exact bind (printLine v.text) fun _ _ _ _ _ => Simulates.pure .proceed
  | var name init =>
    have hp := hkept (List.cons_ne_nil _ _)
    cases init with
    | none => exact bind (define hp name.lexeme .nil) fun _ _ _ _ _ => Simulates.pure .proceed
    | some e =>
      obtain ⟨hΓ', hnames⟩ := hΓ.begin hp name.lexeme
      have he := ih.evaluate (W := W) (i := i) hΓ' (h.child (.head _))
      rw [← hnames] at he
      refine bind he fun W₁ hW₁ v v' hv => ?_
      exact bind (define hp name.lexeme hv) fun _ _ _ _ _ => Simulates.pure .proceed
  | block body =>
    refine bind get fun W₁ hW₁ m m' hm => ?_
    rw [hm.frame, hm.frame']
    refine bind (createFrame .empty hm.here) fun W₂ hW₂ j j' hj => ?_
    exact inFrame hj (ih.executeAll (.keep hΓ) (h.child (.head _)) nofun)
  | cond test yes no =>
    cases no with
    | none =>
      refine bind (ih.evaluate hΓ (h.child (.head _))) fun W₁ hW₁ v v' hv => ?_
      have hyes := ih.execute (W := W₁) (i := i) hΓ (h.child (.tail _ (.head _))) hs
      rw [hv.isTruthy]
      split
      · exact hyes
      · exact Simulates.pure .proceed
    | some no =>
      have hyes' : p.gaps.here = true → yes.declared = [] := fun hp =>
        (List.append_eq_nil_iff.1 (hs hp)).1
      obtain ⟨hΓ', hnames⟩ := hΓ.after hyes'
      refine bind (ih.evaluate hΓ (h.child (.head _))) fun W₁ hW₁ v v' hv => ?_
      have hyes := ih.execute (W := W₁) (i := i) hΓ (h.child (.tail _ (.head _))) hyes'
      have hno := ih.execute (W := W₁) (i := i) hΓ' (h.child (.tail _ (.tail _ (.head _))))
        fun hp => (List.append_eq_nil_iff.1 (hs hp)).2
      rw [← hnames] at hno
      rw [hv.isTruthy]
      split
      · exact hyes
      · exact hno
  | loop test body =>
    refine bind (ih.evaluate hΓ (h.child (.head _))) fun W₁ hW₁ v v' hv => ?_
    have hbody := ih.execute (W := W₁) (i := i) hΓ (h.child (.tail _ (.head _))) hs
    rw [hv.isTruthy]
    split
    · refine bind hbody fun W₂ hW₂ flow flow' hflow => ?_
      cases hflow with
      | proceed => exact ih.execute hΓ h hs
      | returned hv => exact Simulates.pure (.returned hv)
    · exact Simulates.pure .proceed
  | function name params body =>
    have hp := hkept (List.cons_ne_nil _ _)
    obtain ⟨hΓ', hnames⟩ := hΓ.declare hp name.lexeme
    have hf := newFunction (W := W) (i := i) hΓ' (some name.lexeme) (h.child (.head _))
    rw [← hnames] at hf
    refine bind hf fun W₁ hW₁ f f' hf => ?_
    exact bind (define hp name.lexeme hf) fun _ _ _ _ _ => Simulates.pure .proceed
  | ret keyword value =>
    cases value with
    | none => exact Simulates.pure (.returned .nil)
    | some e =>
      exact bind (ih.evaluate hΓ (h.child (.head _))) fun W₁ hW₁ v v' hv =>
        Simulates.pure (.returned hv)
  | classDecl name superclass methods =>
    have hdeclared := declareClass (W := W) (i := i) hΓ (hkept (List.cons_ne_nil _ _)) h
    cases superclass <;> exact bind hdeclared fun _ _ _ _ _ => Simulates.pure .proceed

end SimulatesOn

/-- **Empty scopes are unobservable.** Every run is in step with that of the text bound in the
scopes that stay, by induction on the fuel. -/
theorem simulatesOn (n : Nat) : SimulatesOn n := by
  induction n with
  | zero =>
    exact ⟨fun _ _ => .throw _, fun _ _ => .throw _, fun _ _ _ => .throw _, fun _ _ => .throw _,
      fun _ _ => .throw _, fun _ _ _ => .throw _, fun _ _ _ => .throw _⟩
  | succ n ih =>
    exact ⟨ih.evaluate_succ, ih.evaluateAll_succ, ih.call_succ, ih.apply_succ, ih.invoke_succ,
      ih.executeAll_succ, ih.execute_succ⟩

end Gaps

end LoxLang
