import LoxLang.Proofs.Lines.Machine

/-!
# Runs on other lines

What a run does to a machine it also does when all code stands on other lines and when something has
been printed before, and it comes to the same up to the lines (`Run.Moves`). This holds on the same
fuel, whatever the run comes to. On more fuel it holds of each run that does not use up its fuel, so
fuel decides only whether a run ends. There is a rule for every step; both facts are proved in one
induction on the fuel (`Run.movesOn`).
-/

namespace LoxLang

/-- The way a statement ends, with the code of its value on the images of its lines. -/
def Flow.reline (f : Nat → Nat) : Flow → Flow
  | .proceed => .proceed
  | .returned v => .returned (v.reline f)

/-- The line of code with each token on the image of its line. -/
def Line.reline {σ : Type} (f : Nat → Nat) (line : Line σ) : Line σ :=
  ⟨Stmt.relineAll f line.statements, line.trailing.map (Expr.reline f)⟩

namespace Run

variable {α α' β β' : Type}

/-- What a run has come to, moved together with the machine. -/
def movedResult (f : Nat → Nat) (before : ByteArray) (g : α → α') :
    EStateM.Result Fault Machine α → EStateM.Result Fault Machine α'
  | .ok a m => .ok (g a) (m.moved f before)
  | .error e m => .error (e.reline f) (m.moved f before)

/-- On the moved machine `r'` comes to what `r` comes to on the machine itself, moved. If `exact`
does not hold, then this is only asked for where `r` does not use up its fuel. -/
def Moves (exact : Prop) (f : Nat → Nat) (before : ByteArray) (m : Machine) (g : α → α')
    (r : Run α) (r' : Run α') : Prop :=
  (exact ∨ ∀ m', r m ≠ .error .outOfFuel m') →
    r' (m.moved f before) = movedResult f before g (r m)

namespace Moves

variable {exact : Prop} {f : Nat → Nat} {before : ByteArray} {m : Machine} {g : α → α'}
  {h : β → β'} {r : Run α} {r' : Run α'}

/-! ## Steps -/

theorem pure (a : α) : Moves exact f before m g (pure a) (pure (g a)) := fun _ => rfl

theorem throw (e : Fault) : Moves exact f before m g (throw e) (throw (e.reline f)) := fun _ => rfl

theorem fail (t : Token) (cause : RuntimeCause) :
    Moves exact f before m g (fail t cause) (fail (t.reline f) cause) :=
  fun _ => rfl

/-- Nothing is asked of what would use up its fuel, unless it is to be exact. -/
theorem outOfFuel (hexact : ¬ exact) : Moves exact f before m g Run.outOfFuel r' :=
  fun hr => absurd rfl ((hr.resolve_left hexact) m)

/-- One run after another. -/
theorem bind {k : α → Run β} {k' : α' → Run β'} (hr : Moves exact f before m g r r')
    (hk : ∀ a m', Moves exact f before m' h (k a) (k' (g a))) :
    Moves exact f before m h (r >>= k) (r' >>= k') := by
  intro hx
  unfold Moves at hr
  rcases hrm : r m with ⟨a, m₁⟩ | ⟨e, m₁⟩
  · rw [hrm] at hr
    rw [Run.bind_ok hrm] at hx ⊢
    rw [Run.bind_ok (hr (.inr nofun))]
    exact hk a m₁ hx
  · rw [hrm] at hr
    rw [Run.bind_error hrm] at hx ⊢
    refine (Run.bind_error (hr (hx.imp_right fun hne m' h => ?_))).trans rfl
    cases h
    exact hne _ rfl

theorem get {k : Machine → Run β} {k' : Machine → Run β'}
    (hk : Moves exact f before m h (k m) (k' (m.moved f before))) :
    Moves exact f before m h (MonadState.get >>= k) (MonadState.get >>= k') :=
  hk

theorem check (t : Token) (x : Except RuntimeCause Value) :
    Moves exact f before m (Value.reline f) (check t x)
      (check (t.reline f) (x.map (Value.reline f))) := by
  cases x with
  | ok a => exact pure a
  | error cause => exact fail t cause

theorem inFrame (frame : Nat) (hr : ∀ m, Moves exact f before m g r r') :
    Moves exact f before m g (inFrame frame r) (inFrame frame r') := by
  intro hx
  have hr := hr { m with frame := frame }
  unfold Moves Run.inFrame at *
  change _ → r' (Machine.moved f before { m with frame := frame }) = _ at hr
  change (match r' (Machine.moved f before { m with frame := frame }) with
    | .ok a m' => EStateM.Result.ok a { m' with frame := m.frame }
    | .error e m' => .error e { m' with frame := m.frame }) = _
  rcases hrm : r { m with frame := frame } with ⟨a, m₁⟩ | ⟨e, m₁⟩
  · rw [hrm] at hr
    rw [hr (.inr nofun)]
    rfl
  · rw [hrm] at hr hx
    rw [hr (hx.imp_right fun hne m' h => ?_)]
    · rfl
    · cases h
      exact hne _ rfl

theorem inCall (hr : ∀ m, Moves exact f before m g r r') :
    Moves exact f before m g (inCall r) (inCall r') := by
  intro hx
  have hr := hr { m with depth := m.depth + 1 }
  unfold Moves Run.inCall at *
  change _ → r' (Machine.moved f before { m with depth := m.depth + 1 }) = _ at hr
  change (match r' (Machine.moved f before { m with depth := m.depth + 1 }) with
    | .ok a m' => EStateM.Result.ok a { m' with depth := m'.depth - 1 }
    | .error e m' => .error e { m' with depth := m'.depth - 1 }) = _
  rcases hrm : r { m with depth := m.depth + 1 } with ⟨a, m₁⟩ | ⟨e, m₁⟩
  · rw [hrm] at hr
    rw [hr (.inr nofun)]
    rfl
  · rw [hrm] at hr hx
    rw [hr (hx.imp_right fun hne m' h => ?_)]
    · rfl
    · cases h
      exact hne _ rfl

/-! ## Names -/

theorem createFrame (names : Table Value) (parent : Nat) :
    Moves exact f before m id (createFrame names parent)
      (createFrame (names.map (Value.reline f)) parent) := by
  intro _
  rw [createFrame_eq, createFrame_eq, Machine.nextFrame_moved, Machine.grow_moved]
  rfl

theorem newIdentity : Moves exact f before m id newIdentity newIdentity := fun _ => rfl

theorem define (name : String) (v : Value) :
    Moves exact f before m id (define name v) (define name (v.reline f)) := by
  intro _
  rw [define_eq, define_eq, Machine.put_moved]
  rfl

theorem lookUp (site : Site (Option Nat)) :
    Moves exact f before m (Value.reline f) (lookUp site) (lookUp (site.reline f)) := by
  intro _
  rw [lookUp_eq, lookUp_eq, Machine.value?_moved]
  cases m.value? site <;> rfl

theorem assign (site : Site (Option Nat)) (v : Value) :
    Moves exact f before m id (assign site v) (assign (site.reline f) (v.reline f)) := by
  intro _
  rw [assign_eq, assign_eq, Machine.target?_moved]
  cases m.target? site with
  | none => rfl
  | some frame => exact congrArg (EStateM.Result.ok ()) (m.put_moved f before frame _ v)

theorem receiver (frame : Nat) :
    Moves exact f before m (Value.reline f) (receiver frame) (receiver frame) := by
  intro _
  change EStateM.Result.ok (((m.store.map (Value.reline f)).get? frame thisName).getD .nil) _ = _
  rw [Store.get?_map]
  change _ = EStateM.Result.ok (Value.reline f ((m.store.get? frame thisName).getD .nil)) _
  cases m.store.get? frame thisName <;> rfl

/-! ## Output and clock -/

theorem printLine (text : String) :
    Moves exact f before m id (printLine text) (printLine text) := by
  intro _
  rw [printLine_eq, printLine_eq, Machine.write_moved, Machine.fits_moved]
  split <;> rfl

theorem readClock : Moves exact f before m (Value.reline f) readClock readClock := fun _ => rfl

/-! ## Functions and objects -/

theorem newFunction (name : Option String) (params : List Token) (body : List Code) :
    Moves exact f before m (Value.reline f) (newFunction name params body)
      (newFunction name (params.map (Token.reline f)) (Stmt.relineAll f body)) := by
  intro _
  rw [newFunction_eq, newFunction_eq, List.map_map]
  rfl

theorem newObject (c : Class) :
    Moves exact f before m (Object.reline f) (newObject c) (newObject (c.reline f)) := by
  intro _
  change EStateM.Result.ok (Object.mk (m.objects.map (Table.map (Value.reline f))).size _)
    { m.moved f before with
      objects := (m.objects.map (Table.map (Value.reline f))).push .empty } = _
  rw [Array.size_map, ← Table.map_empty (Value.reline f), ← Array.map_push]
  rfl

theorem bindMethod (r : Routine) (o : Object) :
    Moves exact f before m (Routine.reline f) (bindMethod r o)
      (bindMethod (r.reline f) (o.reline f)) :=
  .bind (.createFrame _ r.frame) fun frame _ => .pure { r with frame := frame }

theorem methodValue (r : Routine) (o : Object) :
    Moves exact f before m (Value.reline f) (methodValue r o)
      (methodValue (r.reline f) (o.reline f)) :=
  .bind (.bindMethod r o) fun bound _ =>
    .bind .newIdentity fun identity _ => .pure (Value.function identity bound)

theorem getProperty (v : Value) (name : Token) :
    Moves exact f before m (Value.reline f) (getProperty v name)
      (getProperty (v.reline f) (name.reline f)) := by
  cases v with
  | object o =>
    refine .get ?_
    have hfield : (m.moved f before).objects[o.address]?.bind (·.find? name.lexeme) =
        (m.objects[o.address]?.bind (·.find? name.lexeme)).map (Value.reline f) := by
      change (m.objects.map (Table.map (Value.reline f)))[o.address]?.bind _ = _
      rw [Array.getElem?_map]
      cases m.objects[o.address]? with
      | none => rfl
      | some t => exact t.find?_map _ _
    dsimp only [Object.reline, Token.lexeme_reline]
    rw [hfield, o.cls.method?_reline]
    cases m.objects[o.address]?.bind (·.find? name.lexeme) with
    | some field => exact .pure field
    | none =>
      cases o.cls.method? name.lexeme with
      | some method => exact .methodValue method o
      | none => exact .fail name _
  | _ => exact .fail name .noProperties

theorem setField (o : Object) (name : String) (v : Value) :
    Moves exact f before m id (setField o name v) (setField (o.reline f) name (v.reline f)) := by
  intro _
  have hobjects := map_modify m.objects o.address (Table.map (Value.reline f))
    (·.insert name v) (·.insert name (v.reline f)) fun t => t.map_insert _ name v
  exact congrArg (fun objects => EStateM.Result.ok () { m.moved f before with objects })
    hobjects.symm

theorem superMethod (site : Site (Option Nat)) (method : Token) :
    Moves exact f before m (Value.reline f) (superMethod site method)
      (superMethod (site.reline f) (method.reline f)) := by
  obtain ⟨mark, name⟩ := site
  cases mark with
  | none => exact .fail name _
  | some d =>
    refine .get ?_
    have hread : ∀ d x, (m.moved f before).store.readAt? d (m.moved f before).frame x =
        (m.store.readAt? d m.frame x).map (Value.reline f) :=
      fun d x => m.store.readAt?_map _ d m.frame x
    have hreceiver : (if d = 0 then none
        else (m.moved f before).store.readAt? (d - 1) (m.moved f before).frame thisName) =
        (if d = 0 then none else m.store.readAt? (d - 1) m.frame thisName).map
          (Value.reline f) := by
      rw [hread]
      split <;> rfl
    rw [hread]
    cases m.store.readAt? d m.frame superName with
    | none => exact .fail name _
    | some v =>
      cases v with
      | cls c =>
        dsimp only [Option.map_some, Value.reline]
        rw [hreceiver]
        cases (if d = 0 then none else m.store.readAt? (d - 1) m.frame thisName) with
        | none => exact .fail name _
        | some v =>
          cases v with
          | object o =>
            dsimp only [Option.map_some, Value.reline, Token.lexeme_reline]
            rw [c.method?_reline]
            cases c.method? method.lexeme with
            | some found => exact .methodValue found o
            | none => exact .fail method _
          | _ => exact .fail name _
      | _ => exact .fail name _

/-! ## Classes -/

theorem superclassOf (superclass : Option (Site (Option Nat))) :
    Moves exact f before m (Option.map (Class.reline f)) (superclassOf superclass)
      (superclassOf (superclass.map (Site.reline f))) := by
  cases superclass with
  | none => exact .pure none
  | some site =>
    refine .bind (.lookUp site) fun v m' => ?_
    cases v with
    | cls c => exact .pure (some c)
    | _ => exact .fail site.name _

theorem methodFrame (above : Option Class) :
    Moves exact f before m id (methodFrame above) (methodFrame (above.map (Class.reline f))) := by
  cases above with
  | none => exact .get (.pure m.frame)
  | some c => exact .get (.createFrame (.single superName (.cls c)) m.frame)

end Moves

theorem methodTable_relineAll (f : Nat → Nat) (methods : List (Method (Option Nat))) (frame : Nat) :
    methodTable (Method.relineAll f methods) frame =
      (methodTable methods frame).map (Routine.reline f) := by
  unfold methodTable
  change List.foldl _ (Table.map (Routine.reline f) .empty) _ = _
  generalize (Table.empty : Table Routine) = t
  induction methods generalizing t with
  | nil => rfl
  | cons method methods ih =>
    obtain ⟨name, params, body⟩ := method
    rw [Method.relineAll, List.foldl_cons, List.foldl_cons, ← ih, Table.map_insert]
    refine congrArg (fun params => List.foldl _ ((t.map (Routine.reline f)).insert name.lexeme
      ⟨some name.lexeme, params, Stmt.relineAll f body, frame, name.lexeme = initName⟩) _) ?_
    exact List.map_map

namespace Moves

variable {exact : Prop} {f : Nat → Nat} {before : ByteArray} {m : Machine}

theorem declareClass (name : Token) (superclass : Option (Site (Option Nat)))
    (methods : List (Method (Option Nat))) :
    Moves exact f before m id (declareClass name superclass methods)
      (declareClass (name.reline f) (superclass.map (Site.reline f))
        (Method.relineAll f methods)) := by
  rw [declareClass_eq, declareClass_eq]
  refine .bind (.superclassOf superclass) fun above m' => ?_
  refine .bind (.methodFrame above) fun frame m' => ?_
  refine .bind .newIdentity fun identity m' => ?_
  rw [methodTable_relineAll]
  have hcls : Value.reline f (.cls ⟨identity, name.lexeme, above, methodTable methods frame⟩) =
      .cls ⟨identity, name.lexeme, above.map (Class.reline f),
        (methodTable methods frame).map (Routine.reline f)⟩ :=
    congrArg Value.cls (Class.reline_mk f identity name.lexeme above _)
  exact hcls ▸ .define name.lexeme (.cls ⟨identity, name.lexeme, above, methodTable methods frame⟩)

end Moves

/-! ## Evaluation -/

/-- All that runs on the fuel `n` is moved to what runs on the fuel `n'`. -/
structure MovesOn (exact : Prop) (f : Nat → Nat) (before : ByteArray) (n n' : Nat) : Prop where
  evaluate : ∀ e m, Moves exact f before m (Value.reline f) (evaluate n e)
    (evaluate n' (e.reline f))
  evaluateAll : ∀ es m, Moves exact f before m (List.map (Value.reline f)) (evaluateAll n es)
    (evaluateAll n' (Expr.relineAll f es))
  call : ∀ v paren args m, Moves exact f before m (Value.reline f) (call n v paren args)
    (call n' (v.reline f) (paren.reline f) (args.map (Value.reline f)))
  apply : ∀ callee args m, Moves exact f before m (Value.reline f) (apply n callee args)
    (apply n' (callee.reline f) (args.map (Value.reline f)))
  invoke : ∀ r args m, Moves exact f before m (Value.reline f) (invoke n r args)
    (invoke n' (r.reline f) (args.map (Value.reline f)))
  executeAll : ∀ ss m, Moves exact f before m (Flow.reline f) (executeAll n ss)
    (executeAll n' (Stmt.relineAll f ss))
  execute : ∀ s m, Moves exact f before m (Flow.reline f) (execute n s)
    (execute n' (s.reline f))

variable {exact : Prop} {f : Nat → Nat} {before : ByteArray} {n n' : Nat}

namespace MovesOn

theorem evaluate_succ (ih : MovesOn exact f before n n') (e : Expr (Option Nat)) (m : Machine) :
    Moves exact f before m (Value.reline f) (Run.evaluate (n + 1) e)
      (Run.evaluate (n' + 1) (e.reline f)) := by
  cases e with
  | literal v =>
    have h : Moves exact f before m (Value.reline f) (pure (.ofLiteral v))
        (pure ((Value.ofLiteral v).reline f)) := .pure _
    rwa [Value.reline_ofLiteral] at h
  | group e => exact ih.evaluate e m
  | unary op e =>
    refine .bind (ih.evaluate e m) fun v m' => ?_
    rw [Token.kind_reline, Value.unary_reline]
    exact .check op _
  | binary op a b =>
    refine .bind (ih.evaluate a m) fun x m' => .bind (ih.evaluate b m') fun y m' => ?_
    rw [Token.kind_reline, Value.binary_reline]
    exact .check op _
  | logical op a b =>
    refine .bind (ih.evaluate a m) fun x m' => ?_
    rw [Token.kind_reline, Value.isTruthy_reline]
    split
    · exact .pure x
    · exact ih.evaluate b m'
  | ref site => exact .lookUp site
  | this site => exact .lookUp site
  | assign site e =>
    exact .bind (ih.evaluate e m) fun v m' => .bind (.assign site v) fun _ _ => .pure v
  | call callee paren args =>
    refine .bind (ih.evaluate callee m) fun v m' => ?_
    exact .bind (ih.evaluateAll args m') fun values m' => ih.call v paren values m'
  | get e name => exact .bind (ih.evaluate e m) fun v _ => .getProperty v name
  | set e name e' =>
    refine .bind (ih.evaluate e m) fun v m' => ?_
    cases v with
    | object o =>
      refine .bind (ih.evaluate e' m') fun w m' => ?_
      exact .bind (.setField o name.lexeme w) fun _ _ => .pure w
    | _ => exact .fail name _
  | super site method => exact .superMethod site method
  | lambda params body => exact .newFunction none params body

theorem evaluateAll_succ (ih : MovesOn exact f before n n') (es : List (Expr (Option Nat)))
    (m : Machine) :
    Moves exact f before m (List.map (Value.reline f)) (Run.evaluateAll (n + 1) es)
      (Run.evaluateAll (n' + 1) (Expr.relineAll f es)) := by
  cases es with
  | nil => exact .pure []
  | cons e es =>
    refine .bind (ih.evaluate e m) fun v m' => ?_
    exact .bind (ih.evaluateAll es m') fun vs _ => .pure (v :: vs)

theorem call_succ (ih : MovesOn exact f before n n') (v : Value) (paren : Token)
    (args : List Value) (m : Machine) :
    Moves exact f before m (Value.reline f) (Run.call (n + 1) v paren args)
      (Run.call (n' + 1) (v.reline f) (paren.reline f) (args.map (Value.reline f))) := by
  unfold Run.call
  rw [Value.callee?_reline]
  cases v.callee? with
  | none => exact .fail paren _
  | some callee =>
    dsimp only [Option.map_some]
    rw [Callee.arity_reline, List.length_map]
    split
    · exact .fail paren _
    · refine .get ?_
      change Moves exact f before m (Value.reline f)
        (if Machine.mostCalls ≤ m.depth then _ else _)
        (if Machine.mostCalls ≤ m.depth then _ else _)
      split
      · exact .fail paren _
      · exact .inCall (ih.apply callee args)

theorem apply_succ (ih : MovesOn exact f before n n') (callee : Callee) (args : List Value)
    (m : Machine) :
    Moves exact f before m (Value.reline f) (Run.apply (n + 1) callee args)
      (Run.apply (n' + 1) (callee.reline f) (args.map (Value.reline f))) := by
  cases callee with
  | clock => exact .readClock
  | routine r => exact ih.invoke r args m
  | construct c =>
    refine .bind (.newObject c) fun o m' => ?_
    rw [c.method?_reline]
    cases c.method? initName with
    | none => exact .pure (Value.object o)
    | some method =>
      refine .bind (.bindMethod method o) fun bound m' => ?_
      exact .bind (ih.invoke bound args m') fun _ _ => .pure (Value.object o)

/-- The frame of a call has the moved arguments. -/
theorem foldl_insert_zip (params : List String) (args : List Value) (t : Table Value) :
    (params.zip (args.map (Value.reline f))).foldl (fun t p => t.insert p.1 p.2)
        (t.map (Value.reline f)) =
      ((params.zip args).foldl (fun t p => t.insert p.1 p.2) t).map (Value.reline f) := by
  induction params generalizing args t with
  | nil => rfl
  | cons x params ih =>
    cases args with
    | nil => rfl
    | cons v args =>
      rw [List.map_cons, List.zip_cons_cons, List.zip_cons_cons, List.foldl_cons, List.foldl_cons,
        ← ih, Table.map_insert]

theorem invoke_succ (ih : MovesOn exact f before n n') (r : Routine) (args : List Value)
    (m : Machine) :
    Moves exact f before m (Value.reline f) (Run.invoke (n + 1) r args)
      (Run.invoke (n' + 1) (r.reline f) (args.map (Value.reline f))) := by
  unfold Run.invoke
  dsimp only
  rw [show (Table.empty : Table Value) = Table.map (Value.reline f) .empty from rfl,
    foldl_insert_zip]
  refine .bind (.createFrame _ r.frame) fun frame m' => ?_
  refine .bind (.inFrame frame (ih.executeAll r.body)) fun flow m' => ?_
  change Moves exact f before m' (Value.reline f) (if r.isInit then _ else _)
    (if r.isInit then _ else _)
  split
  · exact .receiver r.frame
  · cases flow with
    | proceed => exact .pure Value.nil
    | returned v => exact .pure v

theorem executeAll_succ (ih : MovesOn exact f before n n') (ss : List Code) (m : Machine) :
    Moves exact f before m (Flow.reline f) (Run.executeAll (n + 1) ss)
      (Run.executeAll (n' + 1) (Stmt.relineAll f ss)) := by
  cases ss with
  | nil => exact .pure Flow.proceed
  | cons s ss =>
    refine .bind (ih.execute s m) fun flow m' => ?_
    cases flow with
    | proceed => exact ih.executeAll ss m'
    | returned v => exact .pure (Flow.returned v)

theorem execute_succ (ih : MovesOn exact f before n n') (s : Code) (m : Machine) :
    Moves exact f before m (Flow.reline f) (Run.execute (n + 1) s)
      (Run.execute (n' + 1) (s.reline f)) := by
  cases s with
  | expression e => exact .bind (ih.evaluate e m) fun _ _ => .pure Flow.proceed
  | print e =>
    refine .bind (ih.evaluate e m) fun v m' => ?_
    rw [Value.text_reline]
    exact .bind (.printLine v.text) fun _ _ => .pure Flow.proceed
  | var name init =>
    cases init with
    | none => exact .bind (.define name.lexeme .nil) fun _ _ => .pure Flow.proceed
    | some e =>
      refine .bind (ih.evaluate e m) fun v _ => ?_
      exact .bind (.define name.lexeme v) fun _ _ => .pure Flow.proceed
  | block body =>
    refine .get (.bind (.createFrame .empty m.frame) fun frame m' => ?_)
    exact .inFrame frame (ih.executeAll body)
  | cond test yes no =>
    cases no with
    | none =>
      refine .bind (ih.evaluate test m) fun v m' => ?_
      rw [Value.isTruthy_reline]
      split
      · exact ih.execute yes m'
      · exact .pure Flow.proceed
    | some no =>
      refine .bind (ih.evaluate test m) fun v m' => ?_
      rw [Value.isTruthy_reline]
      split
      · exact ih.execute yes m'
      · exact ih.execute no m'
  | loop test body =>
    refine .bind (ih.evaluate test m) fun v m' => ?_
    rw [Value.isTruthy_reline]
    split
    · refine .bind (ih.execute body m') fun flow m' => ?_
      cases flow with
      | proceed => exact ih.execute (.loop test body) m'
      | returned v => exact .pure (Flow.returned v)
    · exact .pure Flow.proceed
  | function name params body =>
    refine .bind (.newFunction (some name.lexeme) params body) fun v _ => ?_
    exact .bind (.define name.lexeme v) fun _ _ => .pure Flow.proceed
  | ret keyword value =>
    cases value with
    | none => exact .pure (Flow.returned .nil)
    | some e => exact .bind (ih.evaluate e m) fun v _ => .pure (Flow.returned v)
  | classDecl name superclass methods =>
    exact .bind (.declareClass name superclass methods) fun _ _ => .pure Flow.proceed

end MovesOn

/-- **Every run is moved**, by induction on the fuel. -/
theorem movesOn (exact : Prop) (f : Nat → Nat) (before : ByteArray) {n n' : Nat} (h : n ≤ n')
    (hexact : exact → n = n') : MovesOn exact f before n n' := by
  induction n generalizing n' with
  | zero =>
    by_cases hx : exact
    · obtain rfl := hexact hx
      exact ⟨fun _ _ => .throw _, fun _ _ => .throw _, fun _ _ _ _ => .throw _,
        fun _ _ _ => .throw _, fun _ _ _ => .throw _, fun _ _ => .throw _, fun _ _ => .throw _⟩
    · exact ⟨fun _ _ => .outOfFuel hx, fun _ _ => .outOfFuel hx, fun _ _ _ _ => .outOfFuel hx,
        fun _ _ _ => .outOfFuel hx, fun _ _ _ => .outOfFuel hx, fun _ _ => .outOfFuel hx,
        fun _ _ => .outOfFuel hx⟩
  | succ n ih =>
    obtain ⟨n', rfl⟩ := Nat.exists_eq_succ_of_ne_zero (Nat.ne_zero_of_lt h)
    have ih := ih (Nat.le_of_succ_le_succ h) fun hx => Nat.succ.inj (hexact hx)
    exact ⟨ih.evaluate_succ, ih.evaluateAll_succ, ih.call_succ, ih.apply_succ, ih.invoke_succ,
      ih.executeAll_succ, ih.execute_succ⟩

/-- A line of code is moved. -/
theorem Moves.line (exact : Prop) (f : Nat → Nat) (before : ByteArray) {n n' : Nat} (h : n ≤ n')
    (hexact : exact → n = n') (code : Line (Option Nat)) (m : Machine) :
    Moves exact f before m (Option.map (Value.reline f)) (line n code)
      (line n' (code.reline f)) := by
  have hon := movesOn exact f before h hexact
  refine .bind (hon.executeAll code.statements m) fun _ m' => ?_
  obtain ⟨ss, trailing⟩ := code
  cases trailing with
  | none => exact .pure none
  | some e => exact .bind (hon.evaluate e m') fun v _ => .pure (some v)

end Run

end LoxLang
