import LoxLang.Proofs.Loops.Machine

/-!
# Running in step without the frames of empty scopes

Two runs are in step if, from machines that differ in the frames of scopes that are left out, they
end alike: both with related results or both with the same fault, on machines that again differ in
such frames alone (`Gaps.Simulates`). Sequences of runs in step are in step, and so are the steps of
the machine where the second run has its sites bound in the scopes that stay. A block that is run in
a frame of its own is in step with what is run without that frame (`Gaps.Simulates.leaveOut`).
-/

namespace LoxLang

namespace Gaps

variable {α β γ ε : Type}

/-- Ends of two runs that differ in the frames of scopes that are left out. -/
inductive Ends (W : Places) (i : Nat) (p : Place) (P : Places → α → β → Prop) :
    EStateM.Result Fault Machine α → EStateM.Result Fault Machine β → Prop
  | ok {W' : Places} {m m' : Machine} {a : α} {b : β} : W.Extends W' → Machines W' i p m m' →
      P W' a b → Ends W i p P (.ok a m) (.ok b m')
  | error {W' : Places} {m m' : Machine} (e : Fault) : W.Extends W' → Machines W' i p m m' →
      Ends W i p P (.error e m) (.error e m')

/-- Two runs are in step in a frame and in its place. -/
def Simulates (W : Places) (i : Nat) (p : Place) (P : Places → α → β → Prop) (x : Run α)
    (y : Run β) : Prop :=
  ∀ m m', Machines W i p m m' → Ends W i p P (x m) (y m')

/-- Results that are equal. -/
def Same (_ : Places) (a b : α) : Prop := b = a

namespace Simulates

variable {W W' : Places} {i : Nat} {p : Place} {P Q : Places → α → β → Prop}
  {R : Places → γ → ε → Prop} {x : Run α} {y : Run β}

theorem pure {a : α} {b : β} (h : P W a b) : Simulates W i p P (pure a) (pure b) :=
  fun _ _ hm => .ok (.refl W) hm h

theorem throw (e : Fault) : Simulates W i p P (throw e) (throw e) :=
  fun _ _ hm => .error e (.refl W) hm

theorem fail (t : Token) (cause : RuntimeCause) :
    Simulates W i p P (Run.fail t cause) (Run.fail t cause) :=
  throw _

/-- The parts of a sequence are in step one after the other. -/
theorem bind {k : α → Run γ} {k' : β → Run ε} (hx : Simulates W i p P x y)
    (hk : ∀ W', W.Extends W' → ∀ a b, P W' a b → Simulates W' i p R (k a) (k' b)) :
    Simulates W i p R (x >>= k) (y >>= k') := by
  intro m m' hm
  have h := hx m m' hm
  change Ends W i p R (EStateM.bind x k m) (EStateM.bind y k' m')
  unfold EStateM.bind
  generalize x m = a at h
  generalize y m' = b at h
  cases h with
  | error e hW hm' => exact .error e hW hm'
  | @ok W₁ m₁ m₁' a b hW hm' hab =>
    have h' := hk W₁ hW a b hab m₁ m₁' hm'
    dsimp only
    generalize k a m₁ = r at h'
    generalize k' b m₁' = r' at h'
    cases h' with
    | ok hW' hm'' hcd => exact .ok (hW.trans hW') hm'' hcd
    | error e hW' hm'' => exact .error e (hW.trans hW') hm''

/-- A step from one machine to one machine. -/
theorem step {f : Machine → α × Machine} {f' : Machine → β × Machine}
    (h : ∀ m m', Machines W i p m m' →
      Machines W i p (f m).2 (f' m').2 ∧ P W (f m).1 (f' m').1) :
    Simulates W i p P (modifyGet f) (modifyGet f') :=
  fun m m' hm => .ok (.refl W) (h m m' hm).1 (h m m' hm).2

theorem check (t : Token) {r r' : Except RuntimeCause Value}
    (h : Value.SameResult (Values W) r r') :
    Simulates W i p Values (Run.check t r) (Run.check t r') := by
  cases h with
  | ok hv => exact pure hv
  | error cause => exact fail t cause

/-! ## Elementary steps -/

/-- The machines that are looked at differ in the frames that are left out. -/
theorem get : Simulates W i p (fun W' m m' => Machines W' i p m m') MonadState.get
    MonadState.get :=
  fun _ _ hm => .ok (.refl W) hm hm

/-- A frame for a scope that stays. -/
theorem createFrame {names names' : Table Value} (ht : names.Rel (Values W) names') {parent : Nat}
    {q : Place} (hparent : W parent = some q) :
    Simulates W i p (fun W' j j' => W' j = some ⟨j', false :: q.gaps⟩)
      (Run.createFrame names parent) (Run.createFrame names' q.frame) :=
  fun _ _ hm => .ok (Places.extends_add hm.nextFrame_unknown _) (hm.grow hparent ht)
    (Places.add_self ..)

/-- Runs that are in step inside a frame and inside its place. -/
theorem inFrame {j : Nat} {q : Place} (hj : W j = some q) (h : Simulates W j q P x y) :
    Simulates W i p P (Run.inFrame j x) (Run.inFrame q.frame y) := by
  intro m m' hm
  have hin : Machines W j q { m with frame := j } { m' with frame := q.frame } :=
    { hm with frame := rfl, frame' := rfl, here := hj }
  have h := h _ _ hin
  unfold Run.inFrame
  generalize x { m with frame := j } = a at h
  generalize y { m' with frame := q.frame } = b at h
  cases h with
  | ok hW hm' hab =>
    exact .ok hW { hm' with
      frame := hm.frame
      frame' := hm.frame'
      here := hW _ _ hm.here } hab
  | error e hW hm' =>
    exact .error e hW { hm' with
      frame := hm.frame
      frame' := hm.frame'
      here := hW _ _ hm.here }

/-- A block that declares nothing may be run in the frame around it. -/
theorem leaveOut (h : ∀ W' j, W.Extends W' →
      Simulates W' j ⟨p.frame, true :: p.gaps⟩ P x y) :
    Simulates W i p P (do Run.inFrame (← Run.createFrame .empty (← MonadState.get).frame) x) y := by
  intro m m' hm
  have hwide := hm.widen
  have hW := Places.extends_add hm.nextFrame_unknown ⟨p.frame, true :: p.gaps⟩
  have h := h _ m.nextFrame hW _ _ hwide
  change Ends W i p P (Run.inFrame m.nextFrame x (m.grow .empty m.frame)) (y m')
  rw [hm.frame]
  unfold Run.inFrame
  dsimp only
  generalize x { m.grow .empty i with frame := m.nextFrame } = a at h
  generalize y m' = b at h
  cases h with
  | ok hW' hm' hab =>
    exact .ok (hW.trans hW') { hm' with
      frame := hm.frame
      here := hW' _ _ (hW _ _ hm.here) } hab
  | error e hW' hm' =>
    exact .error e (hW.trans hW') { hm' with
      frame := hm.frame
      here := hW' _ _ (hW _ _ hm.here) }

theorem inCall (h : Simulates W i p P x y) :
    Simulates W i p P (Run.inCall x) (Run.inCall y) := by
  intro m m' hm
  have h := h { m with depth := m.depth + 1 } { m' with depth := m'.depth + 1 }
    { hm with depth := congrArg (· + 1) hm.depth }
  unfold Run.inCall
  generalize x { m with depth := m.depth + 1 } = a at h
  generalize y { m' with depth := m'.depth + 1 } = b at h
  cases h with
  | ok hW hm' hab => exact .ok hW { hm' with depth := congrArg (· - 1) hm'.depth } hab
  | error e hW hm' => exact .error e hW { hm' with depth := congrArg (· - 1) hm'.depth }

theorem newIdentity : Simulates W i p Same Run.newIdentity Run.newIdentity :=
  step fun _ _ hm => ⟨{ hm with identities := congrArg (· + 1) hm.identities }, hm.identities⟩

/-- A name gets a value in a frame for a scope that stays. -/
theorem define (hp : p.gaps.here = false) (name : String) {v v' : Value} (hv : Values W v v') :
    Simulates W i p Same (Run.define name v) (Run.define name v') := by
  intro m m' hm
  rw [Run.define_eq, Run.define_eq, hm.frame, hm.frame']
  exact .ok (.refl W) (hm.put hm.here hp name hv) rfl

theorem printLine (text : String) :
    Simulates W i p Same (Run.printLine text) (Run.printLine text) := by
  intro m m' hm
  have hfits : m'.fits (text ++ "\n").toUTF8 = m.fits (text ++ "\n").toUTF8 := by
    rw [Machine.fits, Machine.fits, hm.room]
  have hwrite := hm.write (text ++ "\n").toUTF8
  rw [Run.printLine_eq, Run.printLine_eq, hfits]
  split
  · exact .ok (.refl W) hwrite rfl
  · exact .error _ (.refl W) hwrite

theorem readClock : Simulates W i p Values Run.readClock Run.readClock :=
  step fun m m' hm => ⟨{ hm with ticks := congrArg (· + 1) hm.ticks }, by
    change Value.Related _ _ (.number _) (.number _)
    rw [hm.clock, hm.ticks]
    exact .number _⟩

theorem newObject {c c' : Class} (hc : Classes W c c') :
    Simulates W i p (fun W' o o' => Values W' (.object o) (.object o')) (Run.newObject c)
      (Run.newObject c') := by
  refine step fun m m' hm => ⟨hm.newObject, ?_⟩
  rw [size_eq_of_rel hm.objects]
  exact .object _ hc

theorem setField {o o' : Object} (ho : Values W (.object o) (.object o')) (name : String)
    {v v' : Value} (hv : Values W v v') :
    Simulates W i p Same (Run.setField o name v) (Run.setField o' name v') := by
  cases ho
  exact step fun m m' hm => ⟨hm.setField _ name hv, rfl⟩

theorem receiver {j : Nat} {q : Place} (hj : W j = some q) (hq : q.gaps.here = false) :
    Simulates W i p Values (Run.receiver j) (Run.receiver q.frame) := by
  refine bind get fun W' hW m m' hm => pure ?_
  have hc := hm.cells j q (hW _ _ hj) hq thisName
  generalize m.store.get? j thisName = o at hc ⊢
  generalize m'.store.get? q.frame thisName = o' at hc ⊢
  cases hc with
  | some hv => exact hv
  | none => exact .nil

/-! ## Sites -/

section

variable {Γ : Context}

/-- A site reads related values, or is undefined in both runs. -/
theorem lookUp (hΓ : p.gaps.In Γ) {s : Site (Option Nat)}
    (hs : s.mark = Γ.distance? s.name.lexeme) :
    Simulates W i p Values (Run.lookUp s)
      (Run.lookUp ((s.map fun _ => ()).bindIn (p.gaps.thin Γ.names))) := by
  intro m m' hm
  have hv := hm.value? hΓ hs
  rw [Run.lookUp_eq, Run.lookUp_eq]
  generalize m.value? s = o at hv ⊢
  generalize m'.value? ((s.map fun _ => ()).bindIn (p.gaps.thin Γ.names)) = o' at hv ⊢
  cases hv with
  | some hv => exact .ok (.refl W) hm hv
  | none => exact .error _ (.refl W) hm

theorem assign (hΓ : p.gaps.In Γ) {s : Site (Option Nat)}
    (hs : s.mark = Γ.distance? s.name.lexeme) {v v' : Value} (hv : Values W v v') :
    Simulates W i p Same (Run.assign s v)
      (Run.assign ((s.map fun _ => ()).bindIn (p.gaps.thin Γ.names)) v') := by
  intro m m' hm
  have ht := hm.target? hΓ hs
  rw [Run.assign_eq, Run.assign_eq]
  generalize m.target? s = o at ht ⊢
  generalize m'.target? ((s.map fun _ => ()).bindIn (p.gaps.thin Γ.names)) = o' at ht ⊢
  cases ht with
  | none => exact .error _ (.refl W) hm
  | some ht =>
    obtain ⟨δ, hj, hδ⟩ := ht
    exact .ok (.refl W) (hm.put hj hδ _ hv) rfl

end

/-! ## Routines and classes -/

section

variable {Γ : Context}

theorem newFunction (hΓ : p.gaps.In Γ) (name : Option String) {kind : BodyKind}
    {params : List Token} {body : List Code}
    (h : Node.Accepted (.ofParams kind params :: Γ) (.stmts body)) :
    Simulates W i p Values (Run.newFunction name params body)
      (Run.newFunction name params (Stmt.bindAllIn
        (params.map Token.lexeme :: p.gaps.thin Γ.names) (Stmt.bareAll body))) := by
  refine bind newIdentity fun W₁ hW₁ k k' hk => ?_
  cases hk
  refine bind get fun W₂ hW₂ m m' hm => pure (.function _ ?_)
  refine ⟨rfl, rfl, rfl, Γ, kind, params, p.gaps, ?_, hΓ, nofun, h, rfl⟩
  rw [hm.frame, hm.frame']
  exact hm.here

/-- Binding a method puts the scope of its receiver around it. -/
theorem bindMethod {r r' : Routine} (hr : Routines W [.receiver] r r') {o o' : Object}
    (ho : Values W (.object o) (.object o')) :
    Simulates W i p (fun W' b b' => Routines W' [] b b') (Run.bindMethod r o)
      (Run.bindMethod r' o') := by
  obtain ⟨Γ, kind, params, δ, hδ, hΓ, -, hbody, hbody'⟩ := hr.code
  refine bind (createFrame (.single thisName ho) hδ) fun W' hW j j' hj => pure ?_
  exact ⟨hr.name, hr.params, hr.isInit, .receiver :: Γ, kind, params, false :: δ, hj, .keep hΓ,
    fun _ _ => rfl, hbody, hbody'⟩

theorem methodValue {r r' : Routine} (hr : Routines W [.receiver] r r') {o o' : Object}
    (ho : Values W (.object o) (.object o')) :
    Simulates W i p Values (Run.methodValue r o) (Run.methodValue r' o') := by
  refine bind (bindMethod hr ho) fun W₁ hW₁ b b' hb => ?_
  refine bind newIdentity fun W₂ hW₂ k k' hk => pure ?_
  cases hk
  exact .function _ (hb.mono hW₂)

theorem getProperty {v v' : Value} (hv : Values W v v') (name : Token) :
    Simulates W i p Values (Run.getProperty v name) (Run.getProperty v' name) := by
  unfold Run.getProperty
  cases hv with
  | @object address c c' hc =>
    refine bind get fun W' hW m m' hm => ?_
    have hfield := hm.field? address name.lexeme
    have hmethod := (Classes.mono hc hW).method? name.lexeme
    dsimp only
    generalize m.objects[address]?.bind (·.find? name.lexeme) = o at hfield ⊢
    generalize m'.objects[address]?.bind (·.find? name.lexeme) = o' at hfield ⊢
    cases hfield with
    | some hv => exact pure hv
    | none =>
      dsimp only
      generalize c.method? name.lexeme = r at hmethod ⊢
      generalize c'.method? name.lexeme = r' at hmethod ⊢
      cases hmethod with
      | some hr => exact methodValue hr (.object address (Classes.mono hc hW))
      | none => exact fail name _
  | nil | bool | number | string | clock | function | cls => exact fail name _

/-- The scopes of the superclass and of the receiver stay, and are neighbours. -/
theorem superMethod (hΓ : p.gaps.In Γ) {s : Site (Option Nat)} {method : Token}
    (h : Node.Accepted Γ (.expr (.super s method))) :
    Simulates W i p Values (Run.superMethod s method)
      (Run.superMethod ((s.map fun _ => ()).bindIn (p.gaps.thin Γ.names)) method) := by
  obtain ⟨hmark, hcls⟩ := h.resolved.here
  have hname : s.name.lexeme = superName := h.spelled
  obtain ⟨d, hkeeps, hkeeps', hd, ht⟩ := hΓ.super h.proper hcls
  unfold Run.superMethod Site.bindIn Site.map
  dsimp only
  rw [hmark, hname, hd, ht]
  refine bind get fun W' hW m m' hm => ?_
  have hsuper := hm.readAt? hkeeps' superName
  have hthis := hm.readAt? hkeeps thisName
  rw [close_succ hkeeps] at hsuper
  simp only [Nat.add_sub_cancel, Nat.succ_ne_zero, if_false]
  generalize m.store.readAt? (d + 1) m.frame superName = v at hsuper ⊢
  generalize m'.store.readAt? (p.gaps.close d + 1) m'.frame superName = v' at hsuper ⊢
  generalize m.store.readAt? d m.frame thisName = o at hthis ⊢
  generalize m'.store.readAt? (p.gaps.close d) m'.frame thisName = o' at hthis ⊢
  cases hsuper with
  | none => exact fail s.name _
  | some hv =>
    cases hv with
    | @cls c c' hc =>
      cases hthis with
      | none => exact fail s.name _
      | some ho =>
        cases ho with
        | object address ho =>
          have hmethod := hc.method? method.lexeme
          dsimp only
          generalize c.method? method.lexeme = r at hmethod ⊢
          generalize c'.method? method.lexeme = r' at hmethod ⊢
          cases hmethod with
          | some hr => exact methodValue hr (.object address ho)
          | none => exact fail method _
        | nil | bool | number | string | clock | function | cls => exact fail s.name _
    | nil | bool | number | string | clock | function | object => exact fail s.name _

theorem superclassOf (hΓ : p.gaps.In Γ) {superclass : Option (Site (Option Nat))}
    (hs : ∀ s ∈ superclass, s.mark = Γ.distance? s.name.lexeme) :
    Simulates W i p
      (fun W' c c' => Option.Rel (Classes W') c c' ∧ c.isSome = superclass.isSome)
      (Run.superclassOf superclass)
      (Run.superclassOf ((superclass.map (Site.map fun _ => ())).map
        (Site.bindIn (p.gaps.thin Γ.names)))) := by
  cases superclass with
  | none => exact pure ⟨.none, rfl⟩
  | some s =>
    refine bind (lookUp hΓ (hs s rfl)) fun W' hW v v' hv => ?_
    cases hv with
    | cls hc => exact pure ⟨.some hc, rfl⟩
    | nil | bool | number | string | clock | function | object => exact fail s.name _

/-- The methods of a derived class close over a frame with the superclass. -/
theorem methodFrame {c c' : Option Class} (hc : Option.Rel (Classes W) c c') :
    Simulates W i p
      (fun W' j j' => W' j = some ⟨j', (if c.isSome then [false] else []) ++ p.gaps⟩)
      (Run.methodFrame c) (Run.methodFrame c') := by
  cases hc with
  | none =>
    refine bind get fun W' hW m m' hm => pure ?_
    rw [hm.frame, hm.frame']
    exact hm.here
  | @some c c' hc =>
    refine bind get fun W' hW m m' hm => ?_
    rw [hm.frame, hm.frame']
    exact createFrame (.single superName (.cls (Classes.mono hc hW))) hm.here

/-- The methods of a class stand in the scope of their receiver. -/
theorem methodTable {j j' : Nat} {δ : Gaps} (hj : W j = some ⟨j', δ⟩) (hΓ : δ.In Γ)
    {methods : List (Method (Option Nat))}
    (hm : ∀ m ∈ methods, Node.Accepted (m.node (.receiver :: Γ)).1 (m.node (.receiver :: Γ)).2) :
    Table.Rel (Routines W [.receiver]) (Run.methodTable methods j)
      (Run.methodTable (Method.bindAllIn ([thisName] :: δ.thin Γ.names)
        (Method.bareAll methods)) j') := by
  suffices hfold : ∀ t t' : Table Routine, t.Rel (Routines W [.receiver]) t' →
      Table.Rel (Routines W [.receiver]) (methods.foldl _ t)
        ((Method.bindAllIn ([thisName] :: δ.thin Γ.names) (Method.bareAll methods)).foldl _ t') from
    hfold _ _ .empty
  induction methods with
  | nil => exact fun _ _ ht => ht
  | cons m methods ih =>
    intro t t' ht
    obtain ⟨name, params, body⟩ := m
    obtain ⟨hbody, hm⟩ := List.forall_mem_cons.1 hm
    refine ih hm _ _ (ht.insert name.lexeme ?_)
    exact ⟨rfl, rfl, rfl, Γ, .ofMethod name, params, δ, hj, hΓ, nofun, hbody, rfl⟩

theorem declareClass (hΓ : p.gaps.In Γ) (hp : p.gaps.here = false) {name : Token}
    {superclass : Option (Site (Option Nat))} {methods : List (Method (Option Nat))}
    (h : Node.Accepted Γ (.stmt (.classDecl name superclass methods))) :
    Simulates W i p Same (Run.declareClass name superclass methods)
      (Run.declareClass name ((superclass.map (Site.map fun _ => ())).map
          (Site.bindIn ((p.gaps.thin Γ.names).declare name.lexeme)))
        (Method.bindAllIn ((p.gaps.thin Γ.names).inClass name.lexeme superclass.isSome)
          (Method.bareAll methods))) := by
  obtain ⟨hdeclare, hnames⟩ := hΓ.declare hp name.lexeme
  rw [Run.declareClass_eq, Run.declareClass_eq, hnames, hΓ.inClass hp]
  refine bind (superclassOf hdeclare fun s hs => ?_) fun W₁ hW₁ above above' ⟨habove, hsome⟩ => ?_
  · exact (h.child (List.mem_append_left _
      (List.mem_map_of_mem (Option.mem_toList.2 hs)))).resolved.here.1
  refine bind (methodFrame habove) fun W₂ hW₂ j j' hj => ?_
  refine bind newIdentity fun W₃ hW₃ identity identity' hid => ?_
  cases hid
  have hmethods : ∀ m ∈ methods, Node.Accepted (m.node (Γ.inClass name.lexeme superclass.isSome)).1
      (m.node (Γ.inClass name.lexeme superclass.isSome)).2 :=
    fun m hm => h.child (List.mem_append_right _ (List.mem_map_of_mem hm))
  rw [← hsome] at hmethods ⊢
  refine define hp name.lexeme (.cls ?_)
  cases habove with
  | none => exact .base (methodTable (hW₃ _ _ hj) hdeclare hmethods)
  | some habove =>
    have hkeep : In (false :: p.gaps) (.superclass :: Γ.declare name.lexeme) := .keep hdeclare
    exact .derived (Classes.mono habove (hW₂.trans hW₃)) (methodTable (hW₃ _ _ hj) hkeep hmethods)

end

end Simulates

end Gaps

end LoxLang
