import LoxLang.Proofs.Lexical.Agreement

/-!
# Running in step

Two programs run in step if, from states that agree, they end alike: both with results that are
related or both with the same fault, and in states that agree again, with no frame gone
(`Simulates`). Sequences of steps that run in step run in step (`Simulates.bind`), and so do the
elementary steps of the machine and of the reference interpreter.
-/

namespace LoxLang

variable {α β γ δ : Type} {w w' : Depths} {k : Nat}

/-- Ends of two programs that agree. -/
inductive Ends (w : Depths) (k : Nat) (P : Depths → α → β → Prop) :
    EStateM.Result Fault Machine α → EStateM.Result Fault Lexical.State β → Prop
  | ok {w' : Depths} {m : Machine} {s : Lexical.State} {a : α} {b : β} : w <+: w' →
      Agree w' k m s → P w' a b → Ends w k P (.ok a m) (.ok b s)
  | error {w' : Depths} {m : Machine} {s : Lexical.State} (e : Fault) : w <+: w' →
      Agree w' k m s → Ends w k P (.error e m) (.error e s)

/-- Two programs run in step in frames that stand in `k` scopes. -/
def Simulates (w : Depths) (k : Nat) (P : Depths → α → β → Prop) (x : Run α)
    (y : Lexical.Run β) : Prop :=
  ∀ m s, Agree w k m s → Ends w k P (x m) (y s)

/-- Results that are equal. -/
def Same (_ : Depths) (a b : α) : Prop := b = a

/-- Results that are values and agree. -/
def SameValue (w : Depths) (v v' : Value) : Prop := v.Agrees w v'

namespace Simulates

variable {P Q : Depths → α → β → Prop} {R : Depths → γ → δ → Prop} {x : Run α} {y : Lexical.Run β}

theorem pure {a : α} {b : β} (h : P w a b) : Simulates w k P (pure a) (pure b) :=
  fun _ _ hms => .ok (List.prefix_refl w) hms h

theorem throw (e : Fault) : Simulates w k P (throw e) (throw e) :=
  fun _ _ hms => .error e (List.prefix_refl w) hms

theorem fail (t : Token) (cause : RuntimeCause) :
    Simulates w k P (Run.fail t cause) (Lexical.fail t cause) :=
  throw _

/-- The parts of a sequence run in step one after the other. -/
theorem bind {f : α → Run γ} {g : β → Lexical.Run δ} (hx : Simulates w k P x y)
    (hf : ∀ w', w <+: w' → ∀ a b, P w' a b → Simulates w' k R (f a) (g b)) :
    Simulates w k R (x >>= f) (y >>= g) := by
  intro m s hms
  have h := hx m s hms
  change Ends w k R (EStateM.bind x f m) (EStateM.bind y g s)
  unfold EStateM.bind
  generalize x m = a at h
  generalize y s = b at h
  cases h with
  | ok hw hms' hab =>
    rename_i m' s' a b
    have h' := hf _ hw a b hab m' s' hms'
    dsimp only
    generalize f a m' = c at h'
    generalize g b s' = d at h'
    cases h' with
    | ok hw' hms'' hcd => exact .ok (hw.trans hw') hms'' hcd
    | error e hw' hms'' => exact .error e (hw.trans hw') hms''
  | error e hw hms' => exact .error e hw hms'

/-- A step from one state to one state. -/
theorem step {f : Machine → α × Machine} {g : Lexical.State → β × Lexical.State}
    (h : ∀ m s, Agree w k m s →
      ∃ w', w <+: w' ∧ Agree w' k (f m).2 (g s).2 ∧ P w' (f m).1 (g s).1) :
    Simulates w k P (modifyGet f) (modifyGet g) := by
  intro m s hms
  obtain ⟨w', hw, hms', hab⟩ := h m s hms
  exact .ok hw hms' hab

theorem check (t : Token) {r r' : Except RuntimeCause Value} (h : Value.ResultsAgree w r r') :
    Simulates w k SameValue (Run.check t r) (Lexical.check t r') := by
  cases h with
  | ok hv => exact pure hv
  | error cause => exact fail t cause

/-! ## Elementary steps -/

/-- The states that are looked at agree. -/
theorem get : Simulates w k (fun w' m s => Agree w' k m s) MonadState.get MonadState.get :=
  fun _ _ hms => .ok (List.prefix_refl w) hms hms

theorem createFrame {names names' : Table Value} (ht : names.Rel (Value.Agrees w) names')
    {parent depth : Nat} (hp : w[parent]? = some depth) :
    Simulates w k (fun w' i j => j = i ∧ w'[i]? = some (depth + 1)) (Run.createFrame names parent)
      (Lexical.activate names' parent) := by
  refine step fun m s hms => ⟨w ++ [depth + 1], List.prefix_append _ _, hms.grow ht hp, ?_, ?_⟩
  · exact hms.activations.trans hms.frames.symm
  · change (w ++ [depth + 1])[m.store.frames.size]? = _
    rw [hms.frames, List.getElem?_concat_length]

/-- Programs that run in step inside a frame and inside its activation. -/
theorem inFrame {i depth : Nat} (hi : w[i]? = some depth) (h : Simulates w depth P x y) :
    Simulates w k P (Run.inFrame i x) (Lexical.inside i y) := by
  intro m s hms
  have hin : Agree w depth { m with frame := i } { s with current := i } :=
    { hms with current := rfl, here := hi }
  have h := h _ _ hin
  unfold Run.inFrame Lexical.inside
  dsimp only
  generalize x { m with frame := i } = a at h
  generalize y { s with current := i } = b at h
  cases h with
  | ok hw hms' hab =>
    exact .ok hw { hms' with
      current := hms.current
      here := Depths.getElem?_mono hw hms.here } hab
  | error e hw hms' =>
    exact .error e hw { hms' with
      current := hms.current
      here := Depths.getElem?_mono hw hms.here }

theorem inCall (h : Simulates w k P x y) :
    Simulates w k P (Run.inCall x) (Lexical.inCall y) := by
  intro m s hms
  have h := h { m with depth := m.depth + 1 } { s with depth := s.depth + 1 }
    { hms with depth := congrArg (· + 1) hms.depth }
  unfold Run.inCall Lexical.inCall
  generalize x { m with depth := m.depth + 1 } = a at h
  generalize y { s with depth := s.depth + 1 } = b at h
  cases h with
  | ok hw hms' hab => exact .ok hw { hms' with depth := congrArg (· - 1) hms'.depth } hab
  | error e hw hms' => exact .error e hw { hms' with depth := congrArg (· - 1) hms'.depth }

theorem newIdentity : Simulates w k Same Run.newIdentity Lexical.newIdentity :=
  step fun _ _ hms => ⟨w, List.prefix_refl w,
    { hms with identities := congrArg (· + 1) hms.identities }, hms.identities⟩

theorem define (name : String) {v v' : Value} (hv : v.Agrees w v') :
    Simulates w k Same (Run.define name v) (Lexical.define name v') := by
  intro m s hms
  change Ends w k Same (.ok () (m.put m.frame name v)) (.ok () (s.setCell s.current name v'))
  rw [hms.current]
  exact .ok (List.prefix_refl w) (hms.put m.frame name hv) rfl

/-- A site reads values that agree, or is undefined in both programs. -/
theorem lookUp {Γ : Context} {site : Site (Option Nat)}
    (hs : site.mark = Γ.distance? site.name.lexeme) :
    Simulates w Γ.length SameValue (Run.lookUp site) (Lexical.lookUp (site.linkIn Γ.names)) := by
  intro m s hms
  have hv := hms.value? rfl hs
  rw [Run.lookUp_eq]
  unfold Lexical.lookUp
  generalize m.value? site = o at hv ⊢
  generalize s.value? (site.linkIn Γ.names) = o' at hv ⊢
  cases hv with
  | some hv => exact .ok (List.prefix_refl w) hms hv
  | none => exact .error _ (List.prefix_refl w) hms

theorem assign {Γ : Context} {site : Site (Option Nat)}
    (hs : site.mark = Γ.distance? site.name.lexeme) {v v' : Value} (hv : v.Agrees w v') :
    Simulates w Γ.length Same (Run.assign site v)
      (Lexical.assign (site.linkIn Γ.names) v') := by
  intro m s hms
  have ht := hms.target? rfl hs
  rw [Run.assign_eq]
  unfold Lexical.assign
  rw [ht]
  cases m.target? site with
  | none => exact .error _ (List.prefix_refl w) hms
  | some i => exact .ok (List.prefix_refl w) (hms.put i _ hv) rfl

theorem printLine (text : String) :
    Simulates w k Same (Run.printLine text) (Lexical.printLine text) := by
  intro m s hms
  have hfits : s.fits (text ++ "\n").toUTF8 = m.fits (text ++ "\n").toUTF8 := by
    rw [Lexical.State.fits, hms.room]
    rfl
  have hwrite := hms.write (text ++ "\n").toUTF8
  rw [Run.printLine_eq]
  unfold Lexical.printLine
  dsimp only
  rw [hfits]
  split
  · exact .ok (List.prefix_refl w) hwrite rfl
  · exact .error _ (List.prefix_refl w) hwrite

theorem readClock : Simulates w k SameValue Run.readClock Lexical.readClock :=
  step fun m s hms => ⟨w, List.prefix_refl w,
    { hms with ticks := congrArg (· + 1) hms.ticks }, by
      change Value.Agrees w (.number _) (.number _)
      rw [hms.clock, hms.ticks]
      exact .number _⟩

theorem newObject {c c' : Class} (hc : c.Agrees w c') :
    Simulates w k (fun w' o o' => (Value.object o).Agrees w' (.object o')) (Run.newObject c)
      (Lexical.newObject c') := by
  refine step fun m s hms => ⟨w, List.prefix_refl w, hms.newObject, ?_⟩
  rw [hms.size_objects]
  exact .object _ hc

theorem setField {o o' : Object} (ho : (Value.object o).Agrees w (.object o')) (name : String)
    {v v' : Value} (hv : v.Agrees w v') :
    Simulates w k Same (Run.setField o name v) (Lexical.setField o' name v') := by
  cases ho
  exact step fun m s hms => ⟨w, List.prefix_refl w, hms.setField _ name hv, rfl⟩

/-! ## Composite steps -/

theorem newFunction {Γ : Context} (name : Option String) (params : List Token) {body : List Code}
    {kind : BodyKind}
    (hb : Node.Everywhere Node.Resolved (.ofParams kind params :: Γ) (.stmts body)) :
    Simulates w Γ.length SameValue (Run.newFunction name params body)
      (Lexical.newFunction name params
        (Stmt.linkAllIn (params.map Token.lexeme :: Γ.names) body)) := by
  refine bind newIdentity fun w' hw i j hij => ?_
  cases hij
  refine bind get fun w'' hw' m s hms => pure (.function _ ?_)
  exact ⟨rfl, rfl, hms.current, rfl, Γ, kind, hms.here, hb, rfl⟩

/-- Binding a method puts the scope of its receiver around it. -/
theorem bindMethod {r r' : Routine} (hr : r.Agrees w [.receiver] r') {o o' : Object}
    (ho : (Value.object o).Agrees w (.object o')) :
    Simulates w k (fun w' b b' => b.Agrees w' [] b') (Run.bindMethod r o)
      (Lexical.bindMethod r' o') := by
  obtain ⟨Γ, kind, hΓ, hcode, hlink⟩ := hr.code
  unfold Run.bindMethod Lexical.bindMethod
  rw [hr.frame]
  refine bind (createFrame (.single thisName ho) hΓ) fun w' hw i j ⟨hij, hi⟩ => pure ?_
  cases hij
  exact ⟨hr.name, hr.params, rfl, hr.isInit, .receiver :: Γ, kind, hi, hcode, hlink⟩

theorem methodValue {r r' : Routine} (hr : r.Agrees w [.receiver] r') {o o' : Object}
    (ho : (Value.object o).Agrees w (.object o')) :
    Simulates w k SameValue (Run.methodValue r o) (Lexical.methodValue r' o') := by
  refine bind (bindMethod hr ho) fun w' hw b b' hb => ?_
  refine bind newIdentity fun w'' hw' i j hij => pure ?_
  cases hij
  exact .function _ (hb.mono hw')

theorem getProperty {v v' : Value} (hv : v.Agrees w v') (name : Token) :
    Simulates w k SameValue (Run.getProperty v name) (Lexical.getProperty v' name) := by
  unfold Run.getProperty Lexical.getProperty
  cases hv with
  | @object address c c' hc =>
    refine bind get fun w' hw m s hms => ?_
    have hfield := hms.field? address name.lexeme
    have hmethod := (hc.mono hw).method? name.lexeme
    dsimp only
    generalize m.objects[address]?.bind (·.find? name.lexeme) = o at hfield ⊢
    generalize s.objects[address]?.bind (·.find? name.lexeme) = o' at hfield ⊢
    cases hfield with
    | some hv => exact pure hv
    | none =>
      dsimp only
      generalize c.method? name.lexeme = r at hmethod ⊢
      generalize c'.method? name.lexeme = r' at hmethod ⊢
      cases hmethod with
      | some hr => exact methodValue hr (.object address (hc.mono hw))
      | none => exact fail name _
  | nil | bool | number | string | clock | function | cls => exact fail name _

/-- The superclass and the receiver are found in neighbouring scopes from either end. -/
theorem superMethod {Γ : Context} {site : Site (Option Nat)}
    (hs : site.mark = Γ.distance? site.name.lexeme) (method : Token) :
    Simulates w Γ.length SameValue (Run.superMethod site method)
      (Lexical.superMethod (site.linkIn Γ.names) method) := by
  unfold Run.superMethod Lexical.superMethod Site.linkIn
  rw [hs]
  obtain ⟨hd, hl⟩ | ⟨d, hd, hlt, hl⟩ := Γ.level?_names site.name.lexeme
  · rw [hd, hl]
    exact fail site.name _
  · rw [hd, hl]
    refine bind get fun w' hw m s hms => ?_
    have hsuper := hms.readAt? hlt superName
    have hthis : Option.Rel (Value.Agrees w')
        (if d = 0 then none else m.store.readAt? (d - 1) m.frame thisName)
        ((s.scopeAt? (Γ.length - 1 - d + 1)).bind (s.cell? · thisName)) := by
      split
      · next h0 =>
        have hlevel : Γ.length - 1 - d + 1 = Γ.length := by omega
        rw [hlevel, hms.scopeAt?_eq_none]
        exact .none
      · next h0 =>
        have hlevel : Γ.length - 1 - d + 1 = Γ.length - 1 - (d - 1) := by omega
        rw [hlevel]
        exact hms.readAt? (by omega) thisName
    dsimp only
    generalize m.store.readAt? d m.frame superName = v at hsuper ⊢
    generalize (s.scopeAt? (Γ.length - 1 - d)).bind (s.cell? · superName) = v' at hsuper ⊢
    generalize (if d = 0 then none else m.store.readAt? (d - 1) m.frame thisName) = o at hthis ⊢
    generalize (s.scopeAt? (Γ.length - 1 - d + 1)).bind (s.cell? · thisName) = o' at hthis ⊢
    cases hsuper with
    | none => exact fail site.name _
    | some hv =>
      cases hv with
      | @cls c c' hc =>
        cases hthis with
        | none => exact fail site.name _
        | some ho =>
          cases ho with
          | object address ho =>
            have hmethod := hc.method? method.lexeme
            dsimp only
            generalize c.method? method.lexeme = r at hmethod ⊢
            generalize c'.method? method.lexeme = r' at hmethod ⊢
            cases hmethod with
            | some hr => exact methodValue hr (.object address ho)
            | none => exact fail method _
          | nil | bool | number | string | clock | function | cls => exact fail site.name _
      | nil | bool | number | string | clock | function | object => exact fail site.name _

theorem superclassOf {Γ : Context} {superclass : Option (Site (Option Nat))}
    (hs : ∀ s ∈ superclass, s.mark = Γ.distance? s.name.lexeme) :
    Simulates w Γ.length
      (fun w' c c' => Option.Rel (Class.Agrees w') c c' ∧ c.isSome = superclass.isSome)
      (Run.superclassOf superclass)
      (Lexical.superclassOf (superclass.map (Site.linkIn Γ.names))) := by
  cases superclass with
  | none => exact pure ⟨.none, rfl⟩
  | some site =>
    refine bind (lookUp (hs site rfl)) fun w' hw v v' hv => ?_
    cases hv with
    | cls hc => exact pure ⟨.some hc, rfl⟩
    | nil | bool | number | string | clock | function | object => exact fail site.name _

/-- The methods of a derived class are created one scope further in. -/
theorem methodFrame {c c' : Option Class} (hc : Option.Rel (Class.Agrees w) c c') :
    Simulates w k (fun w' i j => j = i ∧ w'[i]? = some (if c.isSome then k + 1 else k))
      (Run.methodFrame c) (Lexical.methodScope c') := by
  cases hc with
  | none => exact bind get fun w' hw m s hms => pure ⟨hms.current, hms.here⟩
  | some hc =>
    refine bind get fun w' hw m s hms => ?_
    rw [hms.current]
    exact createFrame (.single superName (.cls (hc.mono hw))) hms.here

end Simulates

/-- The methods of a class agree if they stand in the scope of their receiver. -/
theorem Table.Rel.methodTable {Γ : Context} {i : Nat} (hΓ : w[i]? = some Γ.length)
    (methods : List (Method (Option Nat)))
    (hm : ∀ m ∈ methods, Node.Everywhere Node.Resolved (m.node (.receiver :: Γ)).1
      (m.node (.receiver :: Γ)).2) :
    (Run.methodTable methods i).Rel (Routine.Agrees w [.receiver])
      (Run.methodTable (Method.linkAllIn (Context.names (.receiver :: Γ)) methods) i) := by
  suffices hfold : ∀ t t' : Table Routine, t.Rel (Routine.Agrees w [.receiver]) t' → Table.Rel
      (Routine.Agrees w [.receiver]) (methods.foldl _ t)
      ((Method.linkAllIn (Context.names (.receiver :: Γ)) methods).foldl _ t') from
    hfold _ _ .empty
  induction methods with
  | nil => exact fun _ _ ht => ht
  | cons m methods ih =>
    intro t t' ht
    obtain ⟨name, params, body⟩ := m
    have hcode := hm _ List.mem_cons_self
    refine ih (fun m hmem => hm m (List.mem_cons_of_mem _ hmem)) _ _ (ht.insert name.lexeme ?_)
    exact ⟨rfl, rfl, rfl, rfl, Γ, .ofMethod name, hΓ, hcode, rfl⟩

namespace Simulates

theorem declareClass {Γ : Context} {name : Token} {superclass : Option (Site (Option Nat))}
    {methods : List (Method (Option Nat))}
    (h : Node.Everywhere Node.Resolved Γ (.stmt (.classDecl name superclass methods))) :
    Simulates w Γ.length Same (Run.declareClass name superclass methods)
      (Lexical.declareClass name (superclass.map (Site.linkIn (Γ.names.declare name.lexeme)))
        (Method.linkAllIn (Γ.names.inClass name.lexeme superclass.isSome) methods)) := by
  rw [Run.declareClass_eq]
  unfold Lexical.declareClass
  have hsuper : ∀ s ∈ superclass, s.mark = (Γ.declare name.lexeme).distance? s.name.lexeme := by
    rintro s rfl
    have hs : (Γ.declare name.lexeme, Node.expr (.ref s)) ∈
        Node.children Γ (.stmt (.classDecl name (some s) methods)) := List.mem_cons_self
    exact (h.child hs).here.1
  have hmethods : ∀ m ∈ methods, Node.Everywhere Node.Resolved
      (m.node (Γ.inClass name.lexeme superclass.isSome)).1
      (m.node (Γ.inClass name.lexeme superclass.isSome)).2 :=
    fun m hm => h.child (List.mem_append_right _ (List.mem_map_of_mem hm))
  have habove := superclassOf (w := w) hsuper
  rw [Context.length_declare, Context.names_declare] at habove
  refine bind habove fun w₁ hw₁ c c' ⟨hc, hsome⟩ => ?_
  refine bind (methodFrame hc) fun w₂ hw₂ i j ⟨hij, hi⟩ => ?_
  cases hij
  refine bind newIdentity fun w₃ hw₃ identity identity' hid => ?_
  cases hid
  have hframe : w₃[i]? = some (List.length
      ((if superclass.isSome then [Scope.superclass] else []) ++ Γ.declare name.lexeme)) := by
    rw [Depths.getElem?_mono hw₃ hi, hsome, List.length_append, Context.length_declare]
    cases superclass.isSome
    · rw [if_neg Bool.false_ne_true, if_neg Bool.false_ne_true, List.length_nil, Nat.zero_add]
    · rw [if_pos rfl, if_pos rfl, List.length_singleton, Nat.add_comm]
  have htable := Table.Rel.methodTable hframe methods hmethods
  rw [← Context.names_inClass]
  refine define name.lexeme (.cls ?_)
  cases hc with
  | none => exact .base htable
  | some hc => exact .derived (hc.mono (hw₂.trans hw₃)) htable

theorem receiver (i : Nat) :
    Simulates w k SameValue (Run.receiver i) (Lexical.receiver i) := by
  refine bind get fun w' hw m s hms => pure ?_
  have hc := hms.cells i thisName
  generalize m.store.get? i thisName = o at hc ⊢
  generalize s.cell? i thisName = o' at hc ⊢
  cases hc with
  | some hv => exact hv
  | none => exact .nil

end Simulates

end LoxLang
