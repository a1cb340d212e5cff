import LoxLang.Proofs.Renaming.Machine

/-!
# Running a renamed tree in step

Two runs are in step if, from machines that differ in a renaming alone, they end alike: both with
related results, or both with the same fault up to the name of an undefined variable, and on
machines that again differ in the renaming alone (`Renaming.Simulates`). Sequences of runs in step
are in step, and so are the elementary steps of the machine and what is put together from them.
-/

namespace LoxLang

namespace Renaming

/-- A fault of a tree and that of the renamed tree: they are the same, but a message may quote the
new name in place of the old one. -/
inductive Faults (ρ : Renaming) : Fault → Fault → Prop
  | same (e : Fault) : Faults ρ e e
  | undefined (line : Nat) : Faults ρ (.runtime line (.undefinedVariable ρ.old))
      (.runtime line (.undefinedVariable ρ.new))

theorem Faults.undefinedVariable (ρ : Renaming) (line : Nat) (picked : Bool) (name : String) :
    ρ.Faults (.runtime line (.undefinedVariable name))
      (.runtime line (.undefinedVariable (ρ.name picked name))) := by
  unfold Renaming.name
  split
  · next h => rw [h.2]; exact .undefined line
  · exact .same _

variable {α β γ ε : Type}

/-- Ends of two runs that differ in a renaming alone. -/
inductive Ends (ρ : Renaming) (g : Nat → Option Nat) (W : World) (δ : Flags)
    (P : World → α → β → Prop) :
    EStateM.Result Fault Machine α → EStateM.Result Fault Machine β → Prop
  | ok {W' : World} {m m' : Machine} {a : α} {b : β} : W <+: W' → ρ.Machines g W' δ m m' →
      P W' a b → Ends ρ g W δ P (.ok a m) (.ok b m')
  | error {W' : World} {m m' : Machine} {e e' : Fault} : W <+: W' → ρ.Machines g W' δ m m' →
      ρ.Faults e e' → Ends ρ g W δ P (.error e m) (.error e' m')

/-- Two runs are in step in frames that stand in scopes with the flags `δ`. -/
def Simulates (ρ : Renaming) (g : Nat → Option Nat) (W : World) (δ : Flags)
    (P : World → α → β → Prop) (x : Run α) (y : Run β) : Prop :=
  ∀ m m', ρ.Machines g W δ m m' → ρ.Ends g W δ P (x m) (y m')

/-- Results that are equal. -/
def Same (_ : World) (a b : α) : Prop := b = a

namespace Simulates

variable {ρ : Renaming} {g : Nat → Option Nat} {W W' : World} {δ : Flags}
  {P Q : World → α → β → Prop} {R : World → γ → ε → Prop} {x : Run α} {y : Run β}

theorem pure {a : α} {b : β} (h : P W a b) : ρ.Simulates g W δ P (pure a) (pure b) :=
  fun _ _ hm => .ok (List.prefix_refl W) hm h

theorem throw (e : Fault) : ρ.Simulates g W δ P (throw e) (throw e) :=
  fun _ _ hm => .error (List.prefix_refl W) hm (.same e)

theorem fail (t : Token) (cause : RuntimeCause) :
    ρ.Simulates g W δ P (Run.fail t cause) (Run.fail t cause) :=
  throw _

/-- The parts of a sequence are in step one after the other. -/
theorem bind {k : α → Run γ} {k' : β → Run ε} (hx : ρ.Simulates g W δ P x y)
    (hk : ∀ W', W <+: W' → ∀ a b, P W' a b → ρ.Simulates g W' δ R (k a) (k' b)) :
    ρ.Simulates g W δ R (x >>= k) (y >>= k') := by
  intro m m' hm
  have h := hx m m' hm
  change ρ.Ends g W δ R (EStateM.bind x k m) (EStateM.bind y k' m')
  unfold EStateM.bind
  generalize x m = a at h
  generalize y m' = b at h
  cases h with
  | error hW hm' he => exact .error hW hm' he
  | @ok W₁ m₁ m₁' a b hW hm' hab =>
    have h' := hk W₁ hW a b hab m₁ m₁' hm'
    dsimp only
    generalize k a m₁ = r at h'
    generalize k' b m₁' = r' at h'
    cases h' with
    | ok hW' hm'' hcd => exact .ok (hW.trans hW') hm'' hcd
    | error hW' hm'' he => exact .error (hW.trans hW') hm'' he

/-- A step from one machine to one machine. -/
theorem step {f : Machine → α × Machine} {f' : Machine → β × Machine}
    (h : ∀ m m', ρ.Machines g W δ m m' →
      ∃ W', W <+: W' ∧ ρ.Machines g W' δ (f m).2 (f' m').2 ∧ P W' (f m).1 (f' m').1) :
    ρ.Simulates g W δ P (modifyGet f) (modifyGet f') := by
  intro m m' hm
  obtain ⟨W', hW, hm', hab⟩ := h m m' hm
  exact .ok hW hm' hab

theorem check (t : Token) {r r' : Except RuntimeCause Value}
    (h : Value.SameResult (ρ.Values g W) r r') :
    ρ.Simulates g W δ (ρ.Values g) (Run.check t r) (Run.check t r') := by
  cases h with
  | ok hv => exact pure hv
  | error cause => exact fail t cause

/-! ## Elementary steps -/

/-- The machines that are looked at differ in the renaming alone. -/
theorem get : ρ.Simulates g W δ (fun W' m m' => ρ.Machines g W' δ m m') MonadState.get
    MonadState.get :=
  fun _ _ hm => .ok (List.prefix_refl W) hm hm

theorem createFrame (picked : Bool) {names names' : Table Value}
    (ht : ρ.Tables picked (ρ.Values g W) names names') {parent : Nat} {Δ : Flags}
    (hp : W[parent]? = some Δ) :
    ρ.Simulates g W δ (fun W' i j => j = i ∧ W'[i]? = some (picked :: Δ))
      (Run.createFrame names parent) (Run.createFrame names' parent) :=
  fun _ _ hm => .ok (List.prefix_append _ _) (hm.grow hp ht) (hm.flags_nextFrame _)

/-- Runs that are in step inside a frame. -/
theorem inFrame {i : Nat} {Δ : Flags} (hi : W[i]? = some Δ) (h : ρ.Simulates g W Δ P x y) :
    ρ.Simulates g W δ P (Run.inFrame i x) (Run.inFrame i y) := by
  intro m m' hm
  have hin : ρ.Machines g W Δ { m with frame := i } { m' with frame := i } :=
    { hm with frame := rfl, here := hi }
  have h := h _ _ hin
  unfold Run.inFrame
  generalize x { m with frame := i } = a at h
  generalize y { m' with frame := i } = b at h
  cases h with
  | ok hW hm' hab =>
    exact .ok hW { hm' with frame := hm.frame, here := getElem?_of_extends hW hm.here } hab
  | error hW hm' he =>
    exact .error hW { hm' with frame := hm.frame, here := getElem?_of_extends hW hm.here } he

theorem inCall (h : ρ.Simulates g W δ P x y) :
    ρ.Simulates g W δ P (Run.inCall x) (Run.inCall y) := by
  intro m m' hm
  have h := h { m with depth := m.depth + 1 } { m' with depth := m'.depth + 1 }
    { hm with depth := congrArg (· + 1) hm.depth }
  unfold Run.inCall
  generalize x { m with depth := m.depth + 1 } = a at h
  generalize y { m' with depth := m'.depth + 1 } = b at h
  cases h with
  | ok hW hm' hab => exact .ok hW { hm' with depth := congrArg (· - 1) hm'.depth } hab
  | error hW hm' he => exact .error hW { hm' with depth := congrArg (· - 1) hm'.depth } he

theorem newIdentity : ρ.Simulates g W δ Same Run.newIdentity Run.newIdentity :=
  step fun _ _ hm => ⟨W, List.prefix_refl W,
    { hm with identities := congrArg (· + 1) hm.identities }, hm.identities⟩

/-- A variable gets its value under the name it has in the innermost scope. -/
theorem define {name : String} (hname : name ≠ ρ.new) {v v' : Value} (hv : ρ.Values g W v v') :
    ρ.Simulates g W δ Same (Run.define name v) (Run.define (ρ.name δ.here name) v') := by
  intro m m' hm
  rw [Run.define_eq, Run.define_eq, hm.frame]
  exact .ok (List.prefix_refl W) (hm.put hm.here hname hv) rfl

/-- Functions and classes get their values under their own names. -/
theorem define_routine {name : String} (hname : name ≠ ρ.new)
    (hold : δ.here = true → name ≠ ρ.old) {v v' : Value} (hv : ρ.Values g W v v') :
    ρ.Simulates g W δ Same (Run.define name v) (Run.define name v') := by
  have hkeep : ρ.name δ.here name = name := if_neg fun h => hold h.1 h.2
  have h := define (δ := δ) hname hv
  rw [hkeep] at h
  exact h

/-- A site reads related values, or is undefined in both runs. -/
theorem lookUp {s : Site Nat} (hs : s.name.lexeme ≠ ρ.new) :
    ρ.Simulates g W δ (ρ.Values g) (Run.lookUp (s.map g)) (Run.lookUp ((ρ.site g δ s).map g)) := by
  intro m m' hm
  have hv := hm.value? hs
  rw [Run.lookUp_eq, Run.lookUp_eq]
  generalize m.value? (s.map g) = o at hv ⊢
  generalize m'.value? ((ρ.site g δ s).map g) = o' at hv ⊢
  cases hv with
  | some hv => exact .ok (List.prefix_refl W) hm hv
  | none => exact .error (List.prefix_refl W) hm (.undefinedVariable ρ _ _ _)

theorem assign {s : Site Nat} (hs : s.name.lexeme ≠ ρ.new) {v v' : Value}
    (hv : ρ.Values g W v v') :
    ρ.Simulates g W δ Same (Run.assign (s.map g) v) (Run.assign ((ρ.site g δ s).map g) v') := by
  intro m m' hm
  obtain ⟨ht, hflags⟩ := hm.target? hs
  rw [Run.assign_eq, Run.assign_eq, ht]
  generalize m.target? (s.map g) = o at hflags ⊢
  cases o with
  | none => exact .error (List.prefix_refl W) hm (.undefinedVariable ρ _ _ _)
  | some i =>
    obtain ⟨Δ, hi, hΔ⟩ := hflags i rfl
    have hput := hm.put hi hs hv
    rw [hΔ] at hput
    exact .ok (List.prefix_refl W) hput rfl

theorem printLine (text : String) :
    ρ.Simulates g W δ Same (Run.printLine text) (Run.printLine text) := by
  intro m m' hm
  have hfits : m'.fits (text ++ "\n").toUTF8 = m.fits (text ++ "\n").toUTF8 := by
    rw [Machine.fits, Machine.fits, hm.room]
  have hwrite := hm.write (text ++ "\n").toUTF8
  rw [Run.printLine_eq, Run.printLine_eq, hfits]
  split
  · exact .ok (List.prefix_refl W) hwrite rfl
  · exact .error (List.prefix_refl W) hwrite (.same _)

theorem readClock : ρ.Simulates g W δ (ρ.Values g) Run.readClock Run.readClock :=
  step fun m m' hm => ⟨W, List.prefix_refl W,
    { hm with ticks := congrArg (· + 1) hm.ticks }, by
      change Value.Related _ _ (.number _) (.number _)
      rw [hm.clock, hm.ticks]
      exact .number _⟩

theorem newObject {c c' : Class} (hc : ρ.Classes g W c c') :
    ρ.Simulates g W δ (fun W' o o' => ρ.Values g W' (.object o) (.object o')) (Run.newObject c)
      (Run.newObject c') := by
  refine step fun m m' hm => ⟨W, List.prefix_refl W, hm.newObject, ?_⟩
  rw [size_eq_of_rel hm.objects]
  exact .object _ hc

theorem setField {o o' : Object} (ho : ρ.Values g W (.object o) (.object o')) (name : String)
    {v v' : Value} (hv : ρ.Values g W v v') :
    ρ.Simulates g W δ Same (Run.setField o name v) (Run.setField o' name v') := by
  cases ho
  exact step fun m m' hm => ⟨W, List.prefix_refl W, hm.setField _ name hv, rfl⟩

/-! ## Composite steps -/

theorem receiver {i : Nat} {Δ : Flags} (hi : W[i]? = some Δ) :
    ρ.Simulates g W δ (ρ.Values g) (Run.receiver i) (Run.receiver i) := by
  refine bind get fun W' hW m m' hm => pure ?_
  have hc := hm.cells i Δ (getElem?_of_extends hW hi) thisName ρ.new_ne_this.symm
  rw [name_thisName] at hc
  generalize m.store.get? i thisName = o at hc ⊢
  generalize m'.store.get? i thisName = o' at hc ⊢
  cases hc with
  | some hv => exact hv
  | none => exact .nil

theorem newFunction (name : Option String) (c : Choice) {params : List Token}
    {body : List (Stmt Nat)} (hparams : ∀ p ∈ params, p.lexeme ≠ ρ.new)
    (hbody : Stmt.LacksAll ρ.new body) :
    ρ.Simulates g W δ (ρ.Values g) (Run.newFunction name params (Stmt.mapAll g body))
      (Run.newFunction name (params.map (ρ.token (ρ.picks c body)))
        (Stmt.mapAll g (Stmt.renameAll ρ g (ρ.picks c body :: δ) c body))) := by
  refine bind newIdentity fun W₁ hW₁ i j hij => ?_
  cases hij
  refine bind get fun W₂ hW₂ m m' hm => pure (.function _ ?_)
  exact ⟨rfl, hm.frame, rfl, δ, c, params, body, hm.here, hparams, hbody, rfl, rfl, rfl, rfl⟩

/-- Binding a method puts the scope of its receiver around it. -/
theorem bindMethod {r r' : Routine} (hr : ρ.Routines g W [false] r r') {o o' : Object}
    (ho : ρ.Values g W (.object o) (.object o')) :
    ρ.Simulates g W δ (fun W' b b' => ρ.Routines g W' [] b b') (Run.bindMethod r o)
      (Run.bindMethod r' o') := by
  obtain ⟨Δ, c, params, body, hΔ, ht⟩ := hr.code
  have hnames : ρ.Tables false (ρ.Values g W) (.single thisName (.object o))
      (.single thisName (.object o')) := fun x _ => Table.Rel.single thisName ho x
  unfold Run.bindMethod
  rw [hr.frame]
  refine bind (createFrame false hnames hΔ) fun W' hW i j ⟨hij, hi⟩ => pure ?_
  cases hij
  exact ⟨hr.name, rfl, hr.isInit, false :: Δ, c, params, body, hi, ht.params_lack, ht.body_lacks,
    ht.params_eq, ht.params_eq', ht.body_eq, ht.body_eq'⟩

theorem methodValue {r r' : Routine} (hr : ρ.Routines g W [false] r r') {o o' : Object}
    (ho : ρ.Values g W (.object o) (.object o')) :
    ρ.Simulates g W δ (ρ.Values g) (Run.methodValue r o) (Run.methodValue r' o') := by
  refine bind (bindMethod hr ho) fun W₁ hW₁ b b' hb => ?_
  refine bind newIdentity fun W₂ hW₂ i j hij => pure ?_
  cases hij
  exact .function _ (hb.mono hW₂)

theorem getProperty {v v' : Value} (hv : ρ.Values g W v v') (name : Token) :
    ρ.Simulates g W δ (ρ.Values g) (Run.getProperty v name) (Run.getProperty v' name) := by
  unfold Run.getProperty
  cases hv with
  | @object address c c' hc =>
    refine bind get fun W' hW m m' hm => ?_
    have hfield := hm.field? address name.lexeme
    have hmethod := (Classes.mono hc hW).method? name.lexeme
    dsimp only
    generalize m.objects[address]?.bind (·.find? name.lexeme) = o at hfield ⊢
    generalize m'.objects[address]?.bind (·.find? name.lexeme) = o' at hfield ⊢
    cases hfield with
    | some hv => exact pure hv
    | none =>
      dsimp only
      generalize c.method? name.lexeme = r at hmethod ⊢
      generalize c'.method? name.lexeme = r' at hmethod ⊢
      cases hmethod with
      | some hr => exact methodValue hr (.object address (Classes.mono hc hW))
      | none => exact fail name _
  | nil | bool | number | string | clock | function | cls => exact fail name _

/-- The names under which methods find the superclass and the receiver are not replaced. -/
theorem superMethod (s : Site Nat) (method : Token) :
    ρ.Simulates g W δ (ρ.Values g) (Run.superMethod (s.map g) method)
      (Run.superMethod ((ρ.site g δ s).map g) method) := by
  unfold Run.superMethod Site.map site
  dsimp only
  cases g s.mark with
  | none => exact fail s.name _
  | some d =>
    refine bind get fun W' hW m m' hm => ?_
    have hsuper := hm.readAt? ρ.new_ne_super.symm d
    have hthis : Option.Rel (ρ.Values g W')
        (if d = 0 then none else m.store.readAt? (d - 1) m.frame thisName)
        (if d = 0 then none else m'.store.readAt? (d - 1) m'.frame thisName) := by
      split
      · exact .none
      · have hthis := hm.readAt? ρ.new_ne_this.symm (d - 1)
        rw [name_thisName] at hthis
        exact hthis
    rw [name_superName] at hsuper
    generalize m.store.readAt? d m.frame superName = v at hsuper ⊢
    generalize m'.store.readAt? d m'.frame superName = v' at hsuper ⊢
    generalize (if d = 0 then none else m.store.readAt? (d - 1) m.frame thisName) = o at hthis ⊢
    generalize (if d = 0 then none else m'.store.readAt? (d - 1) m'.frame thisName) = o' at hthis ⊢
    cases hsuper with
    | none => exact fail s.name _
    | some hv =>
      cases hv with
      | @cls c c' hc =>
        cases hthis with
        | none => exact fail s.name _
        | some ho =>
          cases ho with
          | object address ho =>
            have hmethod := hc.method? method.lexeme
            dsimp only
            generalize c.method? method.lexeme = r at hmethod ⊢
            generalize c'.method? method.lexeme = r' at hmethod ⊢
            cases hmethod with
            | some hr => exact methodValue hr (.object address ho)
            | none => exact fail method _
          | nil | bool | number | string | clock | function | cls => exact fail s.name _
      | nil | bool | number | string | clock | function | object => exact fail s.name _

theorem superclassOf {superclass : Option (Site Nat)}
    (hs : ∀ s ∈ superclass, s.name.lexeme ≠ ρ.new) :
    ρ.Simulates g W δ
      (fun W' c c' => Option.Rel (ρ.Classes g W') c c' ∧ c.isSome = superclass.isSome)
      (Run.superclassOf (superclass.map (Site.map g)))
      (Run.superclassOf ((superclass.map (ρ.site g δ)).map (Site.map g))) := by
  cases superclass with
  | none => exact pure ⟨.none, rfl⟩
  | some s =>
    refine bind (lookUp (hs s rfl)) fun W' hW v v' hv => ?_
    cases hv with
    | cls hc => exact pure ⟨.some hc, rfl⟩
    | nil | bool | number | string | clock | function | object => exact fail s.name _

/-- The methods of a derived class close over a frame with the superclass. -/
theorem methodFrame {c c' : Option Class} (hc : Option.Rel (ρ.Classes g W) c c') :
    ρ.Simulates g W δ
      (fun W' i j => j = i ∧ W'[i]? = some ((if c.isSome then [false] else []) ++ δ))
      (Run.methodFrame c) (Run.methodFrame c') := by
  cases hc with
  | none => exact bind get fun W' hW m m' hm => pure ⟨hm.frame, hm.here⟩
  | @some c c' hc =>
    refine bind get fun W' hW m m' hm => ?_
    have hv : ρ.Values g W' (.cls c) (.cls c') := .cls (Classes.mono hc hW)
    have hnames : ρ.Tables false (ρ.Values g W') (.single superName (.cls c))
        (.single superName (.cls c')) := fun x _ => Table.Rel.single superName hv x
    rw [hm.frame]
    exact createFrame false hnames hm.here

/-- The methods of a class stand in the scope of their receiver. -/
theorem methodTable {i : Nat} (hi : W[i]? = some δ) (c : Choice) {methods : List (Method Nat)}
    (hl : Method.LacksAll ρ.new methods) :
    Table.Rel (ρ.Routines g W [false]) (Run.methodTable (Method.mapAll g methods) i)
      (Run.methodTable (Method.mapAll g (Method.renameAll ρ g (false :: δ) c methods)) i) := by
  suffices hfold : ∀ t t' : Table Routine, t.Rel (ρ.Routines g W [false]) t' →
      Table.Rel (ρ.Routines g W [false]) ((Method.mapAll g methods).foldl _ t)
        ((Method.mapAll g (Method.renameAll ρ g (false :: δ) c methods)).foldl _ t') from
    hfold _ _ .empty
  induction methods generalizing c with
  | nil => exact fun _ _ ht => ht
  | cons m methods ih =>
    intro t t' ht
    obtain ⟨name, params, body⟩ := m
    refine ih (c.part 1) hl.2.2 _ _ (ht.insert name.lexeme ?_)
    exact ⟨rfl, rfl, rfl, δ, c.part 0, params, body, hi, hl.1, hl.2.1, rfl, rfl, rfl, rfl⟩

theorem declareClass {name : Token} (c : Choice) {superclass : Option (Site Nat)}
    {methods : List (Method Nat)} (hname : name.lexeme ≠ ρ.new)
    (hold : δ.here = true → name.lexeme ≠ ρ.old) (hs : ∀ s ∈ superclass, s.name.lexeme ≠ ρ.new)
    (hmethods : Method.LacksAll ρ.new methods) :
    ρ.Simulates g W δ Same
      (Run.declareClass name (superclass.map (Site.map g)) (Method.mapAll g methods))
      (Run.declareClass name ((superclass.map (ρ.site g δ)).map (Site.map g))
        (Method.mapAll g (Method.renameAll ρ g
          (false :: ((if superclass.isSome then [false] else []) ++ δ)) c methods))) := by
  rw [Run.declareClass_eq, Run.declareClass_eq]
  refine bind (superclassOf hs) fun W₁ hW₁ above above' ⟨habove, hsome⟩ => ?_
  refine bind (methodFrame habove) fun W₂ hW₂ i j ⟨hij, hi⟩ => ?_
  cases hij
  refine bind newIdentity fun W₃ hW₃ identity identity' hid => ?_
  cases hid
  rw [hsome] at hi
  have htable := methodTable (g := g) (getElem?_of_extends hW₃ hi) c hmethods
  refine define_routine hname hold (.cls ?_)
  cases habove with
  | none => exact .base htable
  | some habove => exact .derived (Classes.mono habove (hW₂.trans hW₃)) htable

end Simulates

end Renaming

end LoxLang
