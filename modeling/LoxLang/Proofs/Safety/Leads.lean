import LoxLang.Proofs.Run.Respects
import LoxLang.Proofs.Safety.Values

/-!
# Where a run leads

A run from a good machine leads to a good machine, whose store has grown and which is in the same
frame: with a result that has a property, or with a fault that is not one of those reserved for code
the resolver should have rejected (`Run.Leads`). There is a rule for every step of the machine; the
steps that create a frame or enter one say how the chain of frames changes with the context.
-/

namespace LoxLang

/-- A fault that accepted code may have. The others are for operators that do not exist, and for
`this` and `super` outside of classes. -/
def Fault.Ordinary : Fault → Prop
  | .runtime _ cause => cause ≠ .notUnary ∧ cause ≠ .notBinary ∧ cause ≠ .superOutsideClass ∧
      cause ≠ .thisOutsideClass
  | .outputFull | .outOfFuel => True

variable {L : Log}

namespace Machine.Good

variable {m m' : Machine}

theorem congr (h : m.Good L) (hs : m'.store = m.store) (ho : m'.objects = m.objects) :
    m'.Good L where
  frames := by
    rw [hs]
    exact h.frames
  fields := by
    rw [hs, ho]
    exact h.fields
  shapes := by
    rw [hs]
    exact h.shapes

theorem put (h : m.Good L) {frame : Nat} {name : String} {v : Value}
    (hopen : m.store.OpenAt frame) (hname : name ≠ thisName ∧ name ≠ superName)
    (hv : v.Good L (m.store.define frame name v)) : (m.put frame name v).Good L := by
  have hg := Store.Grows.define hopen v hname
  constructor
  · intro i x w hw
    change (m.store.define frame name v).get? i x = some w at hw
    rw [Store.get?_define] at hw
    split at hw
    · cases hw
      exact hv
    · exact (h.frames i x w hw).mono hg
  · exact fun i t x w ht hw => (h.fields i t x w ht hw).mono hg
  · intro i f hf
    change (m.store.define frame name v).frames[i]? = some f at hf
    rw [Store.getElem?_frames_define] at hf
    split at hf
    · next hi =>
      obtain ⟨f₀, hf₀, hopen₀⟩ := hopen
      rw [← hi, hf₀] at hf
      cases hf
      exact .inl (hopen₀.insert v hname)
    · exact h.shapes i f hf

theorem grow (h : m.Good L) {names : Table Value} {parent : Nat}
    (hnames : ∀ x v, names.find? x = some v → v.Good L m.store)
    (hshape : Frame.Open ⟨names, some parent⟩ ∨ Frame.Sealed ⟨names, some parent⟩) :
    (m.grow names parent).Good L := by
  have hg := Store.Grows.create m.store names (some parent)
  constructor
  · intro i x w hw
    change (m.store.create names (some parent)).2.get? i x = some w at hw
    rw [Store.get?_create] at hw
    split at hw
    · exact (hnames x w hw).mono hg
    · exact (h.frames i x w hw).mono hg
  · exact fun i t x w ht hw => (h.fields i t x w ht hw).mono hg
  · intro i f hf
    change (m.store.create names (some parent)).2.frames[i]? = some f at hf
    rw [Store.getElem?_frames_create] at hf
    split at hf
    · cases hf
      exact hshape
    · exact h.shapes i f hf

/-- A frame without names is good. -/
theorem grow_empty (h : m.Good L) (parent : Nat) : (m.grow .empty parent).Good L :=
  h.grow nofun (.inl (.empty _))

/-- The frame of a receiver is good. -/
theorem grow_receiver (h : m.Good L) {o : Object} (ho : o.cls.Good L m.store) (parent : Nat) :
    (m.grow (.single thisName (.object o)) parent).Good L :=
  h.grow (fun _ _ hv => Table.find?_single hv ▸ ho) (.inr (.receiver o parent))

/-- The frame of a superclass is good. -/
theorem grow_superclass (h : m.Good L) {c : Class} (hc : c.Good L m.store) (parent : Nat) :
    (m.grow (.single superName (.cls c)) parent).Good L :=
  h.grow (fun _ _ hv => Table.find?_single hv ▸ hc) (.inr (.superclass c parent))

theorem newObject (h : m.Good L) : Good L { m with objects := m.objects.push .empty } where
  frames := h.frames
  shapes := h.shapes
  fields i t x v ht hv := by
    rw [Array.getElem?_push] at ht
    split at ht
    · cases ht
      cases hv
    · exact h.fields i t x v ht hv

theorem setField (h : m.Good L) {address : Nat} {name : String} {v : Value}
    (hv : v.Good L m.store) :
    Good L { m with objects := m.objects.modify address (·.insert name v) } where
  frames := h.frames
  shapes := h.shapes
  fields i t x w ht hw := by
    rw [Array.getElem?_modify] at ht
    split at ht
    · obtain ⟨t, ht', rfl⟩ := Option.map_eq_some_iff.1 ht
      rw [Table.find?_insert] at hw
      split at hw
      · cases hw
        exact hv
      · exact h.fields i t x w ht' hw
    · exact h.fields i t x w ht hw

end Machine.Good

/-- A name that the current frame is given is declared. -/
theorem Machine.At.put {m : Machine} {Γ : Context} (hat : m.At Γ) (hΓ : Γ.Proper) {name : String}
    (hname : name ≠ thisName ∧ name ≠ superName) (v : Value) :
    (m.put m.frame name v).At (Γ.declare name) := by
  have hg : m.Grows (m.put m.frame name v) := ⟨.define (hat.opened hΓ) v hname, rfl⟩
  refine (hat.mono hg).declare ?_
  change ((m.store.define m.frame name v).get? m.frame name).isSome
  rw [Store.get?_define, if_pos ⟨rfl, rfl, hat.lt⟩]
  rfl

namespace Run

variable {α β : Type} {m : Machine}

/-- How a run from `m` may end: in a good machine, with a result that has a property or with an
ordinary fault. -/
inductive Ends (L : Log) (m : Machine) (Q : α → Machine → Prop) :
    EStateM.Result Fault Machine α → Prop
  | ok {a : α} {m' : Machine} : m.Grows m' → m'.Good L → Q a m' → Ends L m Q (.ok a m')
  | error {e : Fault} {m' : Machine} : m.Grows m' → m'.Good L → e.Ordinary →
      Ends L m Q (.error e m')

/-- If the machine `m` is good, the run ends well from there. -/
def Leads (L : Log) (m : Machine) (r : Run α) (Q : α → Machine → Prop) : Prop :=
  m.Good L → Ends L m Q (r m)

namespace Leads

variable {r : Run α} {P Q : α → Machine → Prop} {R : β → Machine → Prop}

/-! ## Structure -/

theorem mono (h : Leads L m r P) (hPQ : ∀ a m', m.Grows m' → P a m' → Q a m') :
    Leads L m r Q := by
  intro hm
  have h := h hm
  generalize r m = x at h
  cases h with
  | ok hg hm' hP => exact .ok hg hm' (hPQ _ _ hg hP)
  | error hg hm' he => exact .error hg hm' he

theorem pure {a : α} (h : Q a m) : Leads L m (pure a) Q := fun hm => .ok (.refl m) hm h

theorem throw {e : Fault} (h : e.Ordinary) : Leads L m (throw e) Q :=
  fun hm => .error (.refl m) hm h

theorem outOfFuel : Leads L m outOfFuel Q := throw trivial

theorem fail {t : Token} {cause : RuntimeCause} (h : (Fault.runtime t.line cause).Ordinary) :
    Leads L m (Run.fail t cause) Q :=
  throw h

/-- One run after another. -/
theorem bind {k : α → Run β} (hr : Leads L m r P)
    (hk : ∀ a m', r m = .ok a m' → m.Grows m' → P a m' → Leads L m' (k a) R) :
    Leads L m (r >>= k) R := by
  intro hm
  have h := hr hm
  change Ends L m R (EStateM.bind r k m)
  unfold EStateM.bind
  generalize hx : r m = x at h
  cases h with
  | @ok a m' hg hm' hP =>
    have hk := hk a m' hx hg hP hm'
    dsimp only
    generalize k a m' = y at hk
    cases hk with
    | ok hg' hm'' hR => exact .ok (hg.trans hg') hm'' hR
    | error hg' hm'' he => exact .error (hg.trans hg') hm'' he
  | error hg hm' he => exact .error hg hm' he

/-- A run that comes to another one, from a later machine. -/
theorem later {r' : Run α} {m' : Machine} (hg : m.Grows m') (hgood : m.Good L → m'.Good L)
    (h : Leads L m' r' P) (hr : r m = r' m') : Leads L m r P := by
  intro hm
  have h := h (hgood hm)
  rw [hr]
  generalize r' m' = x at h
  cases h with
  | ok hg' hm' hP => exact .ok (hg.trans hg') hm' hP
  | error hg' hm' he => exact .error (hg.trans hg') hm' he

theorem get {k : Machine → Run β} (h : Leads L m (k m) R) :
    Leads L m (MonadState.get >>= k) R :=
  h

theorem check {t : Token} {x : Except RuntimeCause α} (hok : ∀ a, x = .ok a → Q a m)
    (herror : ∀ cause, x = .error cause → (Fault.runtime t.line cause).Ordinary) :
    Leads L m (Run.check t x) Q := by
  cases x with
  | ok a => exact pure (hok a rfl)
  | error cause => exact fail (herror cause rfl)

/-- A step that returns a result and changes the machine. -/
theorem step {f : Machine → α × Machine} (hg : m.Grows (f m).2)
    (hgood : m.Good L → (f m).2.Good L) (hQ : Q (f m).1 (f m).2) : Leads L m (modifyGet f) Q :=
  fun hm => .ok hg (hgood hm) hQ

/-- What is run in another frame ends in the frame around. -/
theorem inFrame {frame : Nat} (h : Leads L { m with frame := frame } r P)
    (hPQ : ∀ a m', Machine.Grows { m with frame := frame } m' → P a m' →
      Q a { m' with frame := m.frame }) : Leads L m (Run.inFrame frame r) Q := by
  intro hm
  have h := h (hm.congr rfl rfl)
  unfold Run.inFrame
  dsimp only
  generalize r { m with frame := frame } = x at h
  cases h with
  | ok hg hm' hP => exact .ok ⟨hg.store, rfl⟩ (hm'.congr rfl rfl) (hPQ _ _ hg hP)
  | error hg hm' he => exact .error ⟨hg.store, rfl⟩ (hm'.congr rfl rfl) he

/-- What is run in a call ends in the calls around. -/
theorem inCall (h : Leads L { m with depth := m.depth + 1 } r P)
    (hPQ : ∀ a m', P a m' → Q a { m' with depth := m'.depth - 1 }) :
    Leads L m (Run.inCall r) Q := by
  intro hm
  have h := h (hm.congr rfl rfl)
  unfold Run.inCall
  generalize r { m with depth := m.depth + 1 } = x at h
  cases h with
  | ok hg hm' hP => exact .ok ⟨hg.store, hg.frame⟩ (hm'.congr rfl rfl) (hPQ _ _ hP)
  | error hg hm' he => exact .error ⟨hg.store, hg.frame⟩ (hm'.congr rfl rfl) he

/-! ## Names -/

theorem createFrame {names : Table Value} {parent : Nat} {k : Nat → Run β}
    (hgood : m.Good L → (m.grow names parent).Good L)
    (h : Leads L (m.grow names parent) (k m.nextFrame) R) :
    Leads L m (Run.createFrame names parent >>= k) R := by
  have hg : m.Grows (m.grow names parent) := ⟨.create m.store names _, rfl⟩
  exact later hg hgood h rfl

/-- Behind its definition a name is declared. -/
theorem define {Γ : Context} {name : String} {v : Value} (hat : m.At Γ) (hΓ : Γ.Proper)
    (hname : name ≠ thisName ∧ name ≠ superName)
    (hv : v.Good L (m.store.define m.frame name v)) :
    Leads L m (Run.define name v) fun _ m' => m'.At (Γ.declare name) :=
  fun hm => .ok ⟨.define (hat.opened hΓ) v hname, rfl⟩ (hm.put (hat.opened hΓ) hname hv)
    (hat.put hΓ hname v)

end Leads

/-- What a site reads is a value of some frame. -/
theorem get?_of_value? {site : Site (Option Nat)} {v : Value} (h : m.value? site = some v) :
    ∃ i, m.store.get? i site.name.lexeme = some v := by
  unfold Machine.value? Store.readAt? Store.read? at h
  split at h
  · obtain ⟨i, -, hv⟩ := Option.bind_eq_some_iff.1 h
    exact ⟨i, hv⟩
  · obtain ⟨i, -, hv⟩ := Option.bind_eq_some_iff.1 h
    exact ⟨i, hv⟩

theorem Leads.lookUp (site : Site (Option Nat)) :
    Leads L m (Run.lookUp site) fun v m' => v.Good L m'.store := by
  intro hm
  rw [lookUp_eq]
  split
  · next v hv =>
    obtain ⟨i, hi⟩ := get?_of_value? hv
    exact .ok (.refl m) hm (hm.frames i _ v hi)
  · exact .error (.refl m) hm ⟨nofun, nofun, nofun, nofun⟩

namespace Leads

variable {Q : Value → Machine → Prop}

theorem newIdentity : Leads L m Run.newIdentity fun identity m' =>
    identity = m.identities ∧ m'.store = m.store ∧ m'.frame = m.frame :=
  step ⟨.refl _, rfl⟩ (fun hm => hm.congr rfl rfl) ⟨rfl, rfl, rfl⟩

theorem printLine (text : String) : Leads L m (Run.printLine text) fun _ _ => True := by
  have hwrite : ∀ bytes, (m.write bytes).store = m.store ∧ (m.write bytes).frame = m.frame ∧
      (m.write bytes).objects = m.objects := by
    intro bytes
    unfold Machine.write
    split <;> exact ⟨rfl, rfl, rfl⟩
  intro hm
  rw [printLine_eq]
  obtain ⟨hstore, hframe, hobjects⟩ := hwrite (text ++ "\n").toUTF8
  have hg : m.Grows (m.write (text ++ "\n").toUTF8) := ⟨by rw [hstore]; exact .refl _, hframe⟩
  split
  · exact .ok hg (hm.congr hstore hobjects) trivial
  · exact .error hg (hm.congr hstore hobjects) trivial

theorem readClock : Leads L m Run.readClock fun v m' => v.Good L m'.store :=
  step ⟨.refl _, rfl⟩ (fun hm => hm.congr rfl rfl) trivial

theorem receiver (frame : Nat) : Leads L m (Run.receiver frame) fun v m' => v.Good L m'.store := by
  intro hm
  refine .ok (.refl m) hm ?_
  cases h : m.store.get? frame thisName with
  | none => trivial
  | some v => exact hm.frames frame _ v h

/-- The class in a superclass clause. -/
theorem superclassOf (site : Site (Option Nat)) : Leads L m (Run.superclassOf (some site))
    fun above m' => ∃ c, above = some c ∧ c.Good L m'.store := by
  refine bind (lookUp site) fun v m' _ _ hv => ?_
  cases v with
  | cls c => exact pure ⟨c, rfl, hv⟩
  | _ => exact fail ⟨nofun, nofun, nofun, nofun⟩

/-! ## Objects -/

theorem newObject (c : Class) : Leads L m (Run.newObject c) fun o _ => o.cls = c :=
  step ⟨.refl _, rfl⟩ (fun hm => hm.newObject) rfl

theorem setField {o : Object} {name : String} {v : Value} (hv : v.Good L m.store) :
    Leads L m (Run.setField o name v) fun _ _ => True :=
  step (f := fun _ => ((), _)) ⟨.refl _, rfl⟩ (fun hm => hm.setField hv) trivial

/-- A function closes over the current frame. -/
theorem newFunction {name : Option String} {params : List Token} {body : List Code} :
    Leads L m (Run.newFunction name params body) fun v _ =>
      v = .function m.identities ⟨name, params.map Token.lexeme, body, m.frame, false⟩ := by
  intro hm
  rw [newFunction_eq]
  exact .ok ⟨.refl _, rfl⟩ (hm.congr rfl rfl) rfl

/-- A method is bound in a frame for its receiver. -/
theorem bindMethod {r : Routine} {o : Object} (ho : o.cls.Good L m.store) (hr : o.Knows r) :
    Leads L m (Run.bindMethod r o) fun r' m' =>
      r' = { r with frame := m.nextFrame } ∧ r'.Good L m'.store := by
  obtain ⟨line, Γ, kind, params, hline, hbody, hparams, hfits⟩ := ho.unbound hr
  obtain ⟨owner, name, hdescends, hfound⟩ := hr
  have hframe : (m.store.create (.single thisName (.object o)) (some r.frame)).2.frames[
      m.store.frames.size]? = some (.receiver o r.frame) :=
    m.store.getElem?_frames_create_size ..
  have hfits' := hfits.mono (.create m.store (.single thisName (.object o)) (some r.frame))
  exact createFrame (fun hm => hm.grow_receiver ho r.frame) (pure ⟨rfl, line, .receiver :: Γ, kind,
    params, hline, hbody, hparams, .receiver hframe hfits',
    .receiver ⟨hframe, hdescends, name, hfound⟩ kind params⟩)

theorem methodValue {r : Routine} {o : Object} (ho : o.cls.Good L m.store) (hr : o.Knows r)
    (hbinds : L.Binds m r o) :
    Leads L m (Run.methodValue r o) fun v m' => v.Good L m'.store := by
  refine bind (bindMethod ho hr) ?_
  rintro _ m₁ _ _ ⟨rfl, hgood⟩
  refine bind newIdentity fun identity m₂ _ hg _ => ?_
  exact pure ⟨hgood.mono hg.store, .bound hbinds⟩

theorem getProperty {v : Value} (hv : v.Good L m.store) {name : Token}
    (hbinds : ∀ r o, Run.getProperty v name m = Run.methodValue r o m → L.Binds m r o) :
    Leads L m (Run.getProperty v name) fun w m' => w.Good L m'.store := by
  cases v with
  | object o =>
    refine get ?_
    split
    · next field hf =>
      obtain ⟨t, ht, hfield⟩ := Option.bind_eq_some_iff.1 hf
      exact fun hm => .ok (.refl m) hm (hm.fields _ t _ _ ht hfield)
    · next hnone =>
      split
      · next found hfound =>
        exact methodValue hv (Object.knows_of_method? (.refl _) hfound)
          (hbinds found o (getProperty_of_method hnone hfound))
      · exact fail ⟨nofun, nofun, nofun, nofun⟩
  | _ => exact fail ⟨nofun, nofun, nofun, nofun⟩

end Leads

end Run

end LoxLang
