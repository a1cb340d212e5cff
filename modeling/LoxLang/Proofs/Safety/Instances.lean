import LoxLang.Proofs.Safety.Receivers

/-!
# Where instances come from

An instance is made with the first address that no instance has yet, and nothing else makes one. So
all instances that are within reach of a machine have a place among its objects (`Machine.Placed`),
and a new one is none of them. A run keeps this, and what it returns has its place, too
(`Run.placesOn`): there is a rule for every step of the machine, and one induction on the fuel. It
holds of every machine that a session visits and of all that is at hand there
(`Session.AtHand.below`).
-/

namespace LoxLang

/-- If the value is an instance, it is one of the first `k`. -/
def Value.Below (k : Nat) : Value → Prop
  | .object o => o.address < k
  | _ => True

/-- All instances in frames and in fields have a place among the objects of the machine. -/
structure Machine.Placed (m : Machine) : Prop where
  frames : ∀ i x v, m.store.get? i x = some v → v.Below m.objects.size
  fields : ∀ (a : Nat) (t : Table Value) x v, m.objects[a]? = some t → t.find? x = some v →
    v.Below m.objects.size

section Values

variable {k k' : Nat} {v : Value}

theorem Value.Below.mono (h : v.Below k) (hk : k ≤ k') : v.Below k' := by
  cases v with
  | object o => exact Nat.lt_of_lt_of_le h hk
  | _ => trivial

theorem Value.Plain.below (h : v.Plain) : v.Below k := by
  cases v <;> trivial

/-- One of the first `k` instances is not the one behind them. -/
theorem Value.Below.not_equals (h : v.Below k) {o : Object} (ho : k ≤ o.address) :
    v.equals (.object o) = false := by
  cases v with
  | object o' =>
    have hlt : o'.address < k := h
    exact decide_eq_false (by omega)
  | _ => rfl

end Values

namespace Machine.Placed

variable {m m' : Machine}

theorem congr (h : m.Placed) (hs : m'.store = m.store) (ho : m'.objects = m.objects) :
    m'.Placed where
  frames := by
    rw [hs, ho]
    exact h.frames
  fields := by
    rw [ho]
    exact h.fields

theorem put (h : m.Placed) (frame : Nat) (name : String) {v : Value}
    (hv : v.Below m.objects.size) : (m.put frame name v).Placed where
  frames i x w hw := by
    change (m.store.define frame name v).get? i x = some w at hw
    rw [Store.get?_define] at hw
    split at hw
    · cases hw
      exact hv
    · exact h.frames i x w hw
  fields := h.fields

theorem grow (h : m.Placed) {names : Table Value}
    (hnames : ∀ x v, names.find? x = some v → v.Below m.objects.size) (parent : Nat) :
    (m.grow names parent).Placed where
  frames i x v hv := by
    change (m.store.create names (some parent)).2.get? i x = some v at hv
    rw [Store.get?_create] at hv
    split at hv
    · exact hnames x v hv
    · exact h.frames i x v hv
  fields := h.fields

theorem newObject (h : m.Placed) : Placed { m with objects := m.objects.push .empty } where
  frames i x v hv := (h.frames i x v hv).mono (by simp)
  fields a t x v ht hv := by
    rw [Array.getElem?_push] at ht
    split at ht
    · cases ht
      cases hv
    · exact (h.fields a t x v ht hv).mono (by simp)

theorem setField (h : m.Placed) (address : Nat) (name : String) {v : Value}
    (hv : v.Below m.objects.size) :
    Placed { m with objects := m.objects.modify address (·.insert name v) } where
  frames i x w hw := (h.frames i x w hw).mono (Nat.le_of_eq Array.size_modify.symm)
  fields a t x w ht hw := by
    refine Value.Below.mono (k := m.objects.size) ?_ (Nat.le_of_eq Array.size_modify.symm)
    rw [Array.getElem?_modify] at ht
    split at ht
    · obtain ⟨t, ht', rfl⟩ := Option.map_eq_some_iff.1 ht
      rw [Table.find?_insert] at hw
      split at hw
      · cases hw
        exact hv
      · exact h.fields a t x w ht' hw
    · exact h.fields a t x w ht hw

theorem start (clock : Nat → Float) (room : Option Nat) : (Machine.start clock room).Placed where
  frames i x v hv := by
    change (Store.empty.create (.single "clock" .clock) none).2.get? i x = some v at hv
    rw [Store.get?_create] at hv
    split at hv
    · obtain rfl := Table.find?_single hv
      trivial
    · cases hv
  fields a t x v ht := nomatch ht

end Machine.Placed

namespace Run

variable {α β : Type} {m : Machine}

/-- How a run from `m` ends: there are no fewer objects, all instances have their places among them,
and the result has a property. -/
inductive Placing (m : Machine) (Q : α → Nat → Prop) : EStateM.Result Fault Machine α → Prop
  | ok {a : α} {m' : Machine} : m.objects.size ≤ m'.objects.size → m'.Placed →
      Q a m'.objects.size → Placing m Q (.ok a m')
  | error {e : Fault} {m' : Machine} : m.objects.size ≤ m'.objects.size → m'.Placed →
      Placing m Q (.error e m')

/-- From the machine `m`, if all instances have their places there, the run keeps them so. The
property of the result is about the number of objects there are then. -/
def Places (m : Machine) (r : Run α) (Q : α → Nat → Prop) : Prop := m.Placed → Placing m Q (r m)

namespace Places

variable {r : Run α} {P Q : α → Nat → Prop} {R : β → Nat → Prop}

/-! ## Structure -/

theorem pure {a : α} (h : Q a m.objects.size) : Places m (pure a) Q :=
  fun hm => .ok (Nat.le_refl _) hm h

theorem throw (e : Fault) : Places m (throw e) Q := fun hm => .error (Nat.le_refl _) hm

theorem outOfFuel : Places m outOfFuel Q := throw _

theorem fail (t : Token) (cause : RuntimeCause) : Places m (Run.fail t cause) Q := throw _

/-- One run after another. -/
theorem bind {k : α → Run β} (hr : Places m r P)
    (hk : ∀ a m', m.objects.size ≤ m'.objects.size → P a m'.objects.size → Places m' (k a) R) :
    Places m (r >>= k) R := by
  intro hm
  have h := hr hm
  rcases hx : r m with ⟨a, m'⟩ | ⟨e, m'⟩ <;> rw [hx] at h
  · rw [bind_ok hx]
    cases h with
    | ok hle hm' hP =>
      have hk := hk a m' hle hP hm'
      generalize k a m' = y at hk
      cases hk with
      | ok hle' hm'' hR => exact .ok (Nat.le_trans hle hle') hm'' hR
      | error hle' hm'' => exact .error (Nat.le_trans hle hle') hm''
  · rw [bind_error hx]
    cases h with
    | error hle hm' => exact .error hle hm'

theorem get {k : Machine → Run β} (h : Places m (k m) R) : Places m (MonadState.get >>= k) R := h

/-- The outcome of an operator is a plain value. -/
theorem check {t : Token} {x : Except RuntimeCause Value} (h : ∀ w, x = .ok w → w.Plain) :
    Places m (Run.check t x) fun v k => v.Below k := by
  cases x with
  | ok w => exact pure (h w rfl).below
  | error cause => exact fail t cause

/-- A step that returns a result and changes the machine. -/
theorem step {f : Machine → α × Machine} (hle : m.objects.size ≤ (f m).2.objects.size)
    (hm' : m.Placed → (f m).2.Placed) (hQ : Q (f m).1 (f m).2.objects.size) :
    Places m (modifyGet f) Q :=
  fun hm => .ok hle (hm' hm) hQ

/-- Entering and leaving a frame changes no instance. -/
theorem inFrame {frame : Nat} (h : Places { m with frame := frame } r Q) :
    Places m (Run.inFrame frame r) Q := by
  intro hm
  have h := h (hm.congr rfl rfl)
  unfold Run.inFrame
  dsimp only
  generalize r { m with frame := frame } = x at h
  cases h with
  | ok hle hm' hQ => exact .ok hle (hm'.congr rfl rfl) hQ
  | error hle hm' => exact .error hle (hm'.congr rfl rfl)

/-- Entering and leaving a call changes no instance. -/
theorem inCall (h : Places { m with depth := m.depth + 1 } r Q) : Places m (Run.inCall r) Q := by
  intro hm
  have h := h (hm.congr rfl rfl)
  unfold Run.inCall
  generalize r { m with depth := m.depth + 1 } = x at h
  cases h with
  | ok hle hm' hQ => exact .ok hle (hm'.congr rfl rfl) hQ
  | error hle hm' => exact .error hle (hm'.congr rfl rfl)

/-! ## Names -/

theorem createFrame {names : Table Value} {parent : Nat}
    (hnames : ∀ x v, names.find? x = some v → v.Below m.objects.size) :
    Places m (Run.createFrame names parent) fun _ _ => True :=
  step (Nat.le_refl _) (fun hm => hm.grow hnames parent) trivial

theorem newIdentity : Places m Run.newIdentity fun _ _ => True :=
  step (Nat.le_refl _) (fun hm => hm.congr rfl rfl) trivial

theorem define {name : String} {v : Value} (hv : v.Below m.objects.size) :
    Places m (Run.define name v) fun _ _ => True :=
  fun hm => .ok (Nat.le_refl _) (hm.put m.frame name hv) trivial

theorem lookUp (site : Site (Option Nat)) : Places m (Run.lookUp site) fun v k => v.Below k := by
  intro hm
  rw [lookUp_eq]
  split
  · next v hv =>
    obtain ⟨i, hi⟩ := get?_of_value? hv
    exact .ok (Nat.le_refl _) hm (hm.frames i _ v hi)
  · exact .error (Nat.le_refl _) hm

theorem assign (site : Site (Option Nat)) {v : Value} (hv : v.Below m.objects.size) :
    Places m (Run.assign site v) fun _ _ => True := by
  intro hm
  rw [assign_eq]
  split
  · next frame _ => exact .ok (Nat.le_refl _) (hm.put frame _ hv) trivial
  · exact .error (Nat.le_refl _) hm

theorem printLine (text : String) : Places m (Run.printLine text) fun _ _ => True := by
  have hwrite : ∀ bytes, (m.write bytes).store = m.store ∧
      (m.write bytes).objects = m.objects := by
    intro bytes
    unfold Machine.write
    split <;> exact ⟨rfl, rfl⟩
  intro hm
  rw [printLine_eq]
  obtain ⟨hstore, hobjects⟩ := hwrite (text ++ "\n").toUTF8
  have hle := Nat.le_of_eq (congrArg Array.size hobjects).symm
  split
  · exact .ok hle (hm.congr hstore hobjects) trivial
  · exact .error hle (hm.congr hstore hobjects)

theorem readClock : Places m Run.readClock fun v k => v.Below k :=
  step (Nat.le_refl _) (fun hm => hm.congr rfl rfl) trivial

theorem receiver (frame : Nat) : Places m (Run.receiver frame) fun v k => v.Below k := by
  intro hm
  refine .ok (Nat.le_refl _) hm ?_
  cases h : m.store.get? frame thisName with
  | none => trivial
  | some v => exact hm.frames frame _ v h

/-! ## Objects -/

/-- The new instance is the last one. -/
theorem newObject (c : Class) :
    Places m (Run.newObject c) fun o k => o.address < k :=
  step (by simp) (fun hm => hm.newObject) (by simp)

theorem setField (o : Object) (name : String) {v : Value} (hv : v.Below m.objects.size) :
    Places m (Run.setField o name v) fun _ _ => True :=
  step (f := fun _ => ((), _)) (Nat.le_of_eq Array.size_modify.symm)
    (fun hm => hm.setField o.address name hv) trivial

theorem newFunction (name : Option String) (params : List Token) (body : List Code) :
    Places m (Run.newFunction name params body) fun v k => v.Below k :=
  bind newIdentity fun _ _ _ _ => get (pure trivial)

theorem bindMethod (r : Routine) {o : Object} (ho : o.address < m.objects.size) :
    Places m (Run.bindMethod r o) fun _ _ => True :=
  bind (createFrame fun _ _ hv => Table.find?_single hv ▸ ho) fun _ _ _ _ => pure trivial

theorem methodValue (r : Routine) {o : Object} (ho : o.address < m.objects.size) :
    Places m (Run.methodValue r o) fun v k => v.Below k :=
  bind (bindMethod r ho) fun _ _ _ _ => bind newIdentity fun _ _ _ _ => pure trivial

theorem getProperty {v : Value} (hv : v.Below m.objects.size) (name : Token) :
    Places m (Run.getProperty v name) fun w k => w.Below k := by
  cases v with
  | object o =>
    refine get ?_
    split
    · next field hf =>
      obtain ⟨t, ht, hfield⟩ := Option.bind_eq_some_iff.1 hf
      exact fun hm => .ok (Nat.le_refl _) hm (hm.fields _ t _ _ ht hfield)
    · split
      · exact methodValue _ hv
      · exact fail _ _
  | _ => exact fail _ _

/-- What stands in a frame has its place. -/
theorem read {d frame : Nat} {x : String} {v : Value} {k : Run α} (hm : m.Placed)
    (h : m.store.readAt? d frame x = some v) (hk : v.Below m.objects.size → Placing m Q (k m)) :
    Placing m Q (k m) := by
  obtain ⟨i, -, hi⟩ := Option.bind_eq_some_iff.1 h
  exact hk (hm.frames i x v hi)

theorem superMethod (site : Site (Option Nat)) (method : Token) :
    Places m (Run.superMethod site method) fun v k => v.Below k := by
  unfold Run.superMethod
  split
  · exact fail _ _
  · next d hd =>
    refine get ?_
    split
    · dsimp only
      split
      · next o ho =>
        split
        · next found hfound =>
          intro hm
          split at ho
          · cases ho
          · exact read hm ho fun hbelow => methodValue found hbelow hm
        · exact fail _ _
      · exact fail _ _
    · exact fail _ _

theorem declareClass (name : Token) (superclass : Option (Site (Option Nat)))
    (methods : List (Method (Option Nat))) :
    Places m (Run.declareClass name superclass methods) fun _ _ => True := by
  have hmethodFrame : ∀ (m : Machine) (above : Option Class),
      Places m (Run.methodFrame above) fun _ _ => True := by
    intro m above
    cases above with
    | none => exact get (pure trivial)
    | some c => exact get (createFrame fun _ _ hv => Table.find?_single hv ▸ trivial)
  have hsuperclassOf : Places m (Run.superclassOf superclass) fun _ _ => True := by
    cases superclass with
    | none => exact pure trivial
    | some site =>
      refine bind (lookUp site) fun v m' _ _ => ?_
      cases v with
      | cls c => exact pure trivial
      | _ => exact fail _ _
  rw [declareClass_eq]
  refine bind hsuperclassOf fun above m₁ _ _ => bind (hmethodFrame m₁ above) fun frame m₂ _ _ => ?_
  exact bind newIdentity fun identity m₃ _ _ => define trivial

end Places

/-! ## Evaluation -/

/-- All that runs on the given fuel keeps the instances in their places. -/
structure PlacesOn (n : Nat) : Prop where
  evaluate : ∀ e m, Places m (evaluate n e) fun v k => v.Below k
  evaluateAll : ∀ es m, Places m (evaluateAll n es) fun vs k => ∀ v ∈ vs, v.Below k
  call : ∀ f paren {args m}, (∀ v ∈ args, v.Below m.objects.size) →
    Places m (call n f paren args) fun v k => v.Below k
  apply : ∀ callee {args m}, (∀ v ∈ args, v.Below m.objects.size) →
    Places m (apply n callee args) fun v k => v.Below k
  invoke : ∀ r {args m}, (∀ v ∈ args, v.Below m.objects.size) →
    Places m (invoke n r args) fun v k => v.Below k
  executeAll : ∀ ss m, Places m (executeAll n ss) fun flow k => ∀ v, flow = .returned v → v.Below k
  execute : ∀ s m, Places m (execute n s) fun flow k => ∀ v, flow = .returned v → v.Below k

namespace PlacesOn

variable {n : Nat}

theorem evaluate_succ (ih : PlacesOn n) (e : Expr (Option Nat)) (m : Machine) :
    Places m (Run.evaluate (n + 1) e) fun v k => v.Below k := by
  cases e with
  | literal l => exact .pure (Value.plain_ofLiteral l).below
  | group e => exact ih.evaluate e m
  | unary op e =>
    exact .bind (ih.evaluate e m) fun v m₁ _ _ => .check fun _ h => Value.plain_unary h
  | binary op a b =>
    refine .bind (ih.evaluate a m) fun x m₁ _ _ => .bind (ih.evaluate b m₁) fun y m₂ _ _ => ?_
    exact .check fun _ h => Value.plain_binary h
  | logical op a b =>
    refine .bind (ih.evaluate a m) fun x m₁ _ hx => ?_
    split
    · exact .pure hx
    · exact ih.evaluate b m₁
  | ref site => exact .lookUp site
  | this site => exact .lookUp site
  | assign site e =>
    refine .bind (ih.evaluate e m) fun v m₁ _ hv => ?_
    exact .bind (.assign site hv) fun _ m₂ hle _ => .pure (hv.mono hle)
  | call f paren args =>
    refine .bind (ih.evaluate f m) fun callee m₁ _ _ => ?_
    exact .bind (ih.evaluateAll args m₁) fun values m₂ _ hvalues => ih.call callee paren hvalues
  | get e name => exact .bind (ih.evaluate e m) fun v m₁ _ hv => .getProperty hv name
  | set e name e' =>
    refine .bind (ih.evaluate e m) fun v m₁ _ _ => ?_
    split
    · refine .bind (ih.evaluate e' m₁) fun w m₂ _ hw => ?_
      exact .bind (.setField _ _ hw) fun _ m₃ hle _ => .pure (hw.mono hle)
    · exact .fail _ _
  | super site method => exact .superMethod site method
  | lambda params body => exact .newFunction none params body

theorem evaluateAll_succ (ih : PlacesOn n) (es : List (Expr (Option Nat))) (m : Machine) :
    Places m (Run.evaluateAll (n + 1) es) fun vs k => ∀ v ∈ vs, v.Below k := by
  cases es with
  | nil => exact .pure nofun
  | cons e es =>
    refine .bind (ih.evaluate e m) fun v m₁ _ hv => ?_
    refine .bind (ih.evaluateAll es m₁) fun vs m₂ hle hvs => .pure ?_
    exact List.forall_mem_cons.2 ⟨hv.mono hle, hvs⟩

theorem call_succ (ih : PlacesOn n) (f : Value) (paren : Token) {args : List Value} {m : Machine}
    (hargs : ∀ v ∈ args, v.Below m.objects.size) :
    Places m (Run.call (n + 1) f paren args) fun v k => v.Below k := by
  unfold Run.call
  split
  · exact .fail _ _
  · split
    · exact .fail _ _
    · refine .get ?_
      split
      · exact .fail _ _
      · exact .inCall (ih.apply _ hargs)

theorem apply_succ (ih : PlacesOn n) (callee : Callee) {args : List Value} {m : Machine}
    (hargs : ∀ v ∈ args, v.Below m.objects.size) :
    Places m (Run.apply (n + 1) callee args) fun v k => v.Below k := by
  cases callee with
  | clock => exact .readClock
  | routine r => exact ih.invoke r hargs
  | construct c =>
    refine .bind (.newObject c) fun o m₁ hle₁ ho => ?_
    split
    · exact .pure ho
    · refine .bind (.bindMethod _ ho) fun bound m₂ hle₂ _ => ?_
      have hargs₂ : ∀ v ∈ args, v.Below m₂.objects.size :=
        fun v hv => (hargs v hv).mono (Nat.le_trans hle₁ hle₂)
      refine .bind (ih.invoke bound hargs₂) fun _ m₃ hle₃ _ => .pure ?_
      exact Nat.lt_of_lt_of_le ho (Nat.le_trans hle₂ hle₃)

theorem invoke_succ (ih : PlacesOn n) (r : Routine) {args : List Value} {m : Machine}
    (hargs : ∀ v ∈ args, v.Below m.objects.size) :
    Places m (Run.invoke (n + 1) r args) fun v k => v.Below k := by
  refine .bind (.createFrame fun x v hv => hargs v (Table.mem_of_find?_foldl_insert hv).2)
    fun frame m₁ _ _ => ?_
  refine .bind (.inFrame (ih.executeAll r.body _)) fun flow m₂ _ hflow => ?_
  split
  · exact .receiver r.frame
  · cases flow with
    | proceed => exact .pure trivial
    | returned v => exact .pure (hflow v rfl)

theorem executeAll_succ (ih : PlacesOn n) (ss : List Code) (m : Machine) :
    Places m (Run.executeAll (n + 1) ss) fun flow k => ∀ v, flow = .returned v → v.Below k := by
  cases ss with
  | nil => exact .pure nofun
  | cons s ss =>
    refine .bind (ih.execute s m) fun flow m₁ _ hflow => ?_
    cases flow with
    | proceed => exact ih.executeAll ss m₁
    | returned v => exact .pure hflow

theorem execute_succ (ih : PlacesOn n) (s : Code) (m : Machine) :
    Places m (Run.execute (n + 1) s) fun flow k => ∀ v, flow = .returned v → v.Below k := by
  cases s with
  | expression e => exact .bind (ih.evaluate e m) fun _ _ _ _ => .pure nofun
  | print e =>
    exact .bind (ih.evaluate e m) fun v _ _ _ =>
      .bind (.printLine v.text) fun _ _ _ _ => .pure nofun
  | var name init =>
    cases init with
    | none => exact .bind (.define trivial) fun _ _ _ _ => .pure nofun
    | some e =>
      exact .bind (ih.evaluate e m) fun v _ _ hv => .bind (.define hv) fun _ _ _ _ => .pure nofun
  | block body =>
    refine .get (.bind (.createFrame nofun) fun frame m₁ _ _ => ?_)
    exact .inFrame (ih.executeAll body _)
  | cond test yes no =>
    refine .bind (ih.evaluate test m) fun v m₁ _ _ => ?_
    split
    · exact ih.execute yes m₁
    · cases no with
      | none => exact .pure nofun
      | some no => exact ih.execute no m₁
  | loop test body =>
    refine .bind (ih.evaluate test m) fun v m₁ _ _ => ?_
    split
    · refine .bind (ih.execute body m₁) fun flow m₂ _ hflow => ?_
      cases flow with
      | proceed => exact ih.execute _ m₂
      | returned w => exact .pure hflow
    · exact .pure nofun
  | function name params body =>
    refine .bind (.newFunction _ params body) fun f m₁ _ hf => ?_
    exact .bind (.define hf) fun _ _ _ _ => .pure nofun
  | ret keyword value =>
    cases value with
    | none => exact .pure fun v h => by cases h; trivial
    | some e =>
      refine .bind (ih.evaluate e m) fun v m₁ _ hv => .pure fun w h => ?_
      cases h
      exact hv
  | classDecl name superclass methods =>
    exact .bind (.declareClass name superclass methods) fun _ _ _ _ => .pure nofun

end PlacesOn

/-- Every run keeps the instances in their places, by induction on the fuel. -/
theorem placesOn (n : Nat) : PlacesOn n := by
  induction n with
  | zero =>
    exact ⟨fun _ _ => .outOfFuel, fun _ _ => .outOfFuel, fun _ _ _ _ _ => .outOfFuel,
      fun _ _ _ _ => .outOfFuel, fun _ _ _ _ => .outOfFuel, fun _ _ => .outOfFuel,
      fun _ _ => .outOfFuel⟩
  | succ n ih =>
    exact ⟨ih.evaluate_succ, ih.evaluateAll_succ, ih.call_succ, ih.apply_succ, ih.invoke_succ,
      ih.executeAll_succ, ih.execute_succ⟩

namespace Places

variable {r : Run α} {Q : α → Nat → Prop} {m' : Machine} {a : α}

/-- A line keeps the instances in their places. -/
theorem line (n : Nat) (code : Line (Option Nat)) (m : Machine) :
    Places m (Run.line n code) fun _ _ => True := by
  refine .bind ((placesOn n).executeAll _ m) fun flow m₁ _ _ => ?_
  split
  · exact .pure trivial
  · exact .bind ((placesOn n).evaluate _ m₁) fun _ _ _ _ => .pure trivial

theorem of_ok (h : Places m r Q) (hm : m.Placed) (hr : r m = .ok a m') :
    m.objects.size ≤ m'.objects.size ∧ m'.Placed ∧ Q a m'.objects.size := by
  have h := h hm
  rw [hr] at h
  cases h with
  | ok hle hm' hQ => exact ⟨hle, hm', hQ⟩

/-- However a run ends, all instances have their places. -/
theorem after (h : Places m r Q) (hm : m.Placed) :
    m.objects.size ≤ (r.after m).objects.size ∧ (r.after m).Placed := by
  have h := h hm
  unfold Run.after
  generalize r m = x at h
  cases h with
  | ok hle hm' _ => exact ⟨hle, hm'⟩
  | error hle hm' => exact ⟨hle, hm'⟩

end Places

end Run

/-! ## Sessions -/

/-- All instances that a task may come upon from the machine have their places there. -/
structure Task.Placed (t : Task) (m : Machine) : Prop where
  machine : m.Placed
  given : ∀ v ∈ t.given, v.Below m.objects.size

namespace Task

variable {n : Nat} {t t' : Task} {m m' : Machine}

/-- However a task ends, all instances have their places. -/
theorem Placed.after (h : t.Placed m) (n : Nat) :
    m.objects.size ≤ (t.after n m).objects.size ∧ (t.after n m).Placed := by
  have hn := Run.placesOn n
  cases t with
  | run node =>
    cases node with
    | expr e => exact (hn.evaluate e m).after h.machine
    | stmt s => exact (hn.execute s m).after h.machine
    | stmts ss => exact (hn.executeAll ss m).after h.machine
  | arguments es => exact (hn.evaluateAll es m).after h.machine
  | call f paren args =>
    exact (hn.call f paren (List.forall_mem_cons.1 h.given).2).after h.machine
  | apply callee args => exact (hn.apply callee h.given).after h.machine
  | invoke r args => exact (hn.invoke r h.given).after h.machine

/-- What a task returns has its place in the machine that the task leaves. -/
theorem Yields.below {v : Value} (h : Yields n t m v) (ht : t.Placed m) :
    v.Below (t.after n m).objects.size := by
  have hn := Run.placesOn n
  cases h with
  | expr hr => exact (Run.after_ok hr ▸ ((hn.evaluate _ m).of_ok ht.machine hr).2.2 :)
  | stmt hr => exact (Run.after_ok hr ▸ ((hn.execute _ m).of_ok ht.machine hr).2.2 v rfl :)
  | stmts hr => exact (Run.after_ok hr ▸ ((hn.executeAll _ m).of_ok ht.machine hr).2.2 v rfl :)
  | arguments hr hv =>
    exact (Run.after_ok hr ▸ ((hn.evaluateAll _ m).of_ok ht.machine hr).2.2 v hv :)
  | call hr =>
    have hargs := (List.forall_mem_cons.1 ht.given).2
    exact (Run.after_ok hr ▸ ((hn.call _ _ hargs).of_ok ht.machine hr).2.2 :)
  | apply hr => exact (Run.after_ok hr ▸ ((hn.apply _ ht.given).of_ok ht.machine hr).2.2 :)
  | invoke hr => exact (Run.after_ok hr ▸ ((hn.invoke _ ht.given).of_ok ht.machine hr).2.2 :)

/-- Where a task begins another one, all instances still have their places. -/
theorem Begins.placed (h : Begins n t m t' m') (ht : t.Placed m) : t'.Placed m' := by
  obtain ⟨hm, hgiven⟩ := ht
  have hn := Run.placesOn n
  have hvalue : ∀ {e : Expr (Option Nat)} {v : Value} {m₁ : Machine},
      Run.evaluate n e m = .ok v m₁ → m₁.Placed ∧ v.Below m₁.objects.size :=
    fun hr => ((hn.evaluate _ m).of_ok hm hr).2
  cases h with
  | group | unary | binaryLeft | logicalLeft | assign | callee | get | setObject | argument
  | statement | expression | print | var | condTest | loopTest | ret => exact ⟨hm, nofun⟩
  | binaryRight hr | logicalRight hr | arguments hr | setValue hr | moreArguments hr
  | condYes hr | condNo hr | loopBody hr => exact ⟨(hvalue hr).1, nofun⟩
  | call hr hrs =>
    obtain ⟨hm₁, hf⟩ := hvalue hr
    obtain ⟨hle, hm₂, hargs⟩ := (hn.evaluateAll _ _).of_ok hm₁ hrs
    exact ⟨hm₂, List.forall_mem_cons.2 ⟨hf.mono hle, hargs⟩⟩
  | apply => exact ⟨hm.congr rfl rfl, (List.forall_mem_cons.1 hgiven).2⟩
  | routine => exact ⟨hm, hgiven⟩
  | initializer hnew _ hbound =>
    obtain ⟨hle₁, hm₁, ho⟩ := (Run.Places.newObject _).of_ok hm hnew
    obtain ⟨hle₂, hm₂, -⟩ := (Run.Places.bindMethod _ ho).of_ok hm₁ hbound
    exact ⟨hm₂, fun v hv => (hgiven v hv).mono (Nat.le_trans hle₁ hle₂)⟩
  | @body r args _ _ _ hframe =>
    cases hframe
    have hnames : ∀ x v, ((r.params.zip args).foldl (fun t p => t.insert p.1 p.2)
        Table.empty).find? x = some v → v.Below m.objects.size :=
      fun x v hv => hgiven v (Table.mem_of_find?_foldl_insert hv).2
    exact ⟨(hm.grow hnames _).congr rfl rfl, nofun⟩
  | block hframe =>
    cases hframe
    have hnames : ∀ x v, (Table.empty : Table Value).find? x = some v → v.Below m.objects.size :=
      nofun
    exact ⟨(hm.grow hnames m.frame).congr rfl rfl, nofun⟩
  | moreStatements hr => exact ⟨((hn.execute _ m).of_ok hm hr).2.1, nofun⟩
  | loopAgain hr _ hbody =>
    exact ⟨((hn.execute _ _).of_ok (hvalue hr).1 hbody).2.1, nofun⟩

end Task

section

variable {clock : Nat → Float} {room : Option Nat} {fuel : Nat} {sources : List (Style × String)}
  {n : Nat} {t : Task} {m : Machine} {v : Value}

/-- A value that the session has at hand in the machine: it is in a frame or in a field there, the
session hands it to a task that begins there, or a task that ends there returns it. -/
inductive Session.AtHand (clock : Nat → Float) (room : Option Nat) (fuel : Nat)
    (sources : List (Style × String)) : Machine → Value → Prop
  | entry {m : Machine} {i : Nat} {x : String} {v : Value} :
      Session.Visits clock room fuel sources m → m.store.get? i x = some v →
      AtHand clock room fuel sources m v
  | field {m : Machine} {a : Nat} {t : Table Value} {x : String} {v : Value} :
      Session.Visits clock room fuel sources m → m.objects[a]? = some t → t.find? x = some v →
      AtHand clock room fuel sources m v
  | argument {n : Nat} {t : Task} {m : Machine} {v : Value} :
      Session.Reached clock room fuel sources n t m → v ∈ t.given →
      AtHand clock room fuel sources m v
  | result {n : Nat} {t : Task} {m : Machine} {v : Value} :
      Session.Reached clock room fuel sources n t m → t.Yields n m v →
      AtHand clock room fuel sources (t.after n m) v

/-- Between two sources all instances have their places. -/
theorem Session.Runs.placed {code : Line (Option Nat)}
    (h : Session.Runs clock room fuel sources code m) : m.Placed := by
  obtain ⟨before, style, source, after, -, -, rfl⟩ := h
  have hsteps : ((Session.start clock room).steps fuel before).2.machine.Placed :=
    Session.machine_steps (P := Machine.Placed)
      (fun m code hm => ((Run.Places.line fuel code m.unprinted).after (hm.congr rfl rfl)).2) before
      (Machine.Placed.start clock room)
  exact hsteps.congr rfl rfl

/-- Wherever a session begins a task, all instances have their places. -/
theorem Session.Reached.placed (h : Session.Reached clock room fuel sources n t m) :
    t.Placed m := by
  induction h with
  | statements hruns => exact ⟨hruns.placed, nofun⟩
  | trailing hruns hr _ =>
    exact ⟨(((Run.placesOn fuel).executeAll _ _).of_ok hruns.placed hr).2.1, nofun⟩
  | begins _ hbegins ih => exact hbegins.placed ih

theorem Session.Visits.placed (h : Session.Visits clock room fuel sources m) : m.Placed := by
  cases h with
  | begins h => exact h.placed.machine
  | ends h => exact (h.placed.after _).2

/-- **All that a session has at hand has its place**, so a new instance is none of it. -/
theorem Session.AtHand.below (h : Session.AtHand clock room fuel sources m v) :
    v.Below m.objects.size := by
  cases h with
  | entry hm hv => exact hm.placed.frames _ _ _ hv
  | field hm ht hv => exact hm.placed.fields _ _ _ _ ht hv
  | argument h hv => exact h.placed.given v hv
  | result h hv => exact hv.below h.placed

end

end LoxLang
