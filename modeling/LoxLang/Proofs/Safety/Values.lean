import LoxLang.Proofs.Safety.Homes
import LoxLang.Proofs.Safety.Tasks

/-!
# Good values

A function is good if its body stands in a line of the log, the frame in which it was created fits
the context of the body, and, inside a method, the chain of that frame leads to the receiver's frame
of the method (`Routine.Good`). A class is good if it has been declared and its methods are run
inside the scope of a receiver; an instance is good if its class is. Goodness is kept while the
store grows. In a good machine all values within reach are good, and every frame is open or sealed.
A node stands in a machine (`Machine.Stands`) if the current frame is one in which the node may be
run.
-/

namespace LoxLang

variable (L : Log)

/-- The body stands in a line, in a context that the frame of the routine fits and hosts. -/
def Routine.Good (s : Store Value) (r : Routine) : Prop :=
  ∃ line Γ kind params, L.runs line ∧ line.Within (.ofParams kind params :: Γ) (.stmts r.body) ∧
    r.params = params.map Token.lexeme ∧ s.Fits r.frame Γ ∧
    s.Hosts r.frame Γ (.ofParams kind params :: Γ) (.stmts r.body)

/-- The body stands in a line, inside the scope of a receiver that the routine is not bound to
yet. -/
def Routine.Unbound (s : Store Value) (r : Routine) : Prop :=
  ∃ line Γ kind params, L.runs line ∧
    line.Within (.ofParams kind params :: .receiver :: Γ) (.stmts r.body) ∧
    r.params = params.map Token.lexeme ∧ s.Fits r.frame Γ

/-- The class has been declared; its methods wait for a receiver and close over the frame of its
superclass, if it has one, and its superclass is good, too. -/
inductive Class.Good (s : Store Value) : Class → Prop
  | intro {c : Class} : (∃ m, L.Declares m c) →
      (∀ above, c.superclass = some above → Class.Good s above) →
      (∀ name r, c.methods.find? name = some r →
        r.Unbound L s ∧ s.MethodFrame r.frame c.superclass) → Class.Good s c

/-- The functions and classes of a value are good. -/
def Value.Good (s : Store Value) : Value → Prop
  | .function identity r => r.Good L s ∧ L.Made identity r
  | .cls c => c.Good L s
  | .object o => o.cls.Good L s
  | _ => True

/-- What can be called is good. -/
def Callee.Good (s : Store Value) : Callee → Prop
  | .clock => True
  | .routine r => r.Good L s ∧ ∃ identity, L.Made identity r
  | .construct c => c.Good L s

/-- All values in frames and in fields are good, and the frames for `this` and `super` have no other
name. -/
structure Machine.Good (m : Machine) : Prop where
  frames : ∀ i x v, m.store.get? i x = some v → v.Good L m.store
  fields : ∀ (i : Nat) (t : Table Value) x v, m.objects[i]? = some t → t.find? x = some v →
    v.Good L m.store
  shapes : ∀ (i : Nat) (f : Frame Value), m.store.frames[i]? = some f → f.Open ∨ f.Sealed

/-- The machine is in a frame that fits the context. -/
def Machine.At (m : Machine) (Γ : Context) : Prop := m.store.Fits m.frame Γ

/-- A later machine in the same frame, whose store has grown. -/
structure Machine.Grows (m m' : Machine) : Prop where
  store : m.store.Grows m'.store
  frame : m'.frame = m.frame

/-- The machine is where the node may be run: the node stands in a line, in a context that the
current frame fits and hosts. -/
structure Machine.Stands (m : Machine) (Γ : Context) (node : Node (Option Nat)) : Prop where
  within : ∃ line, L.runs line ∧ line.Within Γ node
  fits : m.At Γ
  hosts : m.store.Hosts m.frame Γ Γ node

variable {L}

section Growth

variable {s s' : Store Value}

theorem Routine.Good.mono {r : Routine} (h : r.Good L s) (hg : s.Grows s') : r.Good L s' := by
  obtain ⟨line, Γ, kind, params, hline, hbody, hparams, hfits, hhosts⟩ := h
  exact ⟨line, Γ, kind, params, hline, hbody, hparams, hfits.mono hg, hhosts.mono hg⟩

theorem Routine.Unbound.mono {r : Routine} (h : r.Unbound L s) (hg : s.Grows s') :
    r.Unbound L s' := by
  obtain ⟨line, Γ, kind, params, hline, hbody, hparams, hfits⟩ := h
  exact ⟨line, Γ, kind, params, hline, hbody, hparams, hfits.mono hg⟩

/-- The frame of a good routine is there. -/
theorem Routine.Good.frame_lt {r : Routine} (h : r.Good L s) : r.frame < s.frames.size := by
  obtain ⟨line, Γ, kind, params, hline, hbody, hparams, hfits, hhosts⟩ := h
  exact hfits.lt

theorem Routine.Unbound.frame_lt {r : Routine} (h : r.Unbound L s) : r.frame < s.frames.size := by
  obtain ⟨line, Γ, kind, params, hline, hbody, hparams, hfits⟩ := h
  exact hfits.lt

theorem Class.Good.mono {c : Class} (h : c.Good L s) (hg : s.Grows s') : c.Good L s' := by
  induction h with
  | intro hdeclared _ hmethods ih =>
    exact .intro hdeclared ih fun name r hr =>
      ⟨(hmethods name r hr).1.mono hg, (hmethods name r hr).2.mono hg⟩

theorem Value.Good.mono {v : Value} (h : v.Good L s) (hg : s.Grows s') : v.Good L s' := by
  cases v with
  | function => exact ⟨Routine.Good.mono h.1 hg, h.2⟩
  | cls => exact Class.Good.mono h hg
  | object => exact Class.Good.mono h hg
  | _ => trivial

end Growth

namespace Machine.Grows

variable {m m' m'' : Machine}

theorem refl (m : Machine) : m.Grows m := ⟨.refl _, rfl⟩

theorem trans (h : m.Grows m') (h' : m'.Grows m'') : m.Grows m'' :=
  ⟨h.store.trans h'.store, h'.frame.trans h.frame⟩

end Machine.Grows

theorem Machine.At.mono {m m' : Machine} {Γ : Context} (h : m.At Γ) (hg : m.Grows m') :
    m'.At Γ := by
  unfold Machine.At
  rw [hg.frame]
  exact Store.Fits.mono h hg.store

namespace Machine.Stands

variable {m m' : Machine} {Γ Γ' : Context} {node node' : Node (Option Nat)}

theorem mono (h : m.Stands L Γ node) (hg : m.Grows m') : m'.Stands L Γ node where
  within := h.within
  fits := h.fits.mono hg
  hosts := by
    rw [hg.frame]
    exact h.hosts.mono hg.store

/-- A part that stands in the same context. -/
theorem child (h : m.Stands L Γ node) (hc : (Γ, node') ∈ node.children Γ) :
    m.Stands L Γ node' where
  within := by
    obtain ⟨line, hline, hw⟩ := h.within
    exact ⟨line, hline, hw.child hc⟩
  fits := h.fits
  hosts := h.hosts.child hc

variable (hL : L.Lawful)
include hL

theorem proper (h : m.Stands L Γ node) : Γ.Proper := by
  obtain ⟨line, hline, hw⟩ := h.within
  exact hw.proper (hL.accepted line hline)

theorem spelled (h : m.Stands L Γ node) : node.Spelled := by
  obtain ⟨line, hline, hw⟩ := h.within
  exact hw.spelled (hL.accepted line hline)

theorem resolved (h : m.Stands L Γ node) : Node.Resolved Γ node := by
  obtain ⟨line, hline, hw⟩ := h.within
  exact hw.resolved (hL.accepted line hline)

theorem settled (h : m.Stands L Γ node) (hne : ∀ e, node ≠ .expr e) : Γ.Settled := by
  obtain ⟨line, hline, hw⟩ := h.within
  exact hw.settled (hL.accepted line hline) hne

/-- A part that stands behind a declaration, in a later machine. -/
theorem move (h : m.Stands L Γ node) (hc : (Γ', node') ∈ node.children Γ)
    (hsame : Γ.SameOuter Γ') (hg : m.Grows m') (hat : m'.At Γ') : m'.Stands L Γ' node' := by
  obtain ⟨line, hline, hw⟩ := h.within
  have hproper := (hw.child hc).proper (hL.accepted line hline)
  exact ⟨⟨line, hline, hw.child hc⟩, hat,
    ((h.mono hg).hosts.child hc).sameOuter (h.proper hL) hproper hsame⟩

/-- A function that closes over the current frame is good, in whatever store its body has the
context that it should. -/
theorem closure (h : m.Stands L Γ node) {kind : BodyKind} {params : List Token}
    {body : List Code} (hc : (.ofParams kind params :: Γ', .stmts body) ∈ node.children Γ)
    (hsame : Γ.SameOuter Γ') (hΓ' : Γ'.Proper) {s : Store Value} (hg : m.store.Grows s)
    (hfits : s.Fits m.frame Γ') (name : Option String) (isInit : Bool) :
    Routine.Good L s ⟨name, params.map Token.lexeme, body, m.frame, isInit⟩ := by
  obtain ⟨line, hline, hw⟩ := h.within
  exact ⟨line, Γ', kind, params, hline, hw.child hc, rfl, hfits,
    ((h.hosts.child hc).mono hg).sameOuter (h.proper hL) hΓ' hsame⟩

end Machine.Stands

/-- The classes that a good class derives from are good. -/
theorem Class.Good.descends {s : Store Value} {c owner : Class} (h : c.Good L s)
    (hd : c.Descends owner) : owner.Good L s := by
  induction hd with
  | refl => exact h
  | step ha _ ih =>
    cases h with
    | intro _ habove _ => exact ih (habove _ ha)

/-- A method that an instance of a good class knows waits for a receiver. -/
theorem Class.Good.unbound {s : Store Value} {o : Object} (h : o.cls.Good L s) {r : Routine}
    (hr : o.Knows r) : r.Unbound L s := by
  obtain ⟨owner, name, hdescends, hfound⟩ := hr
  cases h.descends hdescends with
  | intro _ _ hmethods => exact (hmethods name r hfound).1

/-- What a good value calls is good. -/
theorem Value.Good.callee? {s : Store Value} {v : Value} (h : v.Good L s) {f : Callee}
    (hf : v.callee? = some f) : f.Good L s := by
  cases v <;> cases hf
  · trivial
  · exact ⟨h.1, _, h.2⟩
  · exact h

/-- Neither a function nor a class nor an instance. -/
def Value.Plain : Value → Prop
  | .nil | .bool _ | .number _ | .string _ => True
  | _ => False

theorem Value.plain_ofLiteral (l : Literal) : (Value.ofLiteral l).Plain := by
  cases l <;> trivial

/-- Operators make plain values. -/
theorem Value.plain_unary {op : Kind} {v w : Value} (h : v.unary op = .ok w) : w.Plain := by
  unfold Value.unary at h
  split at h <;> cases h <;> trivial

theorem Value.plain_binary {op : Kind} {a b w : Value} (h : Value.binary op a b = .ok w) :
    w.Plain := by
  have hadd : ∀ {a b w : Value}, a.add b = .ok w → w.Plain := by
    intro a b w h
    unfold Value.add at h
    split at h <;> cases h <;> trivial
  have harithmetic : ∀ {a b : Float} {w : Value}, Value.arithmetic op a b = .ok w → w.Plain := by
    intro a b w h
    unfold Value.arithmetic at h
    split at h
    case h_3 =>
      split at h <;> cases h
      trivial
    all_goals cases h <;> trivial
  unfold Value.binary at h
  split at h
  · cases h
    trivial
  · cases h
    trivial
  · exact hadd h
  · exact harithmetic h
  · cases h

/-- A plain value is good. -/
theorem Value.Plain.good {s : Store Value} {v : Value} (h : v.Plain) : v.Good L s := by
  cases v <;> trivial

/-- The routines in a table of methods are the methods of the class, and those under the name of the
initializer are marked as such. -/
theorem Run.find?_methodTable {methods : List (Method (Option Nat))} {frame : Nat} {x : String}
    {r : Routine} (h : (Run.methodTable methods frame).find? x = some r) :
    ∃ name params body, .mk name params body ∈ methods ∧ r.params = params.map Token.lexeme ∧
      r.body = body ∧ r.frame = frame ∧ (r.isInit = true ↔ x = initName) := by
  unfold Run.methodTable at h
  refine List.foldlRecOn (motive := fun t => ∀ r, Table.find? t x = some r → ∃ name params body,
    .mk name params body ∈ methods ∧ r.params = params.map Token.lexeme ∧ r.body = body ∧
      r.frame = frame ∧ (r.isInit = true ↔ x = initName)) methods _ (fun _ h => by cases h)
    (fun t ht m hm r hr => ?_) r h
  obtain ⟨name, params, body⟩ := m
  rw [Table.find?_insert] at hr
  split at hr
  · next hx =>
    cases hr
    exact ⟨name, params, body, hm, rfl, rfl, rfl, hx ▸ decide_eq_true_iff⟩
  · exact ht r hr

end LoxLang
