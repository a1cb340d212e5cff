import LoxLang.Proofs.Safety.Chains

/-!
# The method around a point

A method runs inside the frame of its receiver, which is made for it: the parent of that frame is
the one the method closes over (`Store.Receives`). Where the context of a node has a receiver, the
node stands in the body of a method, and the chain of frames leads to a receiver's frame made for
that very method (`Store.Hosts`). Blocks and functions nested in the method keep this, also when
the function is called much later, since they only add open frames in front.
-/

namespace LoxLang

/-- The class is the other one, or derives from it. -/
inductive Class.Descends : Class → Class → Prop
  | refl (c : Class) : Descends c c
  | step {c above ancestor : Class} : c.superclass = some above → Descends above ancestor →
      Descends c ancestor

theorem Class.Descends.trans {a b c : Class} (h : a.Descends b) (h' : b.Descends c) :
    a.Descends c := by
  induction h with
  | refl => exact h'
  | step ha _ ih => exact .step ha (ih h')

/-- A method of a class is one in the table of the class or of one that it derives from. -/
theorem Class.descends_of_method? {c : Class} {name : String} {r : Routine}
    (h : c.method? name = some r) :
    ∃ owner, c.Descends owner ∧ owner.methods.find? name = some r := by
  fun_induction Class.method? c name with
  | case1 identity cname methods name => exact ⟨_, .refl _, h⟩
  | case2 identity cname above methods name found hfound =>
    cases h
    exact ⟨_, .refl _, hfound⟩
  | case3 identity cname above methods name hfound ih =>
    obtain ⟨owner, hdescends, hr⟩ := ih h
    exact ⟨owner, .step rfl hdescends, hr⟩

/-- The routine is a method of the class of the instance, its own or that of a superclass. -/
def Object.Knows (o : Object) (r : Routine) : Prop :=
  ∃ owner name, o.cls.Descends owner ∧ owner.methods.find? name = some r

/-- An instance knows the methods that its class derives from another one. -/
theorem Object.knows_of_method? {o : Object} {c : Class} (hc : o.cls.Descends c) {name : String}
    {r : Routine} (h : c.method? name = some r) : o.Knows r := by
  obtain ⟨owner, hdescends, hr⟩ := Class.descends_of_method? h
  exact ⟨owner, name, hc.trans hdescends, hr⟩

/-- A class has no method of a name just if neither it nor any class that it derives from has one in
its table. -/
theorem Class.method?_eq_none_iff {c : Class} {name : String} :
    c.method? name = none ↔ ∀ owner, c.Descends owner → owner.methods.find? name = none := by
  constructor
  · intro h owner hdescends
    induction hdescends with
    | refl c =>
      obtain ⟨identity, cname, superclass, methods⟩ := c
      cases superclass with
      | none => exact h
      | some above =>
        unfold Class.method? at h
        split at h
        · cases h
        · assumption
    | @step c above _ habove _ ih =>
      obtain ⟨identity, cname, superclass, methods⟩ := c
      cases habove
      refine ih ?_
      unfold Class.method? at h
      split at h
      · cases h
      · exact h
  · intro h
    cases hr : c.method? name with
    | none => rfl
    | some r =>
      obtain ⟨owner, hdescends, hfound⟩ := Class.descends_of_method? hr
      rw [h owner hdescends] at hfound
      cases hfound

/-- The contexts differ in the innermost scope at most. -/
structure Context.SameOuter (Γ Γ' : Context) : Prop where
  length : Γ'.length = Γ.length
  tail : Γ'.tail = Γ.tail

namespace Context.SameOuter

theorem refl (Γ : Context) : Γ.SameOuter Γ := ⟨rfl, rfl⟩

theorem declare (Γ : Context) (name : String) : Γ.SameOuter (Γ.declare name) :=
  ⟨Γ.length_declare name, Γ.tail_declare name⟩

theorem begin (Γ : Context) (name : String) : Γ.SameOuter (Γ.begin name) :=
  ⟨Γ.length_begin name, Γ.tail_begin name⟩

theorem after {σ : Type} (Γ : Context) (s : Stmt σ) : Γ.SameOuter (Γ.after s) :=
  ⟨Γ.length_after s, Γ.tail_after s⟩

end Context.SameOuter

namespace Store

/-- The frame is one for the methods of a class with this superclass, if any, to close over. -/
def MethodFrame (s : Store Value) (frame : Nat) : Option Class → Prop
  | none => s.OpenAt frame
  | some above => ∃ p, s.frames[frame]? = some (.superclass above p)

theorem MethodFrame.mono {s s' : Store Value} {frame : Nat} {above : Option Class}
    (h : s.MethodFrame frame above) (hg : s.Grows s') : s'.MethodFrame frame above := by
  cases above with
  | none => exact hg.opened frame h
  | some above =>
    obtain ⟨p, hf⟩ := h
    exact ⟨p, hg.sealed frame _ hf (.superclass above p)⟩

/-- Methods that close over the frame of a superclass belong to a class with that superclass. -/
theorem MethodFrame.eq_some {s : Store Value} {frame parent : Nat} {above : Option Class}
    {c : Class} (h : s.MethodFrame frame above)
    (hf : s.frames[frame]? = some (.superclass c parent)) : above = some c := by
  cases above with
  | none =>
    obtain ⟨f, hf', hopen⟩ := h
    rw [hf] at hf'
    cases hf'
    exact absurd hopen (Frame.Sealed.superclass c parent).not_open
  | some above =>
    obtain ⟨p, hf'⟩ := h
    rw [hf] at hf'
    cases hf'
    rfl

/-- The frame is that of the receiver `o`, made for the method `r` of the class `c`. -/
structure Receives (s : Store Value) (frame : Nat) (o : Object) (c : Class) (r : Routine) :
    Prop where
  frame : s.frames[frame]? = some (.receiver o r.frame)
  descends : o.cls.Descends c
  method : ∃ name, c.methods.find? name = some r

/-- If the context of the frame has a receiver, the node, which stands in the context `Γ'`, is in
the body of the method for which the frame of that receiver was made. -/
def Hosts (s : Store Value) (frame : Nat) (Γ Γ' : Context) (node : Node (Option Nat)) : Prop :=
  ∀ d, Γ.distance? thisName = some d → ∃ j o c r kind params, s.ancestor? d frame = some j ∧
    s.Receives j o c r ∧ Node.Inside (.ofParams kind params :: Γ.drop d) (.stmts r.body) Γ' node

theorem Receives.mono {s s' : Store Value} {frame : Nat} {o : Object} {c : Class} {r : Routine}
    (h : s.Receives frame o c r) (hg : s.Grows s') : s'.Receives frame o c r :=
  ⟨hg.sealed frame _ h.frame (.receiver o r.frame), h.descends, h.method⟩

namespace Hosts

variable {s s' : Store Value} {frame : Nat} {Γ Γ' Γ'' : Context} {node node' : Node (Option Nat)}

theorem mono (h : s.Hosts frame Γ Γ' node) (hg : s.Grows s') : s'.Hosts frame Γ Γ' node := by
  intro d hd
  obtain ⟨j, o, c, r, kind, params, ha, hj, hinside⟩ := h d hd
  exact ⟨j, o, c, r, kind, params, hg.ancestor? ha, hj.mono hg, hinside⟩

/-- The global context has no receiver. -/
theorem global : s.Hosts frame [] Γ' node := nofun

/-- The parts of a node stand in the same method. -/
theorem child (h : s.Hosts frame Γ Γ' node) (hc : (Γ'', node') ∈ node.children Γ') :
    s.Hosts frame Γ Γ'' node' := by
  intro d hd
  obtain ⟨j, o, c, r, kind, params, ha, hj, hinside⟩ := h d hd
  exact ⟨j, o, c, r, kind, params, ha, hj, .child hinside hc⟩

/-- A scope without receiver in front of the context, with a frame of its own. -/
theorem inner (h : s.Hosts frame Γ Γ' node) {sc : Scope} (hsc : thisName ∉ sc.names) {frame' : Nat}
    (hp : s.parent? frame' = some frame) : s.Hosts frame' (sc :: Γ) Γ' node := by
  intro d hd
  rw [Context.distance?_cons hsc] at hd
  obtain ⟨e, he, rfl⟩ := Option.map_eq_some_iff.1 hd
  obtain ⟨j, o, c, r, kind, params, ha, hj, hinside⟩ := h e he
  refine ⟨j, o, c, r, kind, params, ?_, hj, hinside⟩
  rw [Store.ancestor?, hp]
  exact ha

/-- What the innermost scope declares does not matter. -/
theorem congr_head {sc sc' : Scope} (h : s.Hosts frame (sc :: Γ) Γ' node)
    (hsc : thisName ∉ sc.names) (hsc' : thisName ∉ sc'.names) :
    s.Hosts frame (sc' :: Γ) Γ' node := by
  intro d hd
  rw [Context.distance?_cons hsc'] at hd
  obtain ⟨e, he, rfl⟩ := Option.map_eq_some_iff.1 hd
  obtain ⟨j, o, c, r, kind, params, ha, hj, hinside⟩ :=
    h (e + 1) (by rw [Context.distance?_cons hsc, he]; rfl)
  exact ⟨j, o, c, r, kind, params, ha, hj, hinside⟩

/-- So the context may be that behind a declaration. -/
theorem sameOuter {Γ₁ : Context} (h : s.Hosts frame Γ Γ' node) (hΓ : Γ.Proper) (hΓ₁ : Γ₁.Proper)
    (hsame : Γ.SameOuter Γ₁) : s.Hosts frame Γ₁ Γ' node := by
  obtain ⟨hlen, htail⟩ := hsame
  cases Γ with
  | nil =>
    obtain rfl := List.length_eq_zero_iff.1 hlen
    exact h
  | cons sc Γ =>
    cases Γ₁ with
    | nil => cases hlen
    | cons sc₁ Γ₁ =>
      cases htail
      exact h.congr_head hΓ.plain_head.this hΓ₁.plain_head.this

/-- The body of a method stands in the method to which its receiver is bound. -/
theorem receiver {o : Object} {c : Class} {r : Routine} (h : s.Receives frame o c r)
    (kind : BodyKind) (params : List Token) : s.Hosts frame (.receiver :: Γ)
      (.ofParams kind params :: .receiver :: Γ) (.stmts r.body) := by
  intro d hd
  cases hd
  exact ⟨frame, o, c, r, kind, params, rfl, h, .root⟩

end Hosts

end Store

end LoxLang
