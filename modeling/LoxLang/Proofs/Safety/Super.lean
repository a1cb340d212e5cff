import Mathlib
import LoxLang.Proofs.Safety.Reached

/-!
# What `super` finds

`super` is resolved by where it stands in the text: it searches the superclass of the class in which
the method around it is declared, as that class was declared, and binds what it finds to the
receiver of that method (`super_dispatches_lexically`). Which class the receiver itself is an
instance of does not matter, nor do its fields, nor in how many blocks and functions `super` is
nested in the method.
-/

namespace LoxLang

/-- The node, in the context `Γ`, stands in the body of the method, which is the innermost one
around it: the scope of a receiver next to the node is the one right around the body. -/
def Routine.Encloses (r : Routine) (Γ : Context) (node : Node (Option Nat)) : Prop :=
  ∃ d kind params, Γ.distance? thisName = some d ∧
    Node.Inside (.ofParams kind params :: Γ.drop d) (.stmts r.body) Γ node

/-- The machine with other fields in its instances. -/
def Machine.withObjects (m : Machine) (objects : Array (Table Value)) : Machine :=
  { m with objects := objects }

section

variable {clock : Nat → Float} {room : Option Nat} {fuel : Nat} {sources : List (Style × String)}
  {n : Nat} {site : Site (Option Nat)} {method : Token} {m : Machine}

/-- Where a method is found, `super` makes a value of it; where none is found, it fails and leaves
the machine as it is. -/
theorem Machine.Derived.superMethod_cases {Γ : Context} {d i j p : Nat} {o : Object} {c : Class}
    (h : m.Derived Γ d i j p o c) (hmark : site.mark = Γ.distance? superName) :
    (∀ found, c.method? method.lexeme = some found →
      Run.superMethod site method m = Run.methodValue found o m) ∧
    (c.method? method.lexeme = none → Run.superMethod site method m =
      .error (.runtime method.line (.undefinedProperty method.lexeme)) m) := by
  rw [h.superMethod_eq hmark]
  constructor
  · intro found hfound
    rw [hfound]
  · intro hnone
    rw [hnone]
    rfl

/-- `super` does not read the fields of instances. -/
theorem Machine.Derived.superMethod_withObjects {Γ : Context} {d i j p : Nat} {o : Object}
    {c : Class} (h : m.Derived Γ d i j p o c) (hmark : site.mark = Γ.distance? superName)
    (objects : Array (Table Value)) :
    Run.superMethod site method (m.withObjects objects) =
      match Run.superMethod site method m with
      | .ok v m' => .ok v (m'.withObjects objects)
      | .error fault m' => .error fault (m'.withObjects objects) := by
  have h' : (m.withObjects objects).Derived Γ d i j p o c :=
    ⟨h.this, h.super, h.inner, h.outer, h.receiver, h.superclass⟩
  rw [h'.superMethod_eq hmark, h.superMethod_eq hmark]
  cases c.method? method.lexeme <;> rfl

end

/-- **`super` dispatches lexically and keeps the receiver.** Take any session, and any machine in
which it comes to evaluate `super.method`. The node stands in the body of a method, in whatever
blocks and functions nested in it, and the class that declares this method was declared with a
superclass, `above`. The receiver of the method is an instance of that class or of one that derives
from it, and it is what `this` reads at that point. The method is searched from `above` on. If it is
found there, it is bound to the receiver; `super` fails, for want of the property, just if neither
`above` nor any class from which it derives has such a method. The fields of instances do not
matter. -/
theorem super_dispatches_lexically (clock : Nat → Float) (room : Option Nat) (fuel : Nat)
    (sources : List (Style × String)) (n : Nat) (site : Site (Option Nat)) (method : Token)
    (m : Machine) (h : Session.Reached clock room fuel sources (n + 1)
      (.run (.expr (.super site method))) m) :
    ∃ code Γ declared owner name r above o,
      (Session.log clock room fuel sources).runs code ∧
      code.Within Γ (.expr (.super site method)) ∧
      r.Encloses Γ (.expr (.super site method)) ∧
      owner.methods.find? name = some r ∧
      (Session.log clock room fuel sources).Declares declared owner ∧
      owner.superclass = some above ∧
      o.cls.Descends owner ∧
      (∀ this : Site (Option Nat), this.name.lexeme = thisName →
        this.mark = Γ.distance? thisName →
        Run.evaluate (n + 1) (.this this) m = .ok (.object o) m) ∧
      (∀ found, above.method? method.lexeme = some found →
        Run.evaluate (n + 1) (.super site method) m = Run.methodValue found o m) ∧
      (Run.evaluate (n + 1) (.super site method) m =
          .error (.runtime method.line (.undefinedProperty method.lexeme)) m ↔
        ∀ c, above.Descends c → c.methods.find? method.lexeme = none) ∧
      (∀ objects, Run.evaluate (n + 1) (.super site method) (m.withObjects objects) =
        match Run.evaluate (n + 1) (.super site method) m with
        | .ok v m' => .ok v (m'.withObjects objects)
        | .error fault m' => .error fault (m'.withObjects objects)) := by
  obtain ⟨hm, Γ, hs⟩ := h.situated
  obtain ⟨hmark, d, i, j, p, o, above, hd⟩ := hs.super Session.log_lawful
  obtain ⟨code, hcode, hw⟩ := hs.within
  obtain ⟨owner, r, kind, params, hreceives, habove, howner, hinside⟩ := hs.home hm hd
  obtain ⟨name, hr⟩ := hreceives.method
  obtain ⟨hfound, hnone⟩ := hd.superMethod_cases hmark
  have hdeclared : ∃ declared, (Session.log clock room fuel sources).Declares declared owner := by
    cases howner with
    | intro hdeclared _ _ => exact hdeclared
  obtain ⟨declared, hdeclared⟩ := hdeclared
  refine ⟨code, Γ, declared, owner, name, r, above, o, hcode, hw,
    ⟨d, kind, params, hd.this, hinside⟩, hr, hdeclared, habove, hreceives.descends, ?_, hfound, ?_,
    hd.superMethod_withObjects hmark⟩
  · intro this hname hthis
    change Run.lookUp this m = _
    have hvalue : m.value? this = some (.object o) := by
      rw [Machine.At.value?_eq (hthis.trans hd.this) hd.inner, hname]
      exact Store.get?_receiver hd.receiver
    rw [Run.lookUp_eq, hvalue]
  · rw [← Class.method?_eq_none_iff]
    constructor
    · intro herror
      refine Option.eq_none_iff_forall_ne_some.2 fun found h => ?_
      cases (hfound found h).symm.trans herror
    · exact hnone

/-- A method that a class inherits runs `super`. The receiver is an instance of `C`, the method is
declared in `B`, and what `super` finds is in `A`. -/
theorem super_from_inherited_method :
    ∃ (n : Nat) (site : Site (Option Nat)) (method : Token) (m : Machine),
      Session.Reached (fun _ => 0) none 30 [(.program,
        "{ class A { f() {} } class B < A { f() { super.f; } } class C < B {} C().f(); }")] (n + 1)
        (.run (.expr (.super site method))) m ∧
      ∃ (above : Class) (found : Routine) (o : Object),
        above.method? method.lexeme = some found ∧ found.body = [] ∧ o.cls.name = "C" ∧
          Run.evaluate (n + 1) (.super site method) m = Run.methodValue found o m := by
  have hruns := Session.Runs.single (fun _ => 0) none 30 .program
    "{ class A { f() {} } class B < A { f() { super.f; } } class C < B {} C().f(); }" (by cbv)
  have hblock := ((Session.Reached.statements hruns).begins .statement).begins (.block rfl)
  have hA := hblock.begins (.moreStatements (by cbv))
  have hB := hA.begins (.moreStatements (by cbv))
  have hC := hB.begins (.moreStatements (by cbv))
  have hcall := ((hC.begins .statement).begins .expression).begins (.call (by cbv) (by cbv))
  have hbody := ((hcall.begins (.apply rfl rfl (by cbv))).begins .routine).begins (.body rfl)
  have h := (hbody.begins .statement).begins .expression
  obtain ⟨_, _, _, _, _, _, above, o, -, -, -, -, -, -, -, -, hfound, hfails, -⟩ :=
    super_dispatches_lexically _ _ _ _ _ _ _ _ h
  refine ⟨_, _, _, _, h, above, ?_⟩
  cases hc : above.method? _ with
  | some found =>
    have hvalue := hfound found hc
    injection hvalue.symm.trans (by cbv) with hbound hmachine
    injection hbound with _ hroutine
    have ho : some (Value.object o) = _ :=
      congrArg (fun m : Machine => m.store.get? 6 thisName) hmachine
    cases ho
    exact ⟨found, _, rfl, congrArg Routine.body hroutine, rfl, hvalue⟩
  | none =>
    have hfailed := hfails.2 (Class.method?_eq_none_iff.1 hc)
    cases hfailed.symm.trans (by cbv)

end LoxLang
