import LoxLang.Proofs.Safety.Resumption

/-!
# Receivers and superclasses

A method is bound in a frame of its own, which holds the receiver under `this`, and the methods of a
derived class close over a frame that holds the superclass under `super`. Nothing protects these
frames but the words themselves: no name of a program is spelled like them, and no distance leads an
assignment there. So they hold what they were made with as long as the session lasts
(`Session.Seals`), and as no method becomes a value before it is bound, an initializer always finds
its receiver (`receivers_sealed`).
-/

namespace LoxLang

/-- A value that a task returns, or one of those that it returns. -/
inductive Task.Yields (n : Nat) : Task → Machine → Value → Prop
  | expr {e : Expr (Option Nat)} {m m' : Machine} {v : Value} :
      Run.evaluate n e m = .ok v m' → Yields n (.run (.expr e)) m v
  | stmt {s : Code} {m m' : Machine} {v : Value} :
      Run.execute n s m = .ok (.returned v) m' → Yields n (.run (.stmt s)) m v
  | stmts {ss : List Code} {m m' : Machine} {v : Value} :
      Run.executeAll n ss m = .ok (.returned v) m' → Yields n (.run (.stmts ss)) m v
  | arguments {es : List (Expr (Option Nat))} {m m' : Machine} {vs : List Value} {v : Value} :
      Run.evaluateAll n es m = .ok vs m' → v ∈ vs → Yields n (.arguments es) m v
  | call {f : Value} {paren : Token} {args : List Value} {m m' : Machine} {v : Value} :
      Run.call n f paren args m = .ok v m' → Yields n (.call f paren args) m v
  | apply {callee : Callee} {args : List Value} {m m' : Machine} {v : Value} :
      Run.apply n callee args m = .ok v m' → Yields n (.apply callee args) m v
  | invoke {r : Routine} {args : List Value} {m m' : Machine} {v : Value} :
      Run.invoke n r args m = .ok v m' → Yields n (.invoke r args) m v

/-- The values that a task is given. -/
def Task.given : Task → List Value
  | .call f _ args => f :: args
  | .apply _ args | .invoke _ args => args
  | .run _ | .arguments _ => []

variable {L : Log}

/-- What a task that stands where it should is given is good. -/
theorem Task.Situated.given {t : Task} {m : Machine} (ht : t.Situated L m) :
    ∀ v ∈ t.given, v.Good L m.store := by
  cases t with
  | run | arguments => nofun
  | call f paren args => exact List.forall_mem_cons.2 ht
  | apply callee args => exact ht.2.1
  | invoke r args => exact ht.2.1

/-- What a task that stands where it should returns is good where the task ends. -/
theorem Task.Yields.good (hL : L.Lawful) {n : Nat} {t : Task} {m : Machine} {v : Value}
    (h : Yields n t m v) (hreach : L.reaches n t m) (hm : m.Good L) (ht : t.Situated L m) :
    v.Good L (t.after n m).store := by
  have hn := Run.leadsOn hL n
  cases h with
  | expr hr =>
    obtain ⟨Γ, hs⟩ := ht
    exact (Run.after_ok hr ▸ ((hn.evaluate hs hreach).of_ok hm hr).2.2 :)
  | stmt hr =>
    obtain ⟨Γ, hs⟩ := ht
    exact (Run.after_ok hr ▸ ((hn.execute hs hreach).of_ok hm hr).2.2.1 :)
  | stmts hr =>
    obtain ⟨Γ, hs⟩ := ht
    exact (Run.after_ok hr ▸ ((hn.executeAll hs hreach).of_ok hm hr).2.2.1 :)
  | arguments hr hv =>
    obtain ⟨Γ, hs⟩ := ht
    exact (Run.after_ok hr ▸ ((hn.evaluateAll hs hreach).of_ok hm hr).2.2 _ hv :)
  | call hr => exact (Run.after_ok hr ▸ ((hn.call ht.1 ht.2 hreach).of_ok hm hr).2.2 :)
  | apply hr => exact (Run.after_ok hr ▸ ((hn.apply ht.1 ht.2.1 ht.2.2 hreach).of_ok hm hr).2.2 :)
  | invoke hr =>
    exact (Run.after_ok hr ▸ ((hn.invoke ht.1.1 ht.2.1 ht.2.2 hreach).of_ok hm hr).2.2 :)

section

variable {clock : Nat → Float} {room : Option Nat} {fuel : Nat} {sources : List (Style × String)}
  {m m' : Machine}

/-- The frame holds what it was made with as long as the session lasts: wherever the session has the
frame, and at its end. -/
structure Session.Seals (clock : Nat → Float) (room : Option Nat) (fuel : Nat)
    (sources : List (Style × String)) (i : Nat) (f : Frame Value) : Prop where
  visited : ∀ m, Session.Visits clock room fuel sources m →
    m.store.frames.size ≤ i ∨ m.store.frames[i]? = some f
  last : ((Session.start clock room).steps fuel sources).2.machine.store.frames[i]? = some f

/-- A value that a session meets: one in a frame or a field of a machine that it visits, one that it
hands to a task, or one that a task returns. -/
inductive Session.Meets (clock : Nat → Float) (room : Option Nat) (fuel : Nat)
    (sources : List (Style × String)) : Value → Prop
  | entry {m : Machine} {i : Nat} {x : String} {v : Value} :
      Session.Visits clock room fuel sources m → m.store.get? i x = some v →
      Meets clock room fuel sources v
  | field {m : Machine} {a : Nat} {t : Table Value} {x : String} {v : Value} :
      Session.Visits clock room fuel sources m → m.objects[a]? = some t → t.find? x = some v →
      Meets clock room fuel sources v
  | argument {n : Nat} {t : Task} {m : Machine} {v : Value} :
      Session.Reached clock room fuel sources n t m → v ∈ t.given →
      Meets clock room fuel sources v
  | result {n : Nat} {t : Task} {m : Machine} {v : Value} :
      Session.Reached clock room fuel sources n t m → t.Yields n m v →
      Meets clock room fuel sources v

namespace Session

/-- A sealed frame of a machine that the session visits stays as it is. -/
theorem Visits.seals (h : Visits clock room fuel sources m) {i : Nat} {f : Frame Value}
    (hf : m.store.frames[i]? = some f) (hsealed : f.Sealed) :
    Seals clock room fuel sources i f where
  visited m' h' := (Nat.lt_or_ge i m'.store.frames.size).symm.imp_right fun hi =>
    h.agree h' hf hsealed hi
  last := h.grows.sealed i f hf hsealed

/-- The value that a method is bound to is found in its frame. -/
theorem seals_of_binds {r : Routine} {o : Object}
    (h : (log clock room fuel sources).Binds m r o) :
    Seals clock room fuel sources m.nextFrame (.receiver o r.frame) := by
  have hframe : ∀ m : Machine,
      (m.grow (.single thisName (.object o)) r.frame).store.frames[m.nextFrame]? =
        some (.receiver o r.frame) :=
    fun m => m.store.getElem?_frames_create_size ..
  have hvalue : ((Run.methodValue r o).after m).store.frames[m.nextFrame]? =
      some (.receiver o r.frame) := hframe m
  cases h with
  | @property n e name m₀ _ v _ _ hreach hv heq =>
    have hafter : (Task.run (.expr (.get e name))).after (n + 1) m₀ =
        (Run.methodValue r o).after m := by
      refine (Run.after_bind_ok hv).trans ?_
      unfold Run.after
      rw [heq]
    exact (Visits.ends hreach).seals (hafter ▸ hvalue) (.receiver o r.frame)
  | @super n site method _ _ _ hreach heq =>
    have hafter : (Task.run (.expr (.super site method))).after (n + 1) m =
        (Run.methodValue r o).after m := by
      change (Run.superMethod site method).after m = _
      unfold Run.after
      rw [heq]
    exact (Visits.ends hreach).seals (hafter ▸ hvalue) (.receiver o r.frame)
  | initializer hreach hnew hmethod =>
    have hinvoke := Reached.begins hreach (.initializer hnew hmethod rfl)
    exact (Visits.begins hinvoke).seals (hframe m) (.receiver o r.frame)

/-- The superclass of a class is found in the frame of its methods. -/
theorem seals_of_derived {n : Nat} {name : Token} {site : Site (Option Nat)}
    {methods : List (Method (Option Nat))} {c : Class}
    (h : Reached clock room fuel sources (n + 1)
      (.run (.stmt (.classDecl name (some site) methods))) m)
    (hc : Run.lookUp site m = .ok (.cls c) m) :
    Seals clock room fuel sources m.nextFrame (.superclass c m.frame) := by
  have hlt : m.frame < m.nextFrame := by
    obtain ⟨-, Γ, hs⟩ := h.situated
    exact Store.Fits.lt hs.fits
  have hafter : ((Task.run (.stmt (.classDecl name (some site) methods))).after (n + 1) m).store =
      ((m.store.create (.single superName (.cls c)) (some m.frame)).2.define m.frame name.lexeme
        (.cls ⟨m.identities, name.lexeme, some c, Run.methodTable methods m.nextFrame⟩)) := by
    change ((Run.declareClass name (some site) methods >>= fun _ => pure Flow.proceed).after
      m).store = _
    rw [Run.after_bind_ok (Run.declareClass_some hc)]
    rfl
  refine (Visits.ends h).seals ?_ (.superclass c m.frame)
  rw [hafter, Store.getElem?_frames_define, if_neg (Nat.ne_of_lt hlt)]
  exact m.store.getElem?_frames_create_size ..

/-- What a session meets is good. -/
theorem Meets.good {v : Value} (h : Meets clock room fuel sources v) :
    ∃ s, v.Good (log clock room fuel sources) s := by
  cases h with
  | entry hm hv => exact ⟨_, hm.good.frames _ _ _ hv⟩
  | field hm ht hv => exact ⟨_, hm.good.fields _ _ _ _ ht hv⟩
  | argument hreach hv => exact ⟨_, hreach.situated.2.given _ hv⟩
  | result hreach hv =>
    exact ⟨_, hv.good log_lawful hreach hreach.situated.1 hreach.situated.2⟩

/-- Function values are created as functions or bound as methods. -/
theorem Meets.made {identity : Nat} {r : Routine}
    (h : Meets clock room fuel sources (.function identity r)) :
    (log clock room fuel sources).Made identity r := by
  obtain ⟨s, -, hmade⟩ := h.good
  exact hmade

/-- An initializer that is run returns the receiver it was bound to, which is in its frame. -/
theorem Reached.receiver {n : Nat} {r : Routine} {args : List Value} {v : Value}
    (h : Reached clock room fuel sources (n + 1) (.invoke r args) m) (hinit : r.isInit = true)
    (hr : Run.invoke (n + 1) r args m = .ok v m') :
    ∃ o, m'.store.get? r.frame thisName = some (.object o) ∧ v = .object o := by
  obtain ⟨-, ⟨hgood, identity, hmade⟩, -, -⟩ := h.situated
  have hafter : (Task.invoke r args).after (n + 1) m = m' := Run.after_ok hr
  have hlt : r.frame < m'.store.frames.size :=
    Nat.lt_of_lt_of_le hgood.frame_lt (hafter ▸ h.after.1.size)
  cases hmade with
  | created hcreates => cases hcreates <;> cases hinit
  | @bound m₀ r₀ o hbinds =>
    have hframe := ((seals_of_binds hbinds).visited m' (hafter ▸ .ends h)).resolve_left
      (Nat.not_le_of_lt hlt)
    have hthis := Store.get?_receiver hframe
    refine ⟨o, hthis, ?_⟩
    rw [Run.invoke_of_isInit hinit hr, hthis]
    rfl

end Session

/-- **Receivers and superclasses are sealed, and methods are never met unbound.** Take any session.
Where it binds a method, the frame that this makes holds the receiver under `this` and nothing else,
as long as the session lasts. Where it declares a derived class, the frame that this makes holds the
class that the superclass clause reads under `super` and nothing else, as long as the session lasts.
A function value that the session meets, in whatever place, has been created where the code has a
function, or it is a bound method, whose frame is that of its receiver. So an initializer never
lacks its receiver: when it is run, its frame has an instance under `this`, and that is what it
returns. -/
theorem receivers_sealed (clock : Nat → Float) (room : Option Nat) (fuel : Nat)
    (sources : List (Style × String)) :
    (∀ m method o, (Session.log clock room fuel sources).Binds m method o →
      Session.Seals clock room fuel sources m.nextFrame (.receiver o method.frame)) ∧
    (∀ n name site methods c m, Session.Reached clock room fuel sources (n + 1)
        (.run (.stmt (.classDecl name (some site) methods))) m →
      Run.lookUp site m = .ok (.cls c) m →
      Session.Seals clock room fuel sources m.nextFrame (.superclass c m.frame)) ∧
    (∀ identity r, Session.Meets clock room fuel sources (.function identity r) →
      (Session.log clock room fuel sources).Creates identity r ∨
      ∃ m method o, (Session.log clock room fuel sources).Binds m method o ∧
        r = { method with frame := m.nextFrame } ∧
        Session.Seals clock room fuel sources r.frame (.receiver o method.frame)) ∧
    (∀ n r args m v m', Session.Reached clock room fuel sources (n + 1) (.invoke r args) m →
      r.isInit = true → Run.invoke (n + 1) r args m = .ok v m' →
      ∃ o, m'.store.get? r.frame thisName = some (.object o) ∧ v = .object o) := by
  refine ⟨fun _ _ _ h => Session.seals_of_binds h,
    fun _ _ _ _ _ _ h hc => Session.seals_of_derived h hc, fun identity r h => ?_,
    fun _ _ _ _ _ _ h hinit hr => h.receiver hinit hr⟩
  cases h.made with
  | created hcreates => exact .inl hcreates
  | @bound m method o hbinds =>
    exact .inr ⟨m, method, o, hbinds, rfl, Session.seals_of_binds hbinds⟩

end

end LoxLang
