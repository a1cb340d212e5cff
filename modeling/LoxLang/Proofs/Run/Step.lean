import LoxLang.Eval

/-!
# The steps of a run, as equations

What each step of the machine returns and which machine it leaves. A name is looked up at a site in
one place, `Machine.value?`, and assigned in one place, `Machine.target?`: the frame at the distance
of the site, or the global frame. A class is declared in four steps (`Run.declareClass_eq`).
-/

namespace LoxLang

/-- The value a site reads. -/
def Machine.value? (m : Machine) (site : Site (Option Nat)) : Option Value :=
  match site.mark with
  | some d => m.store.readAt? d m.frame site.name.lexeme
  | none => m.store.read? Machine.globalFrame site.name.lexeme

/-- The frame in which an assignment at a site gives the name its new value. -/
def Machine.target? (m : Machine) (site : Site (Option Nat)) : Option Nat :=
  match site.mark with
  | some d => m.store.ancestor? d m.frame
  | none => m.store.owner? Machine.globalFrame site.name.lexeme

/-- The machine with a name given a value in a frame. -/
def Machine.put (m : Machine) (frame : Nat) (name : String) (value : Value) : Machine :=
  { m with store := m.store.define frame name value }

/-- The machine with one more frame, inside the given one. -/
def Machine.grow (m : Machine) (names : Table Value) (parent : Nat) : Machine :=
  { m with store := (m.store.create names (some parent)).2 }

/-- The number of the next frame. -/
def Machine.nextFrame (m : Machine) : Nat := m.store.frames.size

namespace Run

variable {α β : Type}

/-- A sequence goes on with the result of its first part. -/
theorem bind_ok {r : Run α} {k : α → Run β} {m m' : Machine} {a : α} (h : r m = .ok a m') :
    (r >>= k) m = k a m' := by
  change EStateM.bind r k m = _
  rw [EStateM.bind, h]

/-- A sequence fails where its first part fails. -/
theorem bind_error {r : Run α} {k : α → Run β} {m m' : Machine} {e : Fault}
    (h : r m = .error e m') : (r >>= k) m = .error e m' := by
  change EStateM.bind r k m = _
  rw [EStateM.bind, h]

/-- A sequence that ends with a result has taken it from its second part. -/
theorem of_bind_ok {r : Run α} {k : α → Run β} {m m' : Machine} {b : β}
    (h : (r >>= k) m = .ok b m') : ∃ a m₁, r m = .ok a m₁ ∧ k a m₁ = .ok b m' := by
  rcases hr : r m with ⟨a, m₁⟩ | ⟨e, m₁⟩
  · exact ⟨a, m₁, rfl, (bind_ok hr).symm.trans h⟩
  · cases (bind_error hr).symm.trans h

/-- A sequence goes on from what its first part has come to. -/
theorem bind_congr {r r' : Run α} {m m' : Machine} (h : r m = r' m') (k : α → Run β) :
    (r >>= k) m = (r' >>= k) m' := by
  change EStateM.bind r k m = EStateM.bind r' k m'
  rw [EStateM.bind, EStateM.bind, h]

/-- What is run in another frame comes back to the current one. -/
theorem inFrame_ok {frame : Nat} {r : Run α} {m m' : Machine} {a : α}
    (h : r { m with frame := frame } = .ok a m') :
    inFrame frame r m = .ok a { m' with frame := m.frame } := by
  unfold inFrame
  dsimp only
  rw [h]

theorem inFrame_error {frame : Nat} {r : Run α} {m m' : Machine} {e : Fault}
    (h : r { m with frame := frame } = .error e m') :
    inFrame frame r m = .error e { m' with frame := m.frame } := by
  unfold inFrame
  dsimp only
  rw [h]

/-- What is run in a call is left with one call in progress less. -/
theorem inCall_ok {r : Run α} {m m' : Machine} {a : α}
    (h : r { m with depth := m.depth + 1 } = .ok a m') :
    inCall r m = .ok a { m' with depth := m'.depth - 1 } := by
  unfold inCall
  rw [h]

theorem inCall_error {r : Run α} {m m' : Machine} {e : Fault}
    (h : r { m with depth := m.depth + 1 } = .error e m') :
    inCall r m = .error e { m' with depth := m'.depth - 1 } := by
  unfold inCall
  rw [h]

theorem lookUp_eq (site : Site (Option Nat)) (m : Machine) :
    lookUp site m = match m.value? site with
      | some v => .ok v m
      | none => .error (.runtime site.name.line (.undefinedVariable site.name.lexeme)) m := by
  refine (bind_ok (r := get) (m := m) rfl).trans ?_
  change (match m.value? site with
    | some v => pure v
    | none => fail site.name (.undefinedVariable site.name.lexeme) : Run Value) m = _
  cases m.value? site with
  | some v => rfl
  | none => rfl

theorem assign_eq (site : Site (Option Nat)) (value : Value) (m : Machine) :
    assign site value m = match m.target? site with
      | some frame => .ok () (m.put frame site.name.lexeme value)
      | none => .error (.runtime site.name.line (.undefinedVariable site.name.lexeme)) m := by
  unfold assign Machine.target? Store.writeAt? Store.assign?
  dsimp only
  cases site.mark with
  | some d =>
    dsimp only
    cases m.store.ancestor? d m.frame <;> rfl
  | none =>
    dsimp only
    cases m.store.owner? Machine.globalFrame site.name.lexeme <;> rfl

theorem define_eq (name : String) (value : Value) (m : Machine) :
    define name value m = .ok () (m.put m.frame name value) :=
  rfl

theorem createFrame_eq (names : Table Value) (parent : Nat) (m : Machine) :
    createFrame names parent m = .ok m.nextFrame (m.grow names parent) :=
  rfl

theorem newFunction_eq (name : Option String) (params : List Token) (body : List Code)
    (m : Machine) : newFunction name params body m =
      .ok (.function m.identities ⟨name, params.map Token.lexeme, body, m.frame, false⟩)
        { m with identities := m.identities + 1 } :=
  rfl

theorem printLine_eq (text : String) (m : Machine) :
    printLine text m =
      if m.fits (text ++ "\n").toUTF8 then .ok () (m.write (text ++ "\n").toUTF8)
      else .error .outputFull (m.write (text ++ "\n").toUTF8) :=
  rfl

/-- A property that is not among the fields is a method, bound to the instance. -/
theorem getProperty_of_method {o : Object} {name : Token} {r : Routine} {m : Machine}
    (hfield : m.objects[o.address]?.bind (·.find? name.lexeme) = none)
    (hr : o.cls.method? name.lexeme = some r) :
    getProperty (.object o) name m = methodValue r o m := by
  refine (bind_ok (r := get) (m := m) rfl).trans ?_
  rw [hfield]
  dsimp only
  rw [hr]

/-- The class a superclass clause names. -/
def superclassOf : Option (Site (Option Nat)) → Run (Option Class)
  | none => pure none
  | some site => do
    match ← lookUp site with
    | .cls c => return some c
    | _ => fail site.name .superclassNotClass

/-- A superclass clause has found its class by looking it up. -/
theorem superclassOf_ok {site : Site (Option Nat)} {m m' : Machine} {above : Option Class}
    (h : superclassOf (some site) m = .ok above m') :
    ∃ c, above = some c ∧ m' = m ∧ lookUp site m = .ok (.cls c) m := by
  obtain ⟨v, m₁, hv, hr⟩ := of_bind_ok h
  have hm₁ : m₁ = m := by
    rw [lookUp_eq] at hv
    split at hv <;> cases hv
    rfl
  subst hm₁
  cases v with
  | cls c =>
    cases hr
    exact ⟨c, rfl, rfl, hv⟩
  | _ => cases hr

/-- The frame the methods of a class close over. -/
def methodFrame : Option Class → Run Nat
  | none => return (← get).frame
  | some c => do createFrame (.single superName (.cls c)) (← get).frame

theorem declareClass_eq (name : Token) (superclass : Option (Site (Option Nat)))
    (methods : List (Method (Option Nat))) :
    declareClass name superclass methods = (do
      let above ← superclassOf superclass
      let frame ← methodFrame above
      let identity ← newIdentity
      define name.lexeme (.cls ⟨identity, name.lexeme, above, methodTable methods frame⟩)) := by
  funext m
  cases superclass with
  | none => rfl
  | some site =>
    change EStateM.bind (lookUp site) _ m = EStateM.bind (EStateM.bind (lookUp site) _) _ m
    unfold EStateM.bind
    cases lookUp site m with
    | error => rfl
    | ok v => cases v <;> rfl

/-- The methods of a derived class close over a new frame, which the declaration itself leaves
alone. -/
theorem declareClass_some {name : Token} {site : Site (Option Nat)}
    {methods : List (Method (Option Nat))} {m : Machine} {c : Class}
    (h : lookUp site m = .ok (.cls c) m) :
    declareClass name (some site) methods m = .ok () (Machine.put
      { m.grow (.single superName (.cls c)) m.frame with identities := m.identities + 1 } m.frame
      name.lexeme (.cls ⟨m.identities, name.lexeme, some c, methodTable methods m.nextFrame⟩)) := by
  have habove : superclassOf (some site) m = .ok (some c) m := bind_ok h
  rw [declareClass_eq, bind_ok habove]
  rfl

/-- An initializer returns what its frame has under `this`. -/
theorem invoke_of_isInit {n : Nat} {r : Routine} {args : List Value} {m m' : Machine} {v : Value}
    (hinit : r.isInit = true) (h : invoke (n + 1) r args m = .ok v m') :
    v = (m'.store.get? r.frame thisName).getD .nil := by
  obtain ⟨frame, m₁, -, h⟩ := of_bind_ok h
  obtain ⟨flow, m₂, -, h⟩ := of_bind_ok h
  rw [if_pos hinit] at h
  cases h
  rfl

end Run

end LoxLang
