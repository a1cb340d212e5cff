import LoxLang.Proofs.Safety.Reached

/-!
# What accepted code never meets

Whatever a session reaches, the distances of its code lead to frames that exist, assignments find
their frame, `this` reads an instance and `super` finds a class and a receiver. A variable is
missing only in a function inside its own initializer. No operator is one that does not exist, and
no `return` leaves the statements of a source (`accepted_code_safe`). Each of these follows from
where the node stands, by `Session.Reached.situated`.
-/

namespace LoxLang

variable {σ : Type}

/-- The site of a node that reads a variable. -/
def Node.read? : Node σ → Option (Site σ)
  | .expr (.ref s) => some s
  | .stmt (.classDecl _ superclass _) => superclass
  | _ => none

/-- The site of a node at which a name is looked up or assigned. -/
def Node.site? : Node σ → Option (Site σ)
  | .expr (.assign s _) | .expr (.this s) | .expr (.super s _) => some s
  | node => node.read?

/-- In the line, the node stands with its context in a function in the initializer of the variable
with this name, and the scope of the variable is `d` scopes out from the node. -/
def Line.Awaits (line : Line σ) (name : String) (d : Nat) (Γ : Context) (node : Node σ) : Prop :=
  ∃ Γ₀ v e params body, line.Within Γ₀ (.stmt (.var v (some e))) ∧ v.lexeme = name ∧
    Node.Inside (Γ₀.begin name) (.expr e) (Γ₀.begin name) (.expr (.lambda params body)) ∧
    Node.Inside (Γ₀.begin name) (.expr (.lambda params body)) Γ node ∧
    Γ.drop d = Γ₀.begin name

theorem Context.distance?_declare_of_ne {Γ : Context} {name x : String} (h : x ≠ name) :
    (Γ.declare name).distance? x = Γ.distance? x := by
  cases Γ with
  | nil => rfl
  | cons sc Γ =>
    unfold Context.distance? Context.declare
    rw [List.findIdx?_cons, List.findIdx?_cons, Scope.names_declare]
    simp only [List.mem_cons, h, false_or]

variable {line : Line (Option Nat)} {Γ : Context} {node : Node (Option Nat)}
  {site : Site (Option Nat)}

/-- A superclass is read as a variable outside of the class. -/
theorem Line.Within.mark_superclass (h : line.Accepted) {name : Token}
    {methods : List (Method (Option Nat))}
    (hw : line.Within Γ (.stmt (.classDecl name (some site) methods))) :
    site.mark = Γ.distance? site.name.lexeme := by
  have href : line.Within (Γ.declare name.lexeme) (.expr (.ref site)) :=
    hw.child List.mem_cons_self
  have hne : site.name.lexeme ≠ name.lexeme := hw.resolved h
  exact (href.resolved h).1.trans (Context.distance?_declare_of_ne hne)

/-- Every site of an accepted line bears the distance of its name. -/
theorem Line.Within.mark_eq (h : line.Accepted) (hw : line.Within Γ node)
    (hsite : node.site? = some site) : site.mark = Γ.distance? site.name.lexeme := by
  have hresolved := hw.resolved h
  cases node with
  | expr e =>
    cases e <;> cases hsite
    · exact hresolved.1
    · exact hresolved
    · exact hresolved.1
    · exact hresolved.1
  | stmt s =>
    cases s with
    | classDecl name superclass methods =>
      cases hsite
      exact hw.mark_superclass h
    | _ => cases hsite
  | stmts ss => cases hsite

/-- A variable that is not there is read in a function inside its initializer. -/
theorem Machine.At.awaits {m : Machine} (h : line.Accepted) (hat : m.At Γ)
    (hw : line.Within Γ node) (hread : node.read? = some site) {d : Nat} (hd : site.mark = some d)
    (hnone : m.value? site = none) : line.Awaits site.name.lexeme d Γ node := by
  have hsite : node.site? = some site := by
    cases node with
    | expr e => cases e <;> first | exact hread | cases hread
    | _ => exact hread
  obtain ⟨inner, sc, outer, rfl, rfl, hpending⟩ :=
    hat.waiting (hw.mark_eq h hsite) hd hnone
  obtain ⟨Γ₀, v, e, hvar, hname, hbegin, hinside⟩ :=
    hw.initializer h.spelled (List.suffix_append inner _) hpending
  rw [← hbegin] at hinside ⊢
  rcases hinside.of_expr with ⟨hΓ, e', rfl⟩ | ⟨params, body, hlambda, hbody⟩
  · -- the initializer itself may not read the variable
    cases e' <;> cases hread
    have hready := (hw.resolved h).2
    rw [← hbegin, hΓ, hbegin] at hready
    exact absurd hpending (hready sc rfl)
  · refine ⟨Γ₀, v, e, params, body, hvar, hname, hlambda, hbody, ?_⟩
    exact List.drop_left

/-! ## Nodes that are reached -/

section Session

variable {clock : Nat → Float} {room : Option Nat} {fuel : Nat} {sources : List (Style × String)}
  {n d : Nat} {m m' : Machine}

namespace Session.Reached

/-- A recorded distance leads to a frame. -/
theorem frame (h : Session.Reached clock room fuel sources n (.run node) m)
    (hsite : node.site? = some site) (hd : site.mark = some d) :
    ∃ frame, m.store.ancestor? d m.frame = some frame ∧ frame < m.store.frames.size := by
  obtain ⟨-, Γ, hs⟩ := h.situated
  obtain ⟨line, hline, hw⟩ := hs.within
  exact hs.fits.ancestor? ((hw.mark_eq (Session.Runs.accepted hline) hsite).symm.trans hd)

/-- An assignment finds its frame when its value has been computed. -/
theorem assign {e : Expr (Option Nat)} {v : Value}
    (h : Session.Reached clock room fuel sources (n + 1) (.run (.expr (.assign site e))) m)
    (hd : site.mark = some d) (hr : Run.evaluate n e m = .ok v m') :
    ∃ frame, m'.store.ancestor? d m'.frame = some frame ∧ frame < m'.store.frames.size ∧
      Run.assign site v m' = .ok () (m'.put frame site.name.lexeme v) := by
  obtain ⟨hgood, hvalue⟩ := (h.begins .assign).situated
  obtain ⟨hg, -, -⟩ := hvalue.evaluate Session.log_lawful hgood (h.begins .assign) hr
  obtain ⟨-, Γ, hs⟩ := h.situated
  obtain ⟨line, hline, hw⟩ := hs.within
  have hmark := hw.mark_eq (Session.Runs.accepted hline) rfl
  obtain ⟨frame, ha, hlt⟩ := (hs.fits.mono hg).ancestor? (hmark.symm.trans hd)
  refine ⟨frame, ha, hlt, ?_⟩
  have htarget : m'.target? site = some frame := by
    unfold Machine.target?
    rw [hd]
    exact ha
  rw [Run.assign_eq, htarget]

/-- `this` reads an instance. -/
theorem this (h : Session.Reached clock room fuel sources n (.run (.expr (.this site))) m) :
    ∃ o, Run.lookUp site m = .ok (.object o) m := by
  obtain ⟨-, Γ, hs⟩ := h.situated
  have hresolved := hs.resolved Session.log_lawful
  obtain ⟨o, ho⟩ := hs.fits.this (hs.proper Session.log_lawful) (hs.spelled Session.log_lawful)
    hresolved.1 hresolved.2
  refine ⟨o, ?_⟩
  rw [Run.lookUp_eq, ho]

/-- A variable that is missing is read in a function inside its own initializer. -/
theorem awaits {fault : Fault} (h : Session.Reached clock room fuel sources n (.run node) m)
    (hread : node.read? = some site) (hd : site.mark = some d)
    (hr : Run.lookUp site m = .error fault m') :
    ∃ code m₀ Γ, Session.Runs clock room fuel sources code m₀ ∧ m.At Γ ∧
      code.Awaits site.name.lexeme d Γ node := by
  obtain ⟨-, Γ, hs⟩ := h.situated
  obtain ⟨line, ⟨m₀, hruns⟩, hw⟩ := hs.within
  have hnone : m.value? site = none := by
    rw [Run.lookUp_eq] at hr
    split at hr
    · cases hr
    · assumption
  have haccepted := Session.Runs.accepted ⟨m₀, hruns⟩
  exact ⟨line, m₀, Γ, hruns, hs.fits, hs.fits.awaits haccepted hw hread hd hnone⟩

/-- `super` fails for want of the method only. -/
theorem super {method : Token}
    (h : Session.Reached clock room fuel sources n (.run (.expr (.super site method))) m) :
    (∃ v m', Run.superMethod site method m = .ok v m') ∨ Run.superMethod site method m =
      .error (.runtime method.line (.undefinedProperty method.lexeme)) m := by
  obtain ⟨-, Γ, hs⟩ := h.situated
  obtain ⟨hmark, d, i, j, p, o, c, hd⟩ := hs.super Session.log_lawful
  rw [hd.superMethod_eq hmark]
  cases c.method? method.lexeme with
  | some found => exact .inl ⟨_, _, rfl⟩
  | none => exact .inr rfl

/-- Unary operators exist. -/
theorem unary {op : Token} {e : Expr (Option Nat)}
    (h : Session.Reached clock room fuel sources n (.run (.expr (.unary op e))) m) (v : Value) :
    v.unary op.kind ≠ .error .notUnary := by
  obtain ⟨-, Γ, hs⟩ := h.situated
  intro hv
  exact (Value.ordinary_of_unary (hs.spelled Session.log_lawful) hv).1 rfl

/-- Binary operators exist. -/
theorem binary {op : Token} {a b : Expr (Option Nat)}
    (h : Session.Reached clock room fuel sources n (.run (.expr (.binary op a b))) m)
    (x y : Value) : Value.binary op.kind x y ≠ .error .notBinary := by
  obtain ⟨-, Γ, hs⟩ := h.situated
  intro hv
  exact (Value.ordinary_of_binary (hs.spelled Session.log_lawful) hv).2.1 rfl

end Session.Reached

/-- No `return` leaves the statements of a source. -/
theorem Session.Runs.proceeds {code : Line (Option Nat)}
    (h : Session.Runs clock room fuel sources code m) (v : Value) (m' : Machine) :
    Run.executeAll fuel code.statements m ≠ .ok (.returned v) m' := by
  intro hr
  obtain ⟨hgood, hat⟩ := h.situated
  obtain ⟨-, -, hflow, -⟩ := (Run.Leads.statements Session.log_lawful ⟨m, h⟩ hat
    (.statements h)).of_ok hgood hr
  cases hflow

end Session

/-- **Accepted code is safe.** Take any session and any state it reaches in its accepted sources. A
recorded distance leads to a frame. An assignment with a distance finds its frame, and `this` reads
an instance. A variable with a distance is missing only inside a function in its own initializer,
and there the machine is at the context of the node. Of the ways in which `super` may fail, only the
missing method remains. Operators exist, no `return` leaves the statements of a source, and no
outcome tells of such a fault. -/
theorem accepted_code_safe (clock : Nat → Float) (room : Option Nat) (fuel : Nat)
    (sources : List (Style × String)) :
    (∀ n node m site d, Session.Reached clock room fuel sources n (.run node) m →
      node.site? = some site → site.mark = some d →
      ∃ frame, m.store.ancestor? d m.frame = some frame ∧ frame < m.store.frames.size) ∧
    (∀ n site e m v m' d,
      Session.Reached clock room fuel sources (n + 1) (.run (.expr (.assign site e))) m →
      site.mark = some d → Run.evaluate n e m = .ok v m' →
      ∃ frame, m'.store.ancestor? d m'.frame = some frame ∧ frame < m'.store.frames.size ∧
        Run.assign site v m' = .ok () (m'.put frame site.name.lexeme v)) ∧
    (∀ n site m, Session.Reached clock room fuel sources n (.run (.expr (.this site))) m →
      ∃ o, Run.lookUp site m = .ok (.object o) m) ∧
    (∀ n node m site d fault m', Session.Reached clock room fuel sources n (.run node) m →
      node.read? = some site → site.mark = some d → Run.lookUp site m = .error fault m' →
      ∃ code m₀ Γ, Session.Runs clock room fuel sources code m₀ ∧ m.At Γ ∧
        code.Awaits site.name.lexeme d Γ node) ∧
    (∀ n site method m,
      Session.Reached clock room fuel sources n (.run (.expr (.super site method))) m →
      (∃ v m', Run.superMethod site method m = .ok v m') ∨
        Run.superMethod site method m =
          .error (.runtime method.line (.undefinedProperty method.lexeme)) m) ∧
    (∀ n op e m v, Session.Reached clock room fuel sources n (.run (.expr (.unary op e))) m →
      Value.unary op.kind v ≠ .error .notUnary) ∧
    (∀ n op a b m x y,
      Session.Reached clock room fuel sources n (.run (.expr (.binary op a b))) m →
      Value.binary op.kind x y ≠ .error .notBinary) ∧
    (∀ code m v m', Session.Runs clock room fuel sources code m →
      Run.executeAll fuel code.statements m ≠ .ok (.returned v) m') ∧
    (∀ o ∈ ((Session.start clock room).steps fuel sources).1, ∀ line cause,
      o.ending = .failed (.runtime line cause) →
        cause ∉ [.notUnary, .notBinary, .superOutsideClass, .thisOutsideClass]) := by
  refine ⟨fun _ _ _ _ _ h => h.frame, fun _ _ _ _ _ _ _ h => h.assign, fun _ _ _ h => h.this,
    fun _ _ _ _ _ _ _ h => h.awaits, fun _ _ _ _ h => h.super, fun _ _ _ _ v h => h.unary v,
    fun _ _ _ _ _ x y h => h.binary x y, fun _ _ v m' h => h.proceeds v m', ?_⟩
  intro o ho line cause hfault hcause
  obtain ⟨h₁, h₂, h₃, h₄⟩ := Session.ordinary_of_failed ho hfault
  simp only [List.mem_cons, List.not_mem_nil, or_false] at hcause
  rcases hcause with rfl | rfl | rfl | rfl <;> contradiction

end LoxLang
