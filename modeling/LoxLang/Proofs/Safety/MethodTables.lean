import LoxLang.Proofs.Safety.Fields
import Mathlib.Data.List.Nodup

/-!
# Classes that are declared once, and what is found in them

Every class of a session has been declared in it, and no two declarations make classes of one
identity (`Session.HasClass.eq_of_identity`): they follow one another, and each takes a new number.
So a class means the same wherever the session has it, and it is not among its own superclasses. A
method is found in the body of the nearest class that declares one of its name, where the last of
that name counts (`Log.Finds`), and a property of an instance is what its field of that name was
last given, or else that method.
-/

namespace LoxLang

/-- The name of a method. -/
def Method.name {σ : Type} : Method σ → Token
  | .mk name _ _ => name

/-- The method that a declaration in the body of a class gives to the class. -/
def Method.routine (frame : Nat) : Method (Option Nat) → Routine
  | .mk name params body =>
    ⟨some name.lexeme, params.map Token.lexeme, body, frame, name.lexeme = initName⟩

/-- The class that a task declares. -/
def Task.declares (_ : Nat) (m : Machine) : Task → List Class
  | .run (.stmt (.classDecl name none methods)) =>
    [⟨m.identities, name.lexeme, none, Run.methodTable methods m.frame⟩]
  | .run (.stmt (.classDecl name (some site) methods)) =>
    match m.value? site with
    | some (.cls above) =>
      [⟨m.identities, name.lexeme, some above, Run.methodTable methods m.nextFrame⟩]
    | _ => []
  | _ => []

/-! ## Declarations follow one another -/

/-- The classes have identities from the first number up to the second, in ascending order. -/
structure Class.Ascending (low high : Nat) (cs : List Class) : Prop where
  sorted : cs.Pairwise fun c c' => c.identity < c'.identity
  bounds : ∀ c ∈ cs, low ≤ c.identity ∧ c.identity < high

namespace Class.Ascending

variable {low high low' high' : Nat} {cs cs' : List Class}

theorem nil : Ascending low high [] := ⟨.nil, nofun⟩

theorem mono (h : Ascending low high cs) (hlow : low' ≤ low) (hhigh : high ≤ high') :
    Ascending low' high' cs where
  sorted := h.sorted
  bounds c hc := ⟨Nat.le_trans hlow (h.bounds c hc).1, Nat.lt_of_lt_of_le (h.bounds c hc).2 hhigh⟩

theorem append (h : Ascending low high cs) (h' : Ascending high high' cs') (hlow : low ≤ high)
    (hhigh : high ≤ high') : Ascending low high' (cs ++ cs') where
  sorted := List.pairwise_append.2 ⟨h.sorted, h'.sorted, fun c hc c' hc' =>
    Nat.lt_of_lt_of_le (h.bounds c hc).2 (h'.bounds c' hc').1⟩
  bounds := List.forall_mem_append.2 ⟨(h.mono (Nat.le_refl _) hhigh).bounds,
    (h'.mono hlow (Nat.le_refl _)).bounds⟩

/-- In an ascending list, an identity tells which class it is. -/
theorem eq_of_identity (h : Ascending low high cs) {c c' : Class} (hc : c ∈ cs) (hc' : c' ∈ cs)
    (hidentity : c.identity = c'.identity) : c = c' := by
  have hnodup : (cs.map identity).Nodup :=
    List.pairwise_map.2 (h.sorted.imp fun hlt => Nat.ne_of_lt hlt)
  exact List.inj_on_of_nodup_map hnodup hc hc' hidentity

end Class.Ascending

/-- Identities do not run backwards. -/
theorem Machine.timely_identities : Machine.Timely fun m m' => m.identities ≤ m'.identities where
  same h := Nat.le_of_eq h.identities.symm
  trans := Nat.le_trans
  create _ _ _ := Nat.le_refl _
  define _ _ _ _ := Nat.le_refl _
  newIdentity _ := Nat.le_succ _
  newObject _ := Nat.le_refl _

theorem Machine.closed_identities : Machine.Closed fun m m' => m.identities ≤ m'.identities :=
  Machine.timely_identities.closed fun _ _ _ => Nat.le_refl _

namespace Task

variable {n : Nat} {t : Task} {m m' : Machine}

/-- If the declarations of each task of a chain ascend, then so do those of the chain. -/
theorem Linked.ascending {ps : List (Task × Machine)}
    (h : Linked (fun m m' => m.identities ≤ m'.identities) n m ps m')
    (hps : ∀ p ∈ ps, Class.Ascending p.2.identities (p.1.after n p.2).identities
      (p.1.events declares n p.2)) :
    Class.Ascending m.identities m'.identities (eventsOf declares n ps) := by
  induction ps generalizing m with
  | nil => exact .nil
  | cons p ps ih =>
    obtain ⟨hp, hps⟩ := List.forall_mem_cons.1 hps
    have hafter := respects Machine.closed_identities n p.2 p.1
    exact (hp.mono h.1 (Nat.le_refl _)).append (ih h.2 hps) (Nat.le_trans h.1 hafter)
      (h.2.through Machine.closed_identities)

/-- What a task declares itself gets the next identity, and the task takes it. -/
theorem declares_ascending (n : Nat) (m : Machine) (t : Task) :
    t.declares n m = [] ∨ t.parts n m = [] ∧
      ∃ c : Class, t.declares n m = [c] ∧ c.identity = m.identities ∧
        (t.after (n + 1) m).identities = m.identities + 1 := by
  unfold declares
  split
  · exact .inr ⟨rfl, _, rfl, rfl, rfl⟩
  · next name site methods =>
    split
    · next above hsite =>
      refine .inr ⟨rfl, _, rfl, rfl, ?_⟩
      have hlook : Run.lookUp site m = .ok (.cls above) m := by rw [Run.lookUp_eq, hsite]
      change ((Run.declareClass name (some site) methods >>= fun _ => pure Flow.proceed).after
        m).identities = _
      rw [Run.after_bind_ok (Run.declareClass_some hlook)]
      rfl
    · exact .inl rfl
  · exact .inl rfl

/-- **The declarations of a task ascend**, from the next identity where it begins to the next one
where it ends. -/
theorem ascending (n : Nat) (m : Machine) (t : Task) :
    Class.Ascending m.identities (t.after n m).identities (t.events declares n m) := by
  induction n generalizing t m with
  | zero => exact .nil
  | succ n ih =>
    have hlinked := linked (n := n) (m := m) (t := t) Machine.timely_identities
      fun _ _ _ _ _ _ _ => Nat.le_refl _
    have hparts := hlinked.ascending fun p _ => ih p.2 p.1
    rw [events_succ]
    rcases declares_ascending n m t with hnone | ⟨hnil, c, hc, hidentity, hafter⟩
    · rw [hnone, List.append_nil]
      exact hparts
    · rw [hnil, hc, hafter]
      refine ⟨List.pairwise_singleton _ c, fun d hd => ?_⟩
      obtain rfl := List.mem_singleton.1 hd
      rw [hidentity]
      exact ⟨Nat.le_refl _, Nat.lt_succ_self _⟩

end Task

/-- The declarations of a session ascend. -/
theorem Session.ascending (s : Session) (fuel : Nat) (sources : List (Style × String)) :
    s.machine.identities ≤ (s.steps fuel sources).2.machine.identities ∧
      Class.Ascending s.machine.identities (s.steps fuel sources).2.machine.identities
        (s.events Task.declares fuel sources) := by
  induction sources generalizing s with
  | nil => exact ⟨Nat.le_refl _, .nil⟩
  | cons source rest ih =>
    obtain ⟨style, source⟩ := source
    rw [Session.steps_cons, Session.events]
    obtain ⟨hle, hrest⟩ := ih (s.step fuel style source).2
    cases hcode : style.code? s.nextSite source with
    | none =>
      rw [(Session.step_of_code?_eq_none fuel hcode).2] at hle hrest
      exact ⟨hle, hrest⟩
    | some code =>
      obtain ⟨next, hstep⟩ := Session.step_of_code?_eq_some fuel hcode
      have hmachine : (s.step fuel style source).2.machine =
          (Run.line fuel code).after s.machine.unprinted := by
        rw [hstep, Session.machine_perform]
      have hlinked : Task.Linked (fun m m' => m.identities ≤ m'.identities) fuel _ _ _ :=
        code.linked Machine.timely_identities.refl fuel s.machine.unprinted
      have hline := hlinked.ascending fun p _ => p.1.ascending fuel p.2
      have hafter := hlinked.through Machine.closed_identities
      rw [← hmachine] at hline hafter
      refine ⟨Nat.le_trans hafter hle, ?_⟩
      simp only [Option.toList_some, List.flatMap_cons, List.flatMap_nil, List.append_nil]
      exact hline.append hrest hafter hle

/-! ## What is found in a class -/

/-- A class is declared with these methods, which close over the frame. -/
inductive Log.Body (L : Log) : Class → List (Method (Option Nat)) → Nat → Prop
  | base {n : Nat} {name : Token} {methods : List (Method (Option Nat))} {m : Machine} :
      L.reaches (n + 1) (.run (.stmt (.classDecl name none methods))) m →
      Body L ⟨m.identities, name.lexeme, none, Run.methodTable methods m.frame⟩ methods m.frame
  | derived {n : Nat} {name : Token} {site : Site (Option Nat)}
      {methods : List (Method (Option Nat))} {m : Machine} {above : Class} :
      L.reaches (n + 1) (.run (.stmt (.classDecl name (some site) methods))) m →
      Run.lookUp site m = .ok (.cls above) m →
      Body L ⟨m.identities, name.lexeme, some above, Run.methodTable methods m.nextFrame⟩ methods
        m.nextFrame

/-- What is found under a name from a class on: the last method of that name in the body of the
nearest class that declares one, or nothing if no class of the chain declares one. -/
inductive Log.Finds (L : Log) (x : String) : Class → Option Routine → Prop
  | own {c : Class} {before after : List (Method (Option Nat))} {method : Method (Option Nat)}
      {frame : Nat} : L.Body c (before ++ method :: after) frame → method.name.lexeme = x →
      (∀ later ∈ after, later.name.lexeme ≠ x) → Finds L x c (some (method.routine frame))
  | inherited {c above : Class} {methods : List (Method (Option Nat))} {frame : Nat}
      {found : Option Routine} : L.Body c methods frame →
      (∀ method ∈ methods, method.name.lexeme ≠ x) → c.superclass = some above →
      Finds L x above found → Finds L x c found
  | nowhere {c : Class} {methods : List (Method (Option Nat))} {frame : Nat} :
      L.Body c methods frame → (∀ method ∈ methods, method.name.lexeme ≠ x) →
      c.superclass = none → Finds L x c none

/-- A class and its superclasses, from the class on. -/
def Class.chain : Class → List Class
  | ⟨identity, name, none, methods⟩ => [⟨identity, name, none, methods⟩]
  | ⟨identity, name, some above, methods⟩ =>
    ⟨identity, name, some above, methods⟩ :: above.chain

namespace Run

/-- Methods of other names do not change what a table has under a name. -/
theorem find?_foldl_insert {x : String} {frame : Nat} {methods : List (Method (Option Nat))}
    (h : ∀ method ∈ methods, method.name.lexeme ≠ x) (table : Table Routine) :
    (methods.foldl (fun t method => t.insert method.name.lexeme (method.routine frame))
      table).find? x = table.find? x := by
  induction methods generalizing table with
  | nil => rfl
  | cons method methods ih =>
    obtain ⟨hfirst, hrest⟩ := List.forall_mem_cons.1 h
    rw [List.foldl_cons, ih hrest, Table.find?_insert, if_neg hfirst]

theorem methodTable_eq_foldl (methods : List (Method (Option Nat))) (frame : Nat) :
    methodTable methods frame = methods.foldl
      (fun t method => t.insert method.name.lexeme (method.routine frame)) .empty := by
  unfold methodTable
  congr 1
  funext table method
  cases method
  rfl

/-- The last method of a name counts. -/
theorem find?_methodTable_of_last {before after : List (Method (Option Nat))}
    {method : Method (Option Nat)} (frame : Nat)
    (h : ∀ later ∈ after, later.name.lexeme ≠ method.name.lexeme) :
    (methodTable (before ++ method :: after) frame).find? method.name.lexeme =
      some (method.routine frame) := by
  rw [methodTable_eq_foldl, List.foldl_append, List.foldl_cons, find?_foldl_insert h,
    Table.find?_insert, if_pos rfl]

theorem find?_methodTable_of_absent {x : String} {methods : List (Method (Option Nat))}
    (frame : Nat) (h : ∀ method ∈ methods, method.name.lexeme ≠ x) :
    (methodTable methods frame).find? x = none := by
  rw [methodTable_eq_foldl, find?_foldl_insert h, Table.find?_empty]

end Run

/-- Methods have a last one of a name, or none. -/
theorem Method.last_or_absent (x : String) (methods : List (Method (Option Nat))) :
    (∃ before method after, methods = before ++ method :: after ∧ method.name.lexeme = x ∧
      ∀ later ∈ after, later.name.lexeme ≠ x) ∨
    ∀ method ∈ methods, method.name.lexeme ≠ x := by
  induction methods with
  | nil => exact .inr nofun
  | cons first methods ih =>
    rcases ih with ⟨before, method, after, rfl, hx, hafter⟩ | habsent
    · exact .inl ⟨first :: before, method, after, rfl, hx, hafter⟩
    · by_cases hx : first.name.lexeme = x
      · exact .inl ⟨[], first, methods, rfl, hx, habsent⟩
      · exact .inr (List.forall_mem_cons.2 ⟨hx, habsent⟩)

namespace Class

/-- A class is looked through before its superclass. -/
theorem method?_eq (c : Class) (x : String) :
    c.method? x = (c.methods.find? x).or (c.superclass.bind (·.method? x)) := by
  obtain ⟨identity, name, above, methods⟩ := c
  cases above with
  | none => exact (Option.or_none ..).symm
  | some above =>
    rw [method?]
    cases methods.find? x <;> rfl

theorem sizeOf_le_of_mem_chain {c d : Class} (h : d ∈ c.chain) : sizeOf d ≤ sizeOf c := by
  fun_induction chain c with
  | case1 => exact Nat.le_of_eq (congrArg sizeOf (List.mem_singleton.1 h))
  | case2 identity name above methods ih =>
    rcases List.mem_cons.1 h with rfl | h
    · exact Nat.le_refl _
    · refine Nat.le_trans (ih h) ?_
      simp only [Class.mk.sizeOf_spec, Option.some.sizeOf_spec]
      omega

end Class

section

variable {L : Log}

theorem Log.Body.methods_eq {c : Class} {methods : List (Method (Option Nat))} {frame : Nat}
    (h : L.Body c methods frame) : c.methods = Run.methodTable methods frame := by
  cases h <;> rfl

theorem Log.Declares.body {c : Class} {m : Machine} (h : L.Declares m c) :
    ∃ methods frame, L.Body c methods frame := by
  cases h with
  | base hreach => exact ⟨_, _, .base hreach⟩
  | derived hreach hlook => exact ⟨_, _, .derived hreach hlook⟩

/-- What is found in the bodies of the classes is what the lookup returns. -/
theorem Log.Finds.eq_method? {x : String} {c : Class} {found : Option Routine}
    (h : L.Finds x c found) : found = c.method? x := by
  induction h with
  | own hbody hx hafter =>
    subst hx
    rw [Class.method?_eq, hbody.methods_eq, Run.find?_methodTable_of_last _ hafter]
    rfl
  | inherited hbody habsent habove _ ih =>
    rw [Class.method?_eq, hbody.methods_eq, Run.find?_methodTable_of_absent _ habsent, habove, ih]
    rfl
  | nowhere hbody habsent habove =>
    rw [Class.method?_eq, hbody.methods_eq, Run.find?_methodTable_of_absent _ habsent, habove]
    rfl

/-- In a good class, every name is found or not found in the bodies of the chain. -/
theorem Class.Good.finds {s : Store Value} {c : Class} (h : c.Good L s) (x : String) :
    ∃ found, L.Finds x c found := by
  induction h with
  | @intro c hdeclared habove _ ih =>
    obtain ⟨m, hdeclared⟩ := hdeclared
    obtain ⟨methods, frame, hbody⟩ := hdeclared.body
    rcases Method.last_or_absent x methods with ⟨_, _, _, rfl, hx, hafter⟩ | habsent
    · exact ⟨_, .own hbody hx hafter⟩
    · cases hc : c.superclass with
      | none => exact ⟨_, .nowhere hbody habsent hc⟩
      | some above =>
        obtain ⟨found, hfound⟩ := ih above hc
        exact ⟨found, .inherited hbody habsent hc hfound⟩

end

/-! ## Sessions -/

section

variable {clock : Nat → Float} {room : Option Nat} {fuel : Nat} {sources : List (Style × String)}

/-- A class that the session has: it meets the class as a value or an instance of it, or the class
is a superclass of such a one. -/
inductive Session.HasClass (clock : Nat → Float) (room : Option Nat) (fuel : Nat)
    (sources : List (Style × String)) : Class → Prop
  | value {c : Class} : Session.Meets clock room fuel sources (.cls c) →
      HasClass clock room fuel sources c
  | object {o : Object} : Session.Meets clock room fuel sources (.object o) →
      HasClass clock room fuel sources o.cls
  | superclass {c above : Class} : HasClass clock room fuel sources c →
      c.superclass = some above → HasClass clock room fuel sources above

namespace Session

variable {c c' : Class} {m : Machine}

theorem HasClass.good (h : HasClass clock room fuel sources c) :
    ∃ s, c.Good (log clock room fuel sources) s := by
  induction h with
  | value hmeets => exact hmeets.good
  | object hmeets => exact hmeets.good
  | superclass _ habove ih =>
    obtain ⟨s, hgood⟩ := ih
    cases hgood with
    | intro _ hsuper _ => exact ⟨s, hsuper _ habove⟩

/-- A class that is declared is among the declarations of the session. -/
theorem mem_events_of_declares (h : (log clock room fuel sources).Declares m c) :
    c ∈ (start clock room).events Task.declares fuel sources := by
  cases h with
  | base hreach =>
    exact Reached.events_subset hreach (List.mem_append_right _ List.mem_cons_self)
  | @derived _ _ site _ _ above hreach hlook =>
    refine Reached.events_subset hreach (List.mem_append_right _ ?_)
    have hsite : m.value? site = some (.cls above) := by
      rw [Run.lookUp_eq] at hlook
      split at hlook <;> cases hlook
      assumption
    unfold Task.declares
    dsimp only
    rw [hsite]
    exact List.mem_cons_self

/-- **A class is declared once.** Classes of one identity are the same, wherever and whenever the
session has them. -/
theorem HasClass.eq_of_identity (h : HasClass clock room fuel sources c)
    (h' : HasClass clock room fuel sources c') (hidentity : c.identity = c'.identity) : c = c' := by
  have hmem : ∀ {c : Class}, HasClass clock room fuel sources c →
      c ∈ (start clock room).events Task.declares fuel sources := by
    intro c h
    obtain ⟨s, hgood⟩ := h.good
    cases hgood with
    | intro hdeclared _ _ =>
      obtain ⟨m, hdeclared⟩ := hdeclared
      exact mem_events_of_declares hdeclared
  exact (ascending (start clock room) fuel sources).2.eq_of_identity (hmem h) (hmem h') hidentity

theorem HasClass.of_mem_chain (h : HasClass clock room fuel sources c) (hc : c' ∈ c.chain) :
    HasClass clock room fuel sources c' := by
  fun_induction Class.chain c with
  | case1 =>
    obtain rfl := List.mem_singleton.1 hc
    exact h
  | case2 identity name above methods ih =>
    rcases List.mem_cons.1 hc with rfl | hc
    · exact h
    · exact ih (h.superclass rfl) hc

/-- **No class is among its own superclasses.** -/
theorem HasClass.nodup_chain (h : HasClass clock room fuel sources c) :
    (c.chain.map Class.identity).Nodup := by
  fun_induction Class.chain c with
  | case1 => exact List.nodup_singleton _
  | case2 identity name above methods ih =>
    rw [List.map_cons, List.nodup_cons]
    refine ⟨fun hmem => ?_, ih (h.superclass rfl)⟩
    obtain ⟨d, hd, hidentity⟩ := List.mem_map.1 hmem
    have hd' := (h.superclass rfl).of_mem_chain hd
    have hsize := Class.sizeOf_le_of_mem_chain hd
    rw [hd'.eq_of_identity h hidentity] at hsize
    simp only [Class.mk.sizeOf_spec, Option.some.sizeOf_spec] at hsize
    omega

end Session

/-- **Method tables are fixed and looked up nearest first.** Take any session, and any class that it
has, be it as a value, as the class of an instance or as a superclass of such a one. Whenever and
wherever the session has a class of the same identity, it is this one, with the same methods and the
same superclass, so what is found in it never changes. No class comes twice in the chain of its
superclasses. What is found under a name is the last method of that name in the body with which the
nearest class of the chain that declares one was declared, or nothing if no class of the chain
declares one; nothing else is found.

And take any place where the session reads a property of an instance. If the instance has ever been
given a field of that name, the property is what it was last given; if not, it is the method found
in the class of the instance, bound to the instance in a frame of its own; and if there is none, the
property is undefined. -/
theorem method_tables_fixed (clock : Nat → Float) (room : Option Nat) (fuel : Nat)
    (sources : List (Style × String)) :
    (∀ c c', Session.HasClass clock room fuel sources c →
      Session.HasClass clock room fuel sources c' → c.identity = c'.identity → c = c') ∧
    (∀ c, Session.HasClass clock room fuel sources c → (c.chain.map Class.identity).Nodup ∧
      ∀ d ∈ c.chain, Session.HasClass clock room fuel sources d) ∧
    (∀ c x, Session.HasClass clock room fuel sources c → ∀ found,
      c.method? x = found ↔ (Session.log clock room fuel sources).Finds x c found) ∧
    (∀ n t m, Session.Reached clock room fuel sources n t m →
      ∃ ws, Session.History Task.sets clock room fuel sources n t m ws) ∧
    (∀ n e name m ws o m₁,
      Session.History Task.sets clock room fuel sources (n + 1) (.run (.expr (.get e name))) m ws →
      Run.evaluate n e m = .ok (.object o) m₁ →
      Session.HasClass clock room fuel sources o.cls ∧
      ((∃ w ∈ ws ++ (Task.run (.expr e)).writes n m,
          w.address = o.address ∧ w.name = name.lexeme) →
        ∃ v, FieldWrite.last? (ws ++ (Task.run (.expr e)).writes n m) o.address name.lexeme =
            some v ∧
          Run.evaluate (n + 1) (.get e name) m = .ok v m₁) ∧
      ((∀ w ∈ ws ++ (Task.run (.expr e)).writes n m,
          w.address = o.address → w.name ≠ name.lexeme) →
        (∀ r, o.cls.method? name.lexeme = some r →
          ∃ m₂, Run.evaluate (n + 1) (.get e name) m =
              .ok (.function m₁.identities { r with frame := m₁.nextFrame }) m₂ ∧
            m₂.store.frames[m₁.nextFrame]? = some (.receiver o r.frame)) ∧
        (o.cls.method? name.lexeme = none → Run.evaluate (n + 1) (.get e name) m =
          .error (.runtime name.line (.undefinedProperty name.lexeme)) m₁))) := by
  refine ⟨fun c c' h h' => h.eq_of_identity h',
    fun c h => ⟨h.nodup_chain, fun d hd => h.of_mem_chain hd⟩,
    fun c x h found => ⟨?_, fun hfinds => hfinds.eq_method?.symm⟩, fun n t m h => h.history _,
    fun n e name m ws o m₁ h hv => ?_⟩
  · rintro rfl
    obtain ⟨s, hgood⟩ := h.good
    obtain ⟨found, hfinds⟩ := hgood.finds x
    exact hfinds.eq_method? ▸ hfinds
  · have hmeets : Session.Meets clock room fuel sources (.object o) :=
      .result (h.reached.begins .get) (.expr hv)
    have hget : Run.evaluate (n + 1) (.get e name) m = Run.getProperty (.object o) name m₁ :=
      Run.bind_ok hv
    rw [hget, Run.getProperty_object, h.field?_get hv]
    refine ⟨.object hmeets, fun hset => ?_, fun hnever => ?_⟩
    · obtain ⟨v, hlast⟩ := FieldWrite.exists_last? hset
      exact ⟨v, hlast, by rw [hlast]⟩
    · rw [FieldWrite.last?_eq_none hnever]
      dsimp only
      refine ⟨fun r hr => ?_, fun hr => by rw [hr]⟩
      rw [hr]
      exact ⟨_, rfl, m₁.store.getElem?_frames_create_size ..⟩

end

end LoxLang
