import LoxLang.Proofs.Safety.Leads

/-!
# Sites in a chain of frames

Where the frame of the machine fits the context of a site, the distance of the site leads to the
frame of the scope that declares its name. So an assignment finds its frame, `this` reads an
instance, `super` finds a class and, one frame further in, the receiver, and a variable is there
unless it waits for its initializer. Classes are declared in the same way: the methods of a derived
class close over a frame for the superclass.
-/

namespace LoxLang

/-- In a context with the scopes of a receiver and of its superclass, the frames of the two: the
receiver `o` in frame `j`, at the distance `d`, and the superclass `c` right outside, in frame
`i`. -/
structure Machine.Derived (m : Machine) (Γ : Context) (d i j p : Nat) (o : Object) (c : Class) :
    Prop where
  this : Γ.distance? thisName = some d
  super : Γ.distance? superName = some (d + 1)
  inner : m.store.ancestor? d m.frame = some j
  outer : m.store.ancestor? (d + 1) m.frame = some i
  receiver : m.store.frames[j]? = some (.receiver o i)
  superclass : m.store.frames[i]? = some (.superclass c p)

namespace Machine.At

variable {m : Machine} {Γ : Context}

/-- The distance of a name leads to the frame of the scope that declares it. -/
theorem scope (hat : m.At Γ) {x : String} {d : Nat} (h : Γ.distance? x = some d) :
    ∃ inner sc outer frame, Γ = inner ++ sc :: outer ∧ inner.length = d ∧ x ∈ sc.names ∧
      m.store.ancestor? d m.frame = some frame ∧ m.store.Fits frame (sc :: outer) := by
  obtain ⟨inner, sc, outer, rfl, rfl, hx⟩ := Context.split_of_distance? h
  obtain ⟨frame, ha, hf⟩ := Store.Fits.ancestor? hat
  exact ⟨inner, sc, outer, frame, rfl, rfl, hx, ha, hf⟩

/-- A distance leads to a frame of the store. -/
theorem ancestor? (hat : m.At Γ) {x : String} {d : Nat} (h : Γ.distance? x = some d) :
    ∃ frame, m.store.ancestor? d m.frame = some frame ∧ frame < m.store.frames.size := by
  obtain ⟨_, _, _, frame, -, -, -, ha, hf⟩ := hat.scope h
  exact ⟨frame, ha, hf.lt⟩

/-- What a site with a distance reads is the value in the frame at that distance. -/
theorem value?_eq {site : Site (Option Nat)} {d frame : Nat} (hmark : site.mark = some d)
    (ha : m.store.ancestor? d m.frame = some frame) :
    m.value? site = m.store.get? frame site.name.lexeme := by
  unfold Machine.value?
  rw [hmark]
  dsimp only
  rw [Store.readAt?, ha]
  rfl

/-- The global frame is open. -/
theorem openAt_global (hat : m.At Γ) : m.store.OpenAt Machine.globalFrame := by
  unfold Machine.At at hat
  generalize m.frame = frame at hat
  induction hat with
  | global hopen => exact hopen
  | inside _ _ _ ih => exact ih

/-- The frame in which an assignment gives a name its value is open. -/
theorem openAt_of_target? (hat : m.At Γ) (hΓ : Γ.Proper) {site : Site (Option Nat)}
    (hname : site.name.IsName) (hmark : site.mark = Γ.distance? site.name.lexeme) {frame : Nat}
    (h : m.target? site = some frame) : m.store.OpenAt frame := by
  unfold Machine.target? at h
  cases hd : site.mark with
  | none =>
    rw [hd] at h
    cases Store.eq_of_owner?_zero h
    exact hat.openAt_global
  | some d =>
    rw [hd] at h
    obtain ⟨inner, sc, outer, frame', hsplit, -, hx, ha, hf⟩ := hat.scope (hmark.symm.trans hd)
    cases h.symm.trans ha
    rcases hΓ.scope (hsplit ▸ List.mem_append_right inner List.mem_cons_self) with
      hplain | rfl | rfl
    · exact hf.holds.opened hplain.notReceiver hplain.notSuperclass
    · exact absurd (List.mem_singleton.1 hx) hname.1
    · exact absurd (List.mem_singleton.1 hx) hname.2

/-- **`this` reads an instance.** -/
theorem this (hat : m.At Γ) (hΓ : Γ.Proper) {site : Site (Option Nat)}
    (hname : site.name.lexeme = thisName) (hmark : site.mark = Γ.distance? site.name.lexeme)
    (hcls : Γ.classKind ≠ .outside) : ∃ o, m.value? site = some (.object o) := by
  obtain ⟨d, hd⟩ := Context.distance?_isSome (hΓ.receiver_mem hcls) (x := thisName)
    List.mem_cons_self
  obtain ⟨inner, sc, outer, frame, hsplit, -, hx, ha, hf⟩ := hat.scope hd
  have hsc : sc = .receiver :=
    hΓ.eq_receiver (hsplit ▸ List.mem_append_right inner List.mem_cons_self) hx
  obtain ⟨o, p, ho⟩ := hf.holds.receiver (by rw [hsc]; rfl)
  rw [hname, hd] at hmark
  exact ⟨o, by rw [value?_eq hmark ha, hname, Store.get?_receiver ho]⟩

/-- **A variable with a distance is there unless it waits for its initializer.** -/
theorem waiting (hat : m.At Γ) {site : Site (Option Nat)} {d : Nat}
    (hmark : site.mark = Γ.distance? site.name.lexeme) (hd : site.mark = some d)
    (hnone : m.value? site = none) : ∃ inner sc outer, Γ = inner ++ sc :: outer ∧
      inner.length = d ∧ sc.pending = some site.name.lexeme := by
  obtain ⟨inner, sc, outer, frame, hsplit, hlen, hx, ha, hf⟩ := hat.scope (hmark.symm.trans hd)
  refine ⟨inner, sc, outer, hsplit, hlen, ?_⟩
  by_contra hp
  have hsome := hf.holds.names _ hx hp
  rw [← value?_eq hd ha, hnone] at hsome
  cases hsome

/-- The frames of a receiver and, around it, of the superclass are found where the context has their
scopes. -/
theorem derived (hat : m.At Γ) (hΓ : Γ.Proper) (hcls : Γ.classKind = .derived) :
    ∃ d i j p o c, m.Derived Γ d i j p o c := by
  obtain ⟨inner, outer, rfl, hthis, hsuper⟩ := hΓ.distance?_of_derived hcls
  obtain ⟨j, ha, hf⟩ := Store.Fits.ancestor? hat
  cases hf with
  | @inside _ i _ _ hparent hholds hf =>
    obtain ⟨o, i', ho⟩ := hholds.receiver rfl
    obtain ⟨c, p, hc⟩ := hf.holds.superclass rfl
    have hi : m.store.parent? j = some i' := by
      rw [Store.parent?, ho]
      rfl
    rw [hparent] at hi
    cases hi
    refine ⟨inner.length, i, j, p, o, c, hthis, hsuper, ha, ?_, ho, hc⟩
    rw [Store.ancestor?_succ, ha]
    exact hparent

end Machine.At

/-- What `super` comes to in a derived class. -/
theorem Machine.Derived.superMethod_eq {m : Machine} {Γ : Context} {d i j p : Nat} {o : Object}
    {c : Class} (h : m.Derived Γ d i j p o c) {site : Site (Option Nat)}
    (hmark : site.mark = Γ.distance? superName) (method : Token) :
    Run.superMethod site method m = (match c.method? method.lexeme with
      | some found => Run.methodValue found o
      | none => Run.fail method (.undefinedProperty method.lexeme)) m := by
  have hclass : m.store.readAt? (d + 1) m.frame superName = some (.cls c) := by
    rw [Store.readAt?, h.outer]
    exact Store.get?_superclass h.superclass
  have hreceiver : (if d + 1 = 0 then none else m.store.readAt? (d + 1 - 1) m.frame thisName) =
      some (.object o) := by
    rw [if_neg (Nat.succ_ne_zero d), Nat.add_sub_cancel, Store.readAt?, h.inner]
    exact Store.get?_receiver h.receiver
  unfold Run.superMethod
  rw [hmark, h.super]
  refine (Run.bind_ok (r := get) (m := m) rfl).trans ?_
  rw [hclass]
  dsimp only
  generalize (if d + 1 = 0 then none else m.store.readAt? (d + 1 - 1) m.frame thisName) = receiver
    at hreceiver ⊢
  subst hreceiver
  rfl

variable {L : Log} {m : Machine} {Γ : Context}

/-- In a derived class, the method around a node belongs to a class that has the superclass in its
frame, and the receiver is an instance of that class or of one that derives from it. -/
theorem Machine.Stands.home {node : Node (Option Nat)} (h : m.Stands L Γ node) (hm : m.Good L)
    {d i j p : Nat} {o : Object} {c : Class} (hd : m.Derived Γ d i j p o c) :
    ∃ owner r kind params, m.store.Receives j o owner r ∧ owner.superclass = some c ∧
      owner.Good L m.store ∧
      Node.Inside (.ofParams kind params :: Γ.drop d) (.stmts r.body) Γ node := by
  obtain ⟨j', o', owner, r, kind, params, hj', hreceives, hinside⟩ := h.hosts d hd.this
  rw [hd.inner] at hj'
  cases hj'
  have hframe := hreceives.frame
  rw [hd.receiver] at hframe
  cases hframe
  have hcls : o.cls.Good L m.store := hm.frames j _ _ (Store.get?_receiver hd.receiver)
  obtain ⟨name, hfound⟩ := hreceives.method
  have howner := hcls.descends hreceives.descends
  refine ⟨owner, r, kind, params, hreceives, ?_, howner, hinside⟩
  cases howner with
  | intro _ _ hmethods => exact (hmethods name r hfound).2.eq_some hd.superclass

/-- `super` stands in a derived class, and bears the distance of the superclass. -/
theorem Machine.Stands.super (hL : L.Lawful) {site : Site (Option Nat)} {method : Token}
    (h : m.Stands L Γ (.expr (.super site method))) :
    site.mark = Γ.distance? superName ∧ ∃ d i j p o c, m.Derived Γ d i j p o c := by
  have hname : site.name.lexeme = superName := h.spelled hL
  have hresolved := h.resolved hL
  exact ⟨hname ▸ hresolved.1, h.fits.derived (h.proper hL) hresolved.2⟩

namespace Run.Leads

/-- An assignment writes to an open frame. -/
theorem assign (hat : m.At Γ) (hΓ : Γ.Proper) {site : Site (Option Nat)} {v : Value}
    (hmark : site.mark = Γ.distance? site.name.lexeme) (hname : site.name.IsName)
    (hv : v.Good L m.store) : Leads L m (Run.assign site v) fun _ _ => True := by
  intro hm
  rw [assign_eq]
  split
  · next frame htarget =>
    have hopen := hat.openAt_of_target? hΓ hname hmark htarget
    have hg := Store.Grows.define hopen v hname
    exact .ok ⟨hg, rfl⟩ (hm.put hopen hname (hv.mono hg)) trivial
  · exact .error (.refl m) hm ⟨nofun, nofun, nofun, nofun⟩

theorem superMethod (hL : L.Lawful) {n : Nat} {site : Site (Option Nat)} {method : Token}
    (h : m.Stands L Γ (.expr (.super site method)))
    (hr : L.reaches (n + 1) (.run (.expr (.super site method))) m) :
    Leads L m (Run.superMethod site method) fun v m' => v.Good L m'.store := by
  obtain ⟨hmark, d, i, j, p, o, c, hd⟩ := h.super hL
  have heq := hd.superMethod_eq hmark method
  intro hm
  have hogood : o.cls.Good L m.store := hm.frames j _ _ (Store.get?_receiver hd.receiver)
  obtain ⟨owner, r, -, -, hreceives, habove, -, -⟩ := h.home hm hd
  rw [heq]
  cases hfound : c.method? method.lexeme with
  | some found =>
    have hc : o.cls.Descends c := hreceives.descends.trans (.step habove (.refl c))
    exact methodValue hogood (Object.knows_of_method? hc hfound)
      (.super hr (by rw [heq, hfound])) hm
  | none => exact fail ⟨nofun, nofun, nofun, nofun⟩ hm

/-- A class whose methods close over a frame that fits the scopes around them is good. -/
theorem class_good {name : Token} {superclass : Option (Site (Option Nat))}
    {methods : List (Method (Option Nat))}
    (h : m.Stands L Γ (.stmt (.classDecl name superclass methods))) {outer : Context}
    (houter : Γ.inClass name.lexeme superclass.isSome = .receiver :: outer) {s : Store Value}
    {frame identity : Nat} {above : Option Class}
    (hdeclared : L.Declares m ⟨identity, name.lexeme, above, Run.methodTable methods frame⟩)
    (habove : ∀ c, above = some c → c.Good L s) (hfits : s.Fits frame outer)
    (hframe : s.MethodFrame frame above) :
    Class.Good L s ⟨identity, name.lexeme, above, Run.methodTable methods frame⟩ := by
  refine .intro ⟨m, hdeclared⟩ habove fun x r hr => ?_
  obtain ⟨x, params, body, hmethod, hparams, rfl, rfl, -⟩ := Run.find?_methodTable hr
  obtain ⟨line, hline, hw⟩ := h.within
  have hbody := hw.child (List.mem_append_right _ (List.mem_map.2 ⟨_, hmethod, rfl⟩))
  rw [houter] at hbody
  exact ⟨⟨line, outer, .ofMethod x, params, hline, hbody, hparams, hfits⟩, hframe⟩

variable (hL : L.Lawful) {n : Nat} {name : Token} {methods : List (Method (Option Nat))}
include hL

/-- The methods of a class without a superclass close over the frame in which it is declared. -/
theorem declareClass_none (h : m.Stands L Γ (.stmt (.classDecl name none methods)))
    (hr : L.reaches (n + 1) (.run (.stmt (.classDecl name none methods))) m) :
    Leads L m (Run.declareClass name none methods) fun _ m' => m'.At (Γ.declare name.lexeme) := by
  have hΓ := h.proper hL
  have hname := (h.spelled hL).1
  have hopen := h.fits.opened hΓ
  have hg : m.Grows { m with identities := m.identities + 1 } := ⟨.refl _, rfl⟩
  have hat := h.fits.mono hg
  have hclass := fun v => class_good h rfl (.base hr) nofun (hat.put hΓ hname v)
    ((Store.Grows.define hopen v hname).opened _ hopen)
  exact later hg (fun hm => hm.congr rfl rfl)
    (define (v := .cls _) hat hΓ hname (hclass _)) rfl

/-- Those of a derived class close over a frame with the superclass, and that one stands in front of
the frame that gets the class. -/
theorem declareClass_some {site : Site (Option Nat)}
    (h : m.Stands L Γ (.stmt (.classDecl name (some site) methods)))
    (hr : L.reaches (n + 1) (.run (.stmt (.classDecl name (some site) methods))) m) :
    Leads L m (Run.declareClass name (some site) methods) fun _ m' =>
      m'.At (Γ.declare name.lexeme) := by
  have hΓ := h.proper hL
  have hname := (h.spelled hL).1
  rw [Run.declareClass_eq]
  refine bind (superclassOf site) ?_
  rintro _ m₁ hlookup - ⟨c, rfl, hc⟩
  obtain ⟨_, ⟨⟩, rfl, hlookup⟩ := superclassOf_ok hlookup
  have hg : m₁.Grows { m₁.grow (.single superName (.cls c)) m₁.frame with
      identities := m₁.identities + 1 } := ⟨.create m₁.store _ _, rfl⟩
  have hat := h.fits.mono hg
  have hdefine := fun v => Store.Grows.define (hat.opened hΓ) v hname
  have hframe := fun v => (hdefine v).sealed m₁.nextFrame _
    (m₁.store.getElem?_frames_create_size _ _) (.superclass c m₁.frame)
  have hclass := fun v => class_good h rfl (.derived hr hlookup)
    (fun _ habove => Option.some.inj habove ▸ hc.mono (hg.store.trans (hdefine v)))
    (.superclass (hframe v) (hat.put hΓ hname v)) ⟨m₁.frame, hframe v⟩
  exact later hg (fun hm => (hm.grow_superclass hc m₁.frame).congr rfl rfl)
    (define (v := .cls _) hat hΓ hname (hclass _)) rfl

/-- Behind its declaration a class is there, and its methods are good. -/
theorem declareClass {superclass : Option (Site (Option Nat))}
    (h : m.Stands L Γ (.stmt (.classDecl name superclass methods)))
    (hr : L.reaches (n + 1) (.run (.stmt (.classDecl name superclass methods))) m) :
    Leads L m (Run.declareClass name superclass methods) fun _ m' =>
      m'.At (Γ.declare name.lexeme) := by
  cases superclass with
  | none => exact declareClass_none hL h hr
  | some site => exact declareClass_some hL h hr

end Run.Leads

end LoxLang
