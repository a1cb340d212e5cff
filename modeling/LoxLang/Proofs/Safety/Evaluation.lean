import LoxLang.Proofs.Safety.Accepted
import LoxLang.Proofs.Safety.Sites

/-!
# Evaluation of accepted code

A task that a session reaches leads to a good machine if it stands where it may be run, and what a
statement leaves behind fits the context behind it (`Run.leadsOn`, by induction on the fuel). A
`return` only travels out of statements that stand in the body of a function, so none leaves the
statements of a line (`Run.Leads.statements`).
-/

namespace LoxLang

/-- A statement does not change the body it stands in. -/
theorem Context.bodyKind_after {σ : Type} (Γ : Context) (s : Stmt σ) :
    (Γ.after s).bodyKind = Γ.bodyKind :=
  after_eq bodyKind_declare Γ s

/-- What a statement in the context `Γ` leaves: the machine is in a frame that fits the context
behind the statement, or a good value is returned from a body. -/
def Flow.Fine (L : Log) (Γ behind : Context) : Flow → Machine → Prop
  | .proceed, m => m.At behind
  | .returned v, m => v.Good L m.store ∧ Γ.bodyKind ≠ .topLevel

/-! ## Operators -/

/-- The unary operators of the grammar are those there are. -/
theorem Value.ordinary_of_unary {op : Token} {v : Value} {cause : RuntimeCause}
    (hop : op.kind = .bang ∨ op.kind = .minus) (h : v.unary op.kind = .error cause) :
    (Fault.runtime op.line cause).Ordinary := by
  rcases hop with hop | hop
  · rw [hop] at h
    cases h
  · rw [hop] at h
    cases v <;> cases h <;> exact ⟨nofun, nofun, nofun, nofun⟩

/-- An operator of the grammar that is neither `+` nor an equality computes with numbers. -/
theorem Value.cause_of_arithmetic {op : Kind} {l : Nat} {a b : Float} {cause : RuntimeCause}
    (hl : op.level? = some l) (h2 : 2 ≤ l) (hequal : op ≠ .equalEqual) (hbang : op ≠ .bangEqual)
    (hplus : op ≠ .plus) (h : Value.arithmetic op a b = .error cause) :
    cause = .divisionByZero := by
  unfold Value.arithmetic at h
  split at h
  case h_3 =>
    split at h <;> cases h
    rfl
  case h_8 hminus hstar hslash hgreater hgreaterEqual hless hlessEqual =>
    cases op <;> first | contradiction | (cases hl; contradiction)
  all_goals cases h

/-- The binary operators of the grammar are those there are. -/
theorem Value.ordinary_of_binary {op : Token} {a b : Value} {cause : RuntimeCause}
    (hop : ∃ l, op.kind.level? = some l ∧ 2 ≤ l) (h : Value.binary op.kind a b = .error cause) :
    (Fault.runtime op.line cause).Ordinary := by
  obtain ⟨l, hl, h2⟩ := hop
  unfold Value.binary at h
  split at h
  · cases h
  · cases h
  · unfold Value.add at h
    split at h <;> cases h
    exact ⟨nofun, nofun, nofun, nofun⟩
  · next hequal hbang hplus =>
    cases Value.cause_of_arithmetic hl h2 hequal hbang hplus h
    exact ⟨nofun, nofun, nofun, nofun⟩
  · cases h
    exact ⟨nofun, nofun, nofun, nofun⟩

/-! ## Arguments -/

/-- The frame of a call has parameters for names and arguments for values. -/
theorem Table.mem_of_find?_foldl_insert {params : List String} {args : List Value} {x : String}
    {v : Value} (h : ((params.zip args).foldl (fun t p => t.insert p.1 p.2) Table.empty).find? x =
      some v) : x ∈ params ∧ v ∈ args := by
  refine List.foldlRecOn
    (motive := fun t => ∀ v, Table.find? t x = some v → x ∈ params ∧ v ∈ args)
    (params.zip args) _ (fun _ h => by cases h) (fun t ht p hp v hv => ?_) v h
  rw [Table.find?_insert] at hv
  split at hv
  · next hx =>
    cases hv
    exact hx ▸ List.of_mem_zip (a := p.1) (b := p.2) hp
  · exact ht v hv

/-- The frame of a call is open if neither word is a parameter. -/
theorem Frame.Open.call {params : List String} (hthis : thisName ∉ params)
    (hsuper : superName ∉ params) (args : List Value) (parent : Option Nat) :
    Frame.Open ⟨(params.zip args).foldl (fun t p => t.insert p.1 p.2) .empty, parent⟩ := by
  constructor
  · refine Option.eq_none_iff_forall_ne_some.2 fun v hv => ?_
    exact hthis (Table.mem_of_find?_foldl_insert hv).1
  · refine Option.eq_none_iff_forall_ne_some.2 fun v hv => ?_
    exact hsuper (Table.mem_of_find?_foldl_insert hv).1

/-- The frame of a call has all parameters for names. -/
theorem Table.isSome_find?_foldl_insert {params : List String} {args : List Value}
    (hlen : args.length = params.length) {x : String} (hx : x ∈ params) :
    (((params.zip args).foldl (fun t p => t.insert p.1 p.2) Table.empty).find? x).isSome := by
  have hfold : ∀ (ps : List (String × Value)) (t : Table Value),
      x ∈ ps.map Prod.fst ∨ (t.find? x).isSome →
      ((ps.foldl (fun t p => t.insert p.1 p.2) t).find? x).isSome := by
    intro ps
    induction ps with
    | nil => exact fun t h => h.resolve_left List.not_mem_nil
    | cons p ps ih =>
      intro t h
      refine ih _ ?_
      rw [Table.find?_insert]
      rw [List.map_cons, List.mem_cons, or_assoc] at h
      rcases h with rfl | h | h
      · rw [if_pos rfl]
        exact .inr rfl
      · exact .inl h
      · right
        split
        · rfl
        · exact h
  refine hfold _ _ (.inl ?_)
  rwa [List.map_fst_zip (Nat.le_of_eq hlen.symm)]

/-- The frame of a call fits the scope of the parameters. -/
theorem Store.Fits.call {s : Store Value} {frame : Nat} {Γ : Context} (h : s.Fits frame Γ)
    {kind : BodyKind} {params : List Token} (hplain : (Scope.ofParams kind params).Plain)
    {args : List Value} (hlen : args.length = (params.map Token.lexeme).length) :
    (s.create (((params.map Token.lexeme).zip args).foldl (fun t p => t.insert p.1 p.2) .empty)
      (some frame)).2.Fits s.frames.size (.ofParams kind params :: Γ) := by
  refine h.create ⟨fun x hx _ => ?_, nofun, nofun, fun _ _ => ?_⟩
  · rw [Store.get?_create, if_pos rfl]
    exact Table.isSome_find?_foldl_insert hlen hx
  · exact ⟨_, s.getElem?_frames_create_size _ _, .call hplain.this hplain.super args _⟩

section Entering

variable {L : Log} {m : Machine}

/-- A good function with the right number of arguments enters a frame where its body may be run. -/
theorem Routine.Good.enters (hL : L.Lawful) {r : Routine} (h : r.Good L m.store)
    {args : List Value} (hargs : ∀ v ∈ args, v.Good L m.store)
    (hlen : args.length = r.params.length) {m' : Machine}
    (hm' : m' = m.grow ((r.params.zip args).foldl (fun t p => t.insert p.1 p.2) .empty) r.frame) :
    (m.Good L → m'.Good L) ∧
      ∃ Γ, Machine.Stands L { m' with frame := m.nextFrame } Γ (.stmts r.body) := by
  obtain ⟨name, _, body, frame, isInit⟩ := r
  obtain ⟨line, Γ, kind, params, hline, hbody, rfl, hfits, hhosts⟩ := h
  subst hm'
  have hplain := (hbody.proper (hL.accepted line hline)).plain_head
  refine ⟨fun hm => hm.grow (fun x v hv => ?_) (.inl ?_), .ofParams kind params :: Γ,
    ⟨line, hline, hbody⟩, hfits.call hplain hlen, ?_⟩
  · exact hargs v (Table.mem_of_find?_foldl_insert hv).2
  · exact .call hplain.this hplain.super args _
  · refine (hhosts.mono (.create m.store _ _)).inner hplain.this ?_
    exact (Store.parent?_create ..).trans (if_pos rfl)

/-- A block enters a frame where its body may be run. -/
theorem Machine.Stands.block {Γ : Context} {body : List Code}
    (h : m.Stands L Γ (.stmt (.block body))) :
    Machine.Stands L { m.grow .empty m.frame with frame := m.nextFrame } (.block :: Γ)
      (.stmts body) := by
  obtain ⟨line, hline, hw⟩ := h.within
  have hc : (.block :: Γ, Node.stmts body) ∈ (Node.stmt (.block body)).children Γ :=
    List.mem_singleton.2 rfl
  refine ⟨⟨line, hline, hw.child hc⟩, Store.Fits.block h.fits, ?_⟩
  refine ((h.hosts.child hc).mono (.create m.store _ _)).inner Scope.Plain.block.this ?_
  exact (Store.parent?_create ..).trans (if_pos rfl)

/-- The initializer of a variable may be run where the declaration stands. -/
theorem Machine.Stands.initializer (hL : L.Lawful) {Γ : Context} {name : Token}
    {e : Expr (Option Nat)} (h : m.Stands L Γ (.stmt (.var name (some e)))) :
    m.Stands L (Γ.begin name.lexeme) (.expr e) :=
  h.move hL (List.mem_singleton.2 rfl) (.begin Γ name.lexeme) (.refl m)
    (Store.Fits.begin h.fits (h.settled hL nofun) name.lexeme)

/-- The statements behind a statement may be run where it has led. -/
theorem Machine.Stands.rest (hL : L.Lawful) {Γ : Context} {s : Code} {ss : List Code}
    (h : m.Stands L Γ (.stmts (s :: ss))) {m' : Machine} (hg : m.Grows m')
    (hat : m'.At (Γ.after s)) : m'.Stands L (Γ.after s) (.stmts ss) :=
  h.move hL (List.mem_cons_of_mem _ List.mem_cons_self) (.after Γ s) hg hat

end Entering

/-! ## Fuel -/

namespace Run

variable {L : Log}

/-- All that the log reaches with the given fuel leads on from where it stands. -/
structure LeadsOn (L : Log) (n : Nat) : Prop where
  evaluate : ∀ {Γ e m}, m.Stands L Γ (.expr e) → L.reaches n (.run (.expr e)) m →
    Leads L m (Run.evaluate n e) fun v m' => v.Good L m'.store
  evaluateAll : ∀ {Γ es m}, (∀ e ∈ es, m.Stands L Γ (.expr e)) → L.reaches n (.arguments es) m →
    Leads L m (Run.evaluateAll n es) fun vs m' => ∀ v ∈ vs, v.Good L m'.store
  call : ∀ {f paren args m}, f.Good L m.store → (∀ v ∈ args, v.Good L m.store) →
    L.reaches n (.call f paren args) m →
    Leads L m (Run.call n f paren args) fun v m' => v.Good L m'.store
  apply : ∀ {callee args m}, callee.Good L m.store → (∀ v ∈ args, v.Good L m.store) →
    args.length = callee.arity → L.reaches n (.apply callee args) m →
    Leads L m (Run.apply n callee args) fun v m' => v.Good L m'.store
  invoke : ∀ {r args m}, r.Good L m.store → (∀ v ∈ args, v.Good L m.store) →
    args.length = r.params.length → L.reaches n (.invoke r args) m →
    Leads L m (Run.invoke n r args) fun v m' => v.Good L m'.store
  executeAll : ∀ {Γ ss m}, m.Stands L Γ (.stmts ss) → L.reaches n (.run (.stmts ss)) m →
    Leads L m (Run.executeAll n ss) (Flow.Fine L Γ (Γ.afterAll ss))
  execute : ∀ {Γ s m}, m.Stands L Γ (.stmt s) → L.reaches n (.run (.stmt s)) m →
    Leads L m (Run.execute n s) (Flow.Fine L Γ (Γ.after s))

namespace LeadsOn

variable {n : Nat} {Γ : Context} {m : Machine}

theorem evaluate_succ (hL : L.Lawful) (ih : LeadsOn L n) {e : Expr (Option Nat)}
    (hs : m.Stands L Γ (.expr e)) (hr : L.reaches (n + 1) (.run (.expr e)) m) :
    Leads L m (Run.evaluate (n + 1) e) fun v m' => v.Good L m'.store := by
  have hspelled := hs.spelled hL
  have hresolved := hs.resolved hL
  have hproper := hs.proper hL
  cases e with
  | literal l => exact .pure (Value.plain_ofLiteral l).good
  | group e => exact ih.evaluate (hs.child (List.mem_singleton.2 rfl)) (hL.begins hr .group)
  | unary op e =>
    refine .bind (ih.evaluate (hs.child (List.mem_singleton.2 rfl)) (hL.begins hr .unary)) ?_
    intro v m₁ _ _ _
    exact .check (fun _ h => (Value.plain_unary h).good) fun _ h =>
      Value.ordinary_of_unary hspelled h
  | binary op a b =>
    refine .bind (ih.evaluate (hs.child List.mem_cons_self) (hL.begins hr .binaryLeft)) ?_
    intro x m₁ hx hg₁ _
    have hright := (hs.child (List.mem_of_mem_tail (List.mem_singleton.2 rfl))).mono hg₁
    refine .bind (ih.evaluate hright (hL.begins hr (.binaryRight hx))) ?_
    intro y m₂ _ _ _
    exact .check (fun _ h => (Value.plain_binary h).good) fun _ h =>
      Value.ordinary_of_binary hspelled h
  | logical op a b =>
    refine .bind (ih.evaluate (hs.child List.mem_cons_self) (hL.begins hr .logicalLeft)) ?_
    intro x m₁ hx hg₁ hgood
    split
    · exact .pure hgood
    · next hgoes =>
      exact ih.evaluate ((hs.child (List.mem_of_mem_tail (List.mem_singleton.2 rfl))).mono hg₁)
        (hL.begins hr (.logicalRight hx hgoes))
  | ref site => exact .lookUp site
  | this site => exact .lookUp site
  | assign site e =>
    refine .bind (ih.evaluate (hs.child (List.mem_singleton.2 rfl)) (hL.begins hr .assign)) ?_
    intro v m₁ _ hg₁ hv
    refine .bind (.assign (hs.fits.mono hg₁) hproper hresolved hspelled hv) ?_
    intro _ m₂ _ hg₂ _
    exact .pure (hv.mono hg₂.store)
  | call f paren args =>
    refine .bind (ih.evaluate (hs.child List.mem_cons_self) (hL.begins hr .callee)) ?_
    intro callee m₁ hf hg₁ hcallee
    refine .bind (ih.evaluateAll (fun e he => (hs.child
      (List.mem_cons_of_mem _ (List.mem_map_of_mem he))).mono hg₁)
      (hL.begins hr (.arguments hf))) ?_
    intro values m₂ hargs hg₂ hvalues
    exact ih.call (hcallee.mono hg₂.store) hvalues (hL.begins hr (.call hf hargs))
  | get e name =>
    refine .bind (ih.evaluate (hs.child (List.mem_singleton.2 rfl)) (hL.begins hr .get)) ?_
    intro v m₁ he _ hv
    exact .getProperty hv fun _ _ => .property hr he
  | set e name e' =>
    refine .bind (ih.evaluate (hs.child List.mem_cons_self) (hL.begins hr .setObject)) ?_
    intro v m₁ he hg₁ _
    split
    · refine .bind (ih.evaluate ((hs.child
        (List.mem_of_mem_tail (List.mem_singleton.2 rfl))).mono hg₁)
        (hL.begins hr (.setValue he))) ?_
      intro w m₂ _ _ hw
      refine .bind (.setField hw) ?_
      intro _ m₃ _ hg₃ _
      exact .pure (hw.mono hg₃.store)
    · exact .fail ⟨nofun, nofun, nofun, nofun⟩
  | super site method => exact .superMethod hL hs hr
  | lambda params body =>
    refine Leads.mono .newFunction ?_
    rintro _ m₁ hg₁ rfl
    exact ⟨hs.closure hL (List.mem_singleton.2 rfl) (.refl Γ) hproper hg₁.store
      (Store.Fits.mono hs.fits hg₁.store) none false, .created (.lambda hr)⟩

theorem evaluateAll_succ (hL : L.Lawful) (ih : LeadsOn L n) {es : List (Expr (Option Nat))}
    (hs : ∀ e ∈ es, m.Stands L Γ (.expr e)) (hr : L.reaches (n + 1) (.arguments es) m) :
    Leads L m (Run.evaluateAll (n + 1) es) fun vs m' => ∀ v ∈ vs, v.Good L m'.store := by
  cases es with
  | nil => exact .pure nofun
  | cons e es =>
    obtain ⟨he, hes⟩ := List.forall_mem_cons.1 hs
    refine .bind (ih.evaluate he (hL.begins hr .argument)) ?_
    intro v m₁ hfirst hg₁ hv
    refine .bind (ih.evaluateAll (fun e h => (hes e h).mono hg₁)
      (hL.begins hr (.moreArguments hfirst))) ?_
    intro vs m₂ _ hg₂ hvs
    exact .pure (List.forall_mem_cons.2 ⟨hv.mono hg₂.store, hvs⟩)

theorem call_succ (hL : L.Lawful) (ih : LeadsOn L n) {f : Value} {paren : Token}
    {args : List Value} (hf : f.Good L m.store) (hargs : ∀ v ∈ args, v.Good L m.store)
    (hr : L.reaches (n + 1) (.call f paren args) m) :
    Leads L m (Run.call (n + 1) f paren args) fun v m' => v.Good L m'.store := by
  unfold Run.call
  split
  · exact .fail ⟨nofun, nofun, nofun, nofun⟩
  · next callee hcallee =>
    split
    · exact .fail ⟨nofun, nofun, nofun, nofun⟩
    · next hlen =>
      have hlen := not_not.1 hlen
      refine .get ?_
      split
      · exact .fail ⟨nofun, nofun, nofun, nofun⟩
      · next hdepth =>
        exact .inCall (ih.apply (hf.callee? hcallee) hargs hlen
          (hL.begins hr (.apply hcallee hlen (Nat.lt_of_not_le hdepth)))) fun _ _ hv => hv

theorem apply_succ (hL : L.Lawful) (ih : LeadsOn L n) {callee : Callee} {args : List Value}
    (hcallee : callee.Good L m.store) (hargs : ∀ v ∈ args, v.Good L m.store)
    (hlen : args.length = callee.arity) (hr : L.reaches (n + 1) (.apply callee args) m) :
    Leads L m (Run.apply (n + 1) callee args) fun v m' => v.Good L m'.store := by
  cases callee with
  | clock => exact .readClock
  | routine r => exact ih.invoke hcallee.1 hargs hlen (hL.begins hr .routine)
  | construct c =>
    have hc : c.Good L m.store := hcallee
    refine .bind (.newObject c) ?_
    intro o m₁ hnew hg₁ ho
    have ho₁ : o.cls.Good L m₁.store := ho ▸ hc.mono hg₁.store
    split
    · exact .pure ho₁
    · next method hmethod =>
      have hdescends : o.cls.Descends c := by
        rw [ho]
        exact .refl c
      have hknows := Object.knows_of_method? hdescends hmethod
      refine .bind (.bindMethod ho₁ hknows) ?_
      rintro bound m₂ hbind hg₂ ⟨hbound, hgood⟩
      have hlen' : args.length = bound.params.length := by
        rw [hbound, hlen, Callee.arity, hmethod]
      refine .bind (ih.invoke hgood (fun v hv => (hargs v hv).mono (hg₁.trans hg₂).store) hlen'
        (hL.begins hr (.initializer hnew hmethod hbind))) ?_
      intro _ m₃ _ hg₃ _
      exact .pure (ho₁.mono (hg₂.trans hg₃).store)

theorem invoke_succ (hL : L.Lawful) (ih : LeadsOn L n) {r : Routine} {args : List Value}
    (hgood : r.Good L m.store) (hargs : ∀ v ∈ args, v.Good L m.store)
    (hlen : args.length = r.params.length) (hr : L.reaches (n + 1) (.invoke r args) m) :
    Leads L m (Run.invoke (n + 1) r args) fun v m' => v.Good L m'.store := by
  obtain ⟨hgrow, Γ, hbody⟩ := hgood.enters hL hargs hlen rfl
  refine .createFrame hgrow ?_
  refine .bind (P := fun flow m' => ∀ v, flow = .returned v → v.Good L m'.store)
    (.inFrame (ih.executeAll hbody (hL.begins hr (.body rfl))) ?_) ?_
  · rintro _ m₁ _ hflow v rfl
    exact hflow.1
  intro flow m₁ _ _ hflow
  split
  · exact .receiver r.frame
  · cases flow with
    | proceed => exact .pure trivial
    | returned v => exact .pure (hflow v rfl)

theorem executeAll_succ (hL : L.Lawful) (ih : LeadsOn L n) {ss : List Code}
    (hs : m.Stands L Γ (.stmts ss)) (hr : L.reaches (n + 1) (.run (.stmts ss)) m) :
    Leads L m (Run.executeAll (n + 1) ss) (Flow.Fine L Γ (Γ.afterAll ss)) := by
  cases ss with
  | nil => exact .pure hs.fits
  | cons s ss =>
    refine .bind (ih.execute (hs.child List.mem_cons_self) (hL.begins hr .statement)) ?_
    intro flow m₁ hfirst hg₁ hflow
    cases flow with
    | proceed =>
      refine (ih.executeAll (hs.rest hL hg₁ hflow) (hL.begins hr (.moreStatements hfirst))).mono ?_
      rintro (_ | v) m₂ _ h
      · exact h
      · exact ⟨h.1, Γ.bodyKind_after s ▸ h.2⟩
    | returned v => exact .pure hflow

theorem varInit_succ (hL : L.Lawful) (ih : LeadsOn L n) {name : Token} {e : Expr (Option Nat)}
    (hs : m.Stands L Γ (.stmt (.var name (some e))))
    (hr : L.reaches (n + 1) (.run (.stmt (.var name (some e)))) m) :
    Leads L m (Run.execute (n + 1) (.var name (some e)))
      (Flow.Fine L Γ (Γ.after (.var name (some e)))) := by
  refine .bind (ih.evaluate (hs.initializer hL) (hL.begins hr .var)) ?_
  intro v m₁ _ hg₁ hv
  have hat₁ := hs.fits.mono hg₁
  have hg₂ := Store.Grows.define (hat₁.opened (hs.proper hL)) v (hs.spelled hL)
  refine .bind (.define hat₁ (hs.proper hL) (hs.spelled hL) (hv.mono hg₂)) ?_
  intro _ m₂ _ _ hat₂
  exact .pure hat₂

/-- Neither branch of a conditional declares anything, so both leave the context as it is. -/
theorem cond_succ (hL : L.Lawful) (ih : LeadsOn L n) {test : Expr (Option Nat)} {yes : Code}
    {no : Option Code} (hs : m.Stands L Γ (.stmt (.cond test yes no)))
    (hr : L.reaches (n + 1) (.run (.stmt (.cond test yes no))) m) :
    Leads L m (Run.execute (n + 1) (.cond test yes no))
      (Flow.Fine L Γ (Γ.after (.cond test yes no))) := by
  obtain ⟨hspelledYes, hspelledNo⟩ := hs.spelled hL
  have hafter : Γ.after yes = Γ := Context.after_of_declared hspelledYes Γ
  have htest : m.Stands L Γ (.expr test) := hs.child (by cases no <;> exact List.mem_cons_self)
  have hyes : m.Stands L Γ (.stmt yes) :=
    hs.child (by cases no <;> exact List.mem_cons_of_mem _ List.mem_cons_self)
  rw [Context.after_of_declared (Stmt.declared_cond hspelledYes hspelledNo) Γ]
  refine .bind (ih.evaluate htest (hL.begins hr .condTest)) ?_
  intro v m₁ hresult hg₁ _
  split
  · next hv =>
    have h := ih.execute (hyes.mono hg₁) (hL.begins hr (.condYes hresult hv))
    rwa [hafter] at h
  · next hv =>
    cases no with
    | none => exact .pure (hs.fits.mono hg₁)
    | some no =>
      have hno : m.Stands L Γ (.stmt no) := hs.child <| by
        rw [Node.children, hafter]
        exact List.mem_cons_of_mem _ (List.mem_cons_of_mem _ List.mem_cons_self)
      have h := ih.execute (hno.mono hg₁) (hL.begins hr (.condNo hresult hv))
      rwa [Context.after_of_declared (hspelledNo no rfl) Γ] at h

theorem loop_succ (hL : L.Lawful) (ih : LeadsOn L n) {test : Expr (Option Nat)} {body : Code}
    (hs : m.Stands L Γ (.stmt (.loop test body)))
    (hr : L.reaches (n + 1) (.run (.stmt (.loop test body))) m) :
    Leads L m (Run.execute (n + 1) (.loop test body))
      (Flow.Fine L Γ (Γ.after (.loop test body))) := by
  have hbody : m.Stands L Γ (.stmt body) :=
    hs.child (List.mem_cons_of_mem _ List.mem_cons_self)
  refine .bind (ih.evaluate (hs.child List.mem_cons_self) (hL.begins hr .loopTest)) ?_
  intro v m₁ hresult hg₁ _
  split
  · next hv =>
    refine .bind (ih.execute (hbody.mono hg₁) (hL.begins hr (.loopBody hresult hv))) ?_
    intro flow m₂ hround hg₂ hflow
    cases flow with
    | proceed =>
      exact ih.execute (hs.mono (hg₁.trans hg₂)) (hL.begins hr (.loopAgain hresult hv hround))
    | returned v => exact .pure hflow
  · have hafter : Γ.after (.loop test body) = Γ := Context.after_of_declared (hs.spelled hL) Γ
    rw [hafter]
    exact .pure (hs.fits.mono hg₁)

/-- The function sees its own name, so its frame fits the scopes behind the definition. -/
theorem function_succ (hL : L.Lawful) {name : Token} {params : List Token} {body : List Code}
    (hs : m.Stands L Γ (.stmt (.function name params body)))
    (hr : L.reaches (n + 1) (.run (.stmt (.function name params body))) m) :
    Leads L m (Run.execute (n + 1) (.function name params body))
      (Flow.Fine L Γ (Γ.after (.function name params body))) := by
  have hproper := hs.proper hL
  obtain ⟨hname, -⟩ := hs.spelled hL
  refine .bind .newFunction ?_
  rintro _ m₁ - hg₁ rfl
  have hat₁ := hs.fits.mono hg₁
  refine .bind (.define hat₁ hproper hname ⟨?_, .created (.function hr)⟩) ?_
  · refine hs.closure hL (List.mem_singleton.2 rfl) (.declare Γ name.lexeme) (hproper.declare hname)
      (hg₁.store.trans (.define (hat₁.opened hproper) _ hname)) ?_ (some name.lexeme) false
    rw [← hg₁.frame]
    exact hat₁.put hproper hname _
  · intro _ m₂ _ _ hat₂
    exact .pure hat₂

theorem execute_succ (hL : L.Lawful) (ih : LeadsOn L n) {s : Code} (hs : m.Stands L Γ (.stmt s))
    (hr : L.reaches (n + 1) (.run (.stmt s)) m) :
    Leads L m (Run.execute (n + 1) s) (Flow.Fine L Γ (Γ.after s)) := by
  cases s with
  | expression e =>
    refine .bind (ih.evaluate (hs.child (List.mem_singleton.2 rfl)) (hL.begins hr .expression)) ?_
    intro _ m₁ _ hg₁ _
    exact .pure (hs.fits.mono hg₁)
  | print e =>
    refine .bind (ih.evaluate (hs.child (List.mem_singleton.2 rfl)) (hL.begins hr .print)) ?_
    intro v m₁ _ hg₁ _
    refine .bind (.printLine v.text) ?_
    intro _ m₂ _ hg₂ _
    exact .pure (hs.fits.mono (hg₁.trans hg₂))
  | var name init =>
    cases init with
    | none =>
      refine .bind (.define hs.fits (hs.proper hL) (hs.spelled hL) trivial) ?_
      intro _ m₁ _ _ hat₁
      exact .pure hat₁
    | some e => exact ih.varInit_succ hL hs hr
  | block body =>
    refine .get (.createFrame (fun hm => hm.grow_empty m.frame) ?_)
    refine .inFrame (ih.executeAll hs.block (hL.begins hr (.block rfl))) ?_
    rintro (_ | v) m₁ hg₁ hflow
    · exact Store.Fits.mono hs.fits ((Store.Grows.create m.store _ _).trans hg₁.store)
    · exact hflow
  | cond test yes no => exact ih.cond_succ hL hs hr
  | loop test body => exact ih.loop_succ hL hs hr
  | function name params body => exact function_succ hL hs hr
  | ret keyword value =>
    cases value with
    | none => exact .pure ⟨trivial, hs.resolved hL⟩
    | some e =>
      refine .bind (ih.evaluate (hs.child (List.mem_singleton.2 rfl)) (hL.begins hr .ret)) ?_
      intro v m₁ _ _ hv
      exact .pure ⟨hv, hs.resolved hL⟩
  | classDecl name superclass methods =>
    refine .bind (.declareClass hL hs hr) ?_
    intro _ m₁ _ _ hat₁
    exact .pure hat₁

end LeadsOn

/-- What a log reaches leads on from where it stands, by induction on the fuel. -/
theorem leadsOn (hL : L.Lawful) (n : Nat) : LeadsOn L n := by
  induction n with
  | zero =>
    exact ⟨fun _ _ => .outOfFuel, fun _ _ => .outOfFuel, fun _ _ _ => .outOfFuel,
      fun _ _ _ _ => .outOfFuel, fun _ _ _ _ => .outOfFuel, fun _ _ => .outOfFuel,
      fun _ _ => .outOfFuel⟩
  | succ n ih =>
    exact ⟨ih.evaluate_succ hL, ih.evaluateAll_succ hL, ih.call_succ hL, ih.apply_succ hL,
      ih.invoke_succ hL, ih.executeAll_succ hL, ih.execute_succ hL⟩

variable {n : Nat} {code : Line (Option Nat)} {m : Machine}

/-- **No `return` leaves the statements of an accepted line.** They end in the global frame, or with
an ordinary fault. -/
theorem Leads.statements (hL : L.Lawful) (hcode : L.runs code) (hat : m.At [])
    (hr : L.reaches n (.run (.stmts code.statements)) m) :
    Leads L m (executeAll n code.statements) fun flow m' => flow = .proceed ∧ m'.At [] := by
  have hs : m.Stands L [] (.stmts code.statements) := ⟨⟨code, hcode, .statements⟩, hat, .global⟩
  refine ((leadsOn hL n).executeAll hs hr).mono ?_
  rintro (_ | v) m₁ hg₁ hflow
  · exact ⟨rfl, hat.mono hg₁⟩
  · exact absurd rfl hflow.2

/-- An accepted line leads from a good machine to a good machine. -/
theorem Leads.line (hL : L.Lawful) (hcode : L.runs code) (hat : m.At [])
    (hr : L.reaches n (.run (.stmts code.statements)) m)
    (htrailing : ∀ flow m' e, executeAll n code.statements m = .ok flow m' →
      code.trailing = some e → L.reaches n (.run (.expr e)) m') :
    Leads L m (Run.line n code) fun _ _ => True := by
  refine .bind (.statements hL hcode hat hr) ?_
  rintro flow m₁ hstatements _ ⟨-, hat₁⟩
  split
  · exact .pure trivial
  · next e he =>
    have hs : m₁.Stands L [] (.expr e) := ⟨⟨code, hcode, .trailing he⟩, hat₁, .global⟩
    refine .bind ((leadsOn hL n).evaluate hs (htrailing flow m₁ e hstatements he)) ?_
    intro v m₂ _ _ _
    exact .pure trivial

end Run

end LoxLang
