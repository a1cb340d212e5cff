import LoxLang.Proofs.Grammar.Spelling
import LoxLang.Proofs.Scope.Walk

/-!
# How scopes are nested

In a tree whose names are spelled as names, the scopes around a point are nested as the forms of the
text nest them (`Context.Proper`): `this` is a name of the scopes of receivers alone and `super` of
the scopes of superclasses alone, and the scope of a superclass stands right outside that of a
receiver. A scope in which a variable is not ready stands around the initializer of that variable
only (`Line.Within.initializer`).
-/

namespace LoxLang

/-- A scope of a block or a body, in which no name reads `this` or `super`. -/
structure Scope.Plain (sc : Scope) : Prop where
  notReceiver : sc.kind ≠ .receiver
  notSuperclass : sc.kind ≠ .superclass
  this : thisName ∉ sc.names
  super : superName ∉ sc.names

/-- A plain scope is innermost, and the scopes of a class are the receiver's and, outside of it, the
superclass's. -/
inductive Context.Proper : Context → Prop
  | nil : Proper []
  | plain {sc : Scope} {Γ : Context} : sc.Plain → Proper Γ → Proper (sc :: Γ)
  | base {sc : Scope} {Γ : Context} : sc.Plain → Proper Γ → Proper (sc :: .receiver :: Γ)
  | derived {sc : Scope} {Γ : Context} : sc.Plain → Proper Γ →
      Proper (sc :: .receiver :: .superclass :: Γ)

theorem Scope.Plain.block : Scope.Plain .block := ⟨nofun, nofun, nofun, nofun⟩

theorem Scope.Plain.ofParams (kind : BodyKind) {params : List Token}
    (h : ∀ p ∈ params, p.IsName) : (Scope.ofParams kind params).Plain := by
  refine ⟨nofun, nofun, fun hthis => ?_, fun hsuper => ?_⟩
  · obtain ⟨p, hp, he⟩ := List.mem_map.1 hthis
    exact (h p hp).1 he
  · obtain ⟨p, hp, he⟩ := List.mem_map.1 hsuper
    exact (h p hp).2 he

theorem Scope.Plain.cons_name {sc sc' : Scope} {name : String} (h : sc.Plain)
    (hname : name ≠ thisName ∧ name ≠ superName) (hkind : sc'.kind = sc.kind)
    (hnames : sc'.names = name :: sc.names) : sc'.Plain := by
  refine ⟨hkind ▸ h.notReceiver, hkind ▸ h.notSuperclass, ?_, ?_⟩
  · rw [hnames]
    exact List.not_mem_cons_of_ne_of_not_mem hname.1.symm h.this
  · rw [hnames]
    exact List.not_mem_cons_of_ne_of_not_mem hname.2.symm h.super

namespace Context.Proper

variable {Γ : Context} {name : String}

/-- The innermost scope may be replaced by another plain one. -/
theorem congr_head {sc sc' : Scope} (h : Proper (sc :: Γ)) (hplain : sc.Plain → sc'.Plain) :
    Proper (sc' :: Γ) := by
  cases h with
  | plain hsc h => exact .plain (hplain hsc) h
  | base hsc h => exact .base (hplain hsc) h
  | derived hsc h => exact .derived (hplain hsc) h

theorem declare (h : Γ.Proper) (hname : name ≠ thisName ∧ name ≠ superName) :
    (Γ.declare name).Proper := by
  cases Γ with
  | nil => exact .nil
  | cons sc Γ => exact h.congr_head fun hsc => hsc.cons_name hname rfl rfl

theorem begin (h : Γ.Proper) (hname : name ≠ thisName ∧ name ≠ superName) :
    (Γ.begin name).Proper := by
  cases Γ with
  | nil => exact .nil
  | cons sc Γ => exact h.congr_head fun hsc => hsc.cons_name hname rfl rfl

theorem inClass (h : Γ.Proper) (hname : name ≠ thisName ∧ name ≠ superName) (derived : Bool)
    {sc : Scope} (hsc : sc.Plain) : Proper (sc :: Γ.inClass name derived) := by
  cases derived with
  | false => exact .base hsc (h.declare hname)
  | true => exact .derived hsc (h.declare hname)

end Context.Proper

/-! ## Nodes in their contexts -/

variable {σ : Type}

/-- The names that a statement declares are names. -/
theorem Node.Spelled.declared {s : Stmt σ} (h : (Node.stmt s).Spelled) :
    ∀ x ∈ s.declared, x ≠ thisName ∧ x ≠ superName := by
  cases s with
  | var name => exact List.forall_mem_singleton.2 h
  | function name => exact List.forall_mem_singleton.2 h.1
  | classDecl name => exact List.forall_mem_singleton.2 h.1
  | cond test yes no =>
    rw [Stmt.declared_cond h.1 h.2]
    exact List.forall_mem_nil _
  | loop test body =>
    rw [Stmt.declared, h]
    exact List.forall_mem_nil _
  | _ => exact List.forall_mem_nil _

/-- A statement that declares nothing leaves the context as it is. -/
theorem Context.after_of_declared {s : Stmt σ} (h : s.declared = []) (Γ : Context) :
    Γ.after s = Γ := by
  rw [Context.after, h]
  rfl

theorem Context.Proper.after {Γ : Context} (h : Γ.Proper) {s : Stmt σ}
    (hs : ∀ x ∈ s.declared, x ≠ thisName ∧ x ≠ superName) : (Γ.after s).Proper := by
  unfold Context.after
  generalize s.declared = names at hs
  induction names generalizing Γ with
  | nil => exact h
  | cons name names ih =>
    obtain ⟨hname, hnames⟩ := List.forall_mem_cons.1 hs
    exact ih (h.declare hname) hnames

/-- How the context of a node directly below another one comes about. -/
inductive Node.Opens (Γ : Context) : Node σ → Context → Node σ → Prop
  | here {node node' : Node σ} : (∀ e, node = .expr e → ∃ e', node' = .expr e') →
      Opens Γ node Γ node'
  | lambda {params : List Token} {body : List (Stmt σ)} :
      Opens Γ (.expr (.lambda params body)) (.ofParams .function params :: Γ) (.stmts body)
  | initializer {v : Token} {e : Expr σ} :
      Opens Γ (.stmt (.var v (some e))) (Γ.begin v.lexeme) (.expr e)
  | block {body : List (Stmt σ)} : Opens Γ (.stmt (.block body)) (.block :: Γ) (.stmts body)
  | after {s : Stmt σ} {node node' : Node σ} : (∀ e, node ≠ .expr e) →
      (Γ, .stmt s) ∈ node.children Γ → Opens Γ node (Γ.after s) node'
  | function {name : Token} {params : List Token} {body : List (Stmt σ)} :
      Opens Γ (.stmt (.function name params body))
        (.ofParams .function params :: Γ.declare name.lexeme) (.stmts body)
  | superclass {name : Token} {s : Site σ} {methods : List (Method σ)} :
      Opens Γ (.stmt (.classDecl name (some s) methods)) (Γ.declare name.lexeme) (.expr (.ref s))
  | method {name m : Token} {s : Option (Site σ)} {methods : List (Method σ)}
      {params : List Token} {body : List (Stmt σ)} : .mk m params body ∈ methods →
      Opens Γ (.stmt (.classDecl name s methods))
        (.ofParams (.ofMethod m) params :: Γ.inClass name.lexeme s.isSome) (.stmts body)

/-- Every node below another one is in one of these relations to it. -/
theorem Node.opens_of_mem_children {Γ Γ' : Context} {node node' : Node σ}
    (hc : (Γ', node') ∈ node.children Γ) : Node.Opens Γ node Γ' node' := by
  have hexpr : ∀ {node : Node σ} {e' : Expr σ}, Node.Opens Γ node Γ (.expr e') :=
    .here fun _ _ => ⟨_, rfl⟩
  cases node with
  | expr e =>
    cases e with
    | literal | ref | this | super => cases hc
    | group | unary | get | assign =>
      cases List.mem_singleton.1 hc
      exact hexpr
    | binary | logical | set =>
      simp only [Node.children, List.mem_cons, List.not_mem_nil, or_false, Prod.mk.injEq] at hc
      rcases hc with ⟨rfl, rfl⟩ | ⟨rfl, rfl⟩ <;> exact hexpr
    | call f paren args =>
      rcases List.mem_cons.1 hc with hc | hc
      · cases hc
        exact hexpr
      · obtain ⟨e, -, he⟩ := List.mem_map.1 hc
        cases he
        exact hexpr
    | lambda params body =>
      cases List.mem_singleton.1 hc
      exact .lambda
  | stmt s =>
    cases s with
    | expression | print =>
      cases List.mem_singleton.1 hc
      exact hexpr
    | ret keyword value =>
      cases value with
      | none => cases hc
      | some e =>
        cases List.mem_singleton.1 hc
        exact hexpr
    | var name init =>
      cases init with
      | none => cases hc
      | some e =>
        cases List.mem_singleton.1 hc
        exact .initializer
    | block body =>
      cases List.mem_singleton.1 hc
      exact .block
    | cond test yes no =>
      cases no with
      | none =>
        simp only [Node.children, List.mem_cons, List.not_mem_nil, or_false, Prod.mk.injEq] at hc
        rcases hc with ⟨rfl, rfl⟩ | ⟨rfl, rfl⟩
        · exact hexpr
        · exact .here nofun
      | some no =>
        simp only [Node.children, List.mem_cons, List.not_mem_nil, or_false, Prod.mk.injEq] at hc
        rcases hc with ⟨rfl, rfl⟩ | ⟨rfl, rfl⟩ | ⟨rfl, rfl⟩
        · exact hexpr
        · exact .here nofun
        · exact .after nofun (List.mem_cons_of_mem _ List.mem_cons_self)
    | loop test body =>
      simp only [Node.children, List.mem_cons, List.not_mem_nil, or_false, Prod.mk.injEq] at hc
      rcases hc with ⟨rfl, rfl⟩ | ⟨rfl, rfl⟩
      · exact hexpr
      · exact .here nofun
    | function name params body =>
      cases List.mem_singleton.1 hc
      exact .function
    | classDecl name superclass methods =>
      rcases List.mem_append.1 hc with hc | hc
      · obtain ⟨s, hs, he⟩ := List.mem_map.1 hc
        cases he
        cases Option.mem_toList.1 hs
        exact .superclass
      · obtain ⟨⟨m, params, body⟩, hm, he⟩ := List.mem_map.1 hc
        cases he
        exact .method hm
  | stmts ss =>
    cases ss with
    | nil => cases hc
    | cons s ss =>
      simp only [Node.children, List.mem_cons, List.not_mem_nil, or_false, Prod.mk.injEq] at hc
      rcases hc with ⟨rfl, rfl⟩ | ⟨rfl, rfl⟩
      · exact .here nofun
      · exact .after nofun List.mem_cons_self

/-- The context is properly nested around a node, and no initializer is being resolved where a
statement stands. -/
structure Node.Placed (Γ : Context) (node : Node σ) : Prop where
  proper : Γ.Proper
  settled : (∀ e, node ≠ .expr e) → Γ.Settled

namespace Node.Placed

variable {Γ : Context} {node : Node σ}

theorem expr {e : Expr σ} (h : Γ.Proper) : Placed Γ (.expr e) := ⟨h, fun he => absurd rfl (he e)⟩

/-- A body is placed in its scope of parameters. -/
theorem body {kind : BodyKind} {params : List Token} {ss : List (Stmt σ)}
    (h : Context.Proper (.ofParams kind params :: Γ)) :
    Placed (.ofParams kind params :: Γ) (.stmts ss) :=
  ⟨h, fun _ => .ofParams kind params Γ⟩

/-- What is placed and spelled as it should be has its parts placed. -/
theorem child (h : Placed Γ node) (hs : Node.Everywhere (fun _ => Node.Spelled) Γ node)
    {Γ' : Context} {node' : Node σ} (hc : (Γ', node') ∈ node.children Γ) : Placed Γ' node' := by
  have hspelled := hs.here
  cases Node.opens_of_mem_children hc with
  | here hexpr =>
    refine ⟨h.proper, fun hne => h.settled fun e he => ?_⟩
    obtain ⟨e', he'⟩ := hexpr e he
    exact hne e' he'
  | lambda => exact .body (.plain (.ofParams _ hspelled) h.proper)
  | initializer => exact .expr (h.proper.begin hspelled)
  | block => exact ⟨.plain .block h.proper, fun _ => .block Γ⟩
  | @after s _ _ hne hs' =>
    have hs := (hs.child hs').here
    exact ⟨h.proper.after hs.declared, fun _ => (h.settled hne).after s⟩
  | function => exact .body (.plain (.ofParams _ hspelled.2) (h.proper.declare hspelled.1))
  | superclass => exact .expr (h.proper.declare hspelled.1)
  | method hm =>
    exact .body (h.proper.inClass hspelled.1 _ (.ofParams _ (hspelled.2 _ hm)))

end Node.Placed

/-- Every node of a line is placed, if the line is spelled as it should be. -/
theorem Line.Within.placed {line : Line σ} (hline : line.Everywhere fun _ => Node.Spelled)
    {Γ : Context} {node : Node σ} (hw : line.Within Γ node) : node.Placed Γ := by
  induction hw with
  | statements => exact ⟨.nil, fun _ => .nil⟩
  | trailing => exact .expr .nil
  | child hw hc ih => exact ih.child (hline.within hw) hc

/-! ## Initializers -/

/-- The nodes of a tree, each in its context; the root stands in the context `Γ₀`. -/
inductive Node.Inside (Γ₀ : Context) (root : Node σ) : Context → Node σ → Prop
  | root : Inside Γ₀ root Γ₀ root
  | child {Γ Γ' : Context} {node node' : Node σ} : Inside Γ₀ root Γ node →
      (Γ', node') ∈ node.children Γ → Inside Γ₀ root Γ' node'

/-- Inside an expression, scopes are only opened by functions. -/
theorem Node.Inside.of_expr {Γ₀ Γ : Context} {e : Expr σ} {node : Node σ}
    (h : Node.Inside Γ₀ (.expr e) Γ node) : (Γ = Γ₀ ∧ ∃ e', node = .expr e') ∨
      ∃ params body, Node.Inside Γ₀ (.expr e) Γ₀ (.expr (.lambda params body)) ∧
        Node.Inside Γ₀ (.expr (.lambda params body)) Γ node := by
  induction h with
  | root => exact .inl ⟨rfl, e, rfl⟩
  | child h hc ih =>
    rcases ih with ⟨rfl, e', rfl⟩ | ⟨params, body, hlambda, hinside⟩
    · cases Node.opens_of_mem_children hc with
      | here hexpr => exact .inl ⟨rfl, hexpr e' rfl⟩
      | lambda => exact .inr ⟨_, _, h, .child .root hc⟩
      | after hne => exact absurd rfl (hne e')
    · exact .inr ⟨params, body, hlambda, .child hinside hc⟩

/-- The scopes that wait for an initializer stand outside of the innermost one of a statement. -/
theorem Context.Settled.suffix_tail {Γ outer : Context} {sc : Scope} {x : String} (h : Γ.Settled)
    (hs : sc :: outer <:+ Γ) (hx : sc.pending = some x) : sc :: outer <:+ Γ.tail := by
  cases Γ with
  | nil => exact absurd (List.suffix_nil.1 hs) (List.cons_ne_nil sc outer)
  | cons sc' Γ =>
    rcases List.suffix_cons_iff.1 hs with he | hs
    · cases he
      rw [(h sc rfl).1] at hx
      cases hx
    · exact hs

/-- A scope that waits for an initializer waited already around the node above, unless that is the
variable itself. -/
theorem Node.Opens.waiting {Γ Γ' outer : Context} {node node' : Node σ} {sc : Scope} {x : String}
    (h : Node.Opens Γ node Γ' node') (hplaced : node.Placed Γ) (hs : sc :: outer <:+ Γ')
    (hx : sc.pending = some x) : sc :: outer <:+ Γ ∨ ∃ v e, node = .stmt (.var v (some e)) ∧
      node' = .expr e ∧ v.lexeme = x ∧ Γ' = sc :: outer := by
  have hsettled : ∀ {Γ₁ : Context}, Γ₁.Settled → Γ₁.tail = Γ.tail → sc :: outer <:+ Γ₁ →
      sc :: outer <:+ Γ :=
    fun h₁ htail hs₁ => ((htail ▸ h₁.suffix_tail hs₁ hx).trans (List.tail_suffix Γ))
  have hinner : ∀ {sc' : Scope} {Γ₁ : Context}, sc'.pending = none → sc :: outer <:+ sc' :: Γ₁ →
      sc :: outer <:+ Γ₁ := by
    intro sc' Γ₁ hnone hs₁
    rcases List.suffix_cons_iff.1 hs₁ with he | hs₁
    · cases he
      rw [hnone] at hx
      cases hx
    · exact hs₁
  cases h with
  | here => exact .inl hs
  | lambda => exact .inl (hinner rfl hs)
  | @initializer v e =>
    cases Γ with
    | nil => exact .inl hs
    | cons sc₀ Γ =>
      rcases List.suffix_cons_iff.1 hs with he | hs'
      · refine .inr ⟨v, e, rfl, rfl, ?_, he.symm⟩
        cases he
        have hnone := (hplaced.settled nofun sc₀ rfl).1
        unfold Scope.begin at hx
        dsimp only at hx
        split at hx
        · rw [hnone] at hx
          cases hx
        · exact Option.some.inj hx
      · exact .inl (hs'.trans (List.suffix_cons sc₀ Γ))
  | block => exact .inl (hinner rfl hs)
  | @after s _ _ hne _ =>
    exact .inl (hsettled ((hplaced.settled hne).after s) (Γ.tail_after s) hs)
  | @function name =>
    exact .inl (hsettled ((hplaced.settled nofun).declare _) (Γ.tail_declare name.lexeme)
      (hinner rfl hs))
  | @superclass name =>
    exact .inl (hsettled ((hplaced.settled nofun).declare _) (Γ.tail_declare name.lexeme) hs)
  | @method name _ s =>
    have hs' := hinner rfl hs
    unfold Context.inClass at hs'
    have hdeclared : sc :: outer <:+ Γ.declare name.lexeme := by
      cases s with
      | none => exact hinner rfl hs'
      | some s => exact hinner rfl (hinner rfl hs')
    exact .inl (hsettled ((hplaced.settled nofun).declare _) (Γ.tail_declare name.lexeme) hdeclared)

/-- **A variable is not ready inside its initializer only.** -/
theorem Line.Within.initializer {line : Line σ} (hline : line.Everywhere fun _ => Node.Spelled)
    {Γ outer : Context} {node : Node σ} (hw : line.Within Γ node) {sc : Scope} {x : String}
    (hs : sc :: outer <:+ Γ) (hx : sc.pending = some x) :
    ∃ Γ₀ v e, line.Within Γ₀ (.stmt (.var v (some e))) ∧ v.lexeme = x ∧
      Γ₀.begin x = sc :: outer ∧ Node.Inside (sc :: outer) (.expr e) Γ node := by
  induction hw with
  | statements => exact absurd (List.suffix_nil.1 hs) (List.cons_ne_nil sc outer)
  | trailing => exact absurd (List.suffix_nil.1 hs) (List.cons_ne_nil sc outer)
  | @child Γ _ _ _ hw hc ih =>
    have hopens := Node.opens_of_mem_children hc
    rcases hopens.waiting (hw.placed hline) hs hx with hs | ⟨v, e, rfl, rfl, rfl, rfl⟩
    · obtain ⟨Γ₀, v, e, hvar, hname, hbegin, hinside⟩ := ih hs
      exact ⟨Γ₀, v, e, hvar, hname, hbegin, .child hinside hc⟩
    · have hbegin := (Prod.mk.inj (List.mem_singleton.1 hc)).1
      exact ⟨Γ, v, e, hw, rfl, hbegin.symm, .root⟩

/-! ## Distances -/

/-- The scope at the distance of a name has the name. -/
theorem Context.split_of_distance? {Γ : Context} {x : String} {d : Nat}
    (h : Γ.distance? x = some d) :
    ∃ inner sc outer, Γ = inner ++ sc :: outer ∧ inner.length = d ∧ x ∈ sc.names := by
  obtain ⟨hd, hx, -⟩ := List.findIdx?_eq_some_iff_getElem.1 h
  refine ⟨Γ.take d, Γ[d], Γ.drop (d + 1), ?_, ?_, of_decide_eq_true hx⟩
  · rw [← List.drop_eq_getElem_cons hd, List.take_append_drop]
  · rw [List.length_take, Nat.min_eq_left (Nat.le_of_lt hd)]

theorem Context.distance?_isSome {Γ : Context} {x : String} {sc : Scope} (hsc : sc ∈ Γ)
    (hx : x ∈ sc.names) : ∃ d, Γ.distance? x = some d := by
  rw [← Option.isSome_iff_exists, Context.distance?, List.findIdx?_isSome, List.any_eq_true]
  exact ⟨sc, hsc, decide_eq_true hx⟩

/-- The scopes in front of the innermost one with a name count towards its distance. -/
theorem Context.distance?_cons {sc : Scope} {Γ : Context} {x : String} (h : x ∉ sc.names) :
    Context.distance? (sc :: Γ) x = (Γ.distance? x).map (· + 1) := by
  unfold Context.distance?
  rw [List.findIdx?_cons, if_neg (by simpa using h)]

theorem Context.distance?_append {inner : Context} {x : String}
    (h : ∀ sc ∈ inner, x ∉ sc.names) {sc : Scope} (hx : x ∈ sc.names) (outer : Context) :
    Context.distance? (inner ++ sc :: outer) x = some inner.length := by
  induction inner with
  | nil =>
    unfold Context.distance?
    rw [List.nil_append, List.findIdx?_cons, if_pos (by simpa using hx)]
    rfl
  | cons sc' inner ih =>
    obtain ⟨hsc', hinner⟩ := List.forall_mem_cons.1 h
    rw [List.cons_append, distance?_cons hsc', ih hinner]
    rfl

/-- A plain scope does not bear on the class around. -/
theorem Scope.Plain.classKind {sc : Scope} (h : sc.Plain) (Γ : Context) :
    Context.classKind (sc :: Γ) = Γ.classKind := by
  obtain ⟨kind, names, pending⟩ := sc
  cases kind with
  | block | body | superclass => rfl
  | receiver => exact absurd rfl h.notReceiver

namespace Context.Proper

variable {Γ : Context}

/-- The innermost scope is plain. -/
theorem plain_of_head? (h : Γ.Proper) : ∀ sc ∈ Γ.head?, sc.Plain := by
  rintro sc hsc
  cases h with
  | nil => cases hsc
  | plain hplain | base hplain | derived hplain =>
    cases hsc
    exact hplain

theorem plain_head {sc : Scope} (h : Proper (sc :: Γ)) : sc.Plain := h.plain_of_head? sc rfl

theorem scope (h : Γ.Proper) {sc : Scope} (hsc : sc ∈ Γ) :
    sc.Plain ∨ sc = .receiver ∨ sc = .superclass := by
  induction h with
  | nil => cases hsc
  | plain hplain _ ih =>
    rcases List.mem_cons.1 hsc with rfl | hsc
    · exact .inl hplain
    · exact ih hsc
  | base hplain _ ih =>
    rcases List.mem_cons.1 hsc with rfl | hsc
    · exact .inl hplain
    · rcases List.mem_cons.1 hsc with rfl | hsc
      · exact .inr (.inl rfl)
      · exact ih hsc
  | derived hplain _ ih =>
    rcases List.mem_cons.1 hsc with rfl | hsc
    · exact .inl hplain
    · rcases List.mem_cons.1 hsc with rfl | hsc
      · exact .inr (.inl rfl)
      · rcases List.mem_cons.1 hsc with rfl | hsc
        · exact .inr (.inr rfl)
        · exact ih hsc

/-- Only the scope of a receiver has the name `this`. -/
theorem eq_receiver (h : Γ.Proper) {sc : Scope} (hsc : sc ∈ Γ) (hthis : thisName ∈ sc.names) :
    sc = .receiver := by
  rcases h.scope hsc with hplain | rfl | rfl
  · exact absurd hthis hplain.this
  · rfl
  · exact absurd hthis (by decide)

/-- Inside a class there is the scope of a receiver. -/
theorem receiver_mem (h : Γ.Proper) (hcls : Γ.classKind ≠ .outside) : Scope.receiver ∈ Γ := by
  induction h with
  | nil => exact absurd rfl hcls
  | plain hplain _ ih =>
    rw [hplain.classKind] at hcls
    exact List.mem_cons_of_mem _ (ih hcls)
  | base | derived => exact List.mem_cons_of_mem _ List.mem_cons_self

/-- In a derived class, the innermost scopes that are not plain are those of the receiver and, right
outside of it, the superclass. -/
theorem split_of_derived (h : Γ.Proper) (hcls : Γ.classKind = .derived) :
    ∃ inner outer, Γ = inner ++ .receiver :: .superclass :: outer ∧ ∀ sc ∈ inner, sc.Plain := by
  induction h with
  | nil => cases hcls
  | @plain sc Γ hplain _ ih =>
    rw [hplain.classKind] at hcls
    obtain ⟨inner, outer, rfl, hinner⟩ := ih hcls
    exact ⟨sc :: inner, outer, rfl, List.forall_mem_cons.2 ⟨hplain, hinner⟩⟩
  | @base sc Γ hplain h _ =>
    rw [hplain.classKind,
      classKind_receiver fun sc hsc => (h.plain_of_head? sc hsc).notSuperclass] at hcls
    cases hcls
  | @derived sc Γ hplain => exact ⟨[sc], Γ, rfl, List.forall_mem_singleton.2 hplain⟩

/-- In a derived class, the scope of the superclass stands one further out than that of the
receiver. -/
theorem distance?_of_derived (h : Γ.Proper) (hcls : Γ.classKind = .derived) :
    ∃ inner outer, Γ = inner ++ .receiver :: .superclass :: outer ∧
      Γ.distance? thisName = some inner.length ∧
      Γ.distance? superName = some (inner.length + 1) := by
  obtain ⟨inner, outer, rfl, hplain⟩ := h.split_of_derived hcls
  have hsuper : Context.distance? ((inner ++ [Scope.receiver]) ++ .superclass :: outer) superName =
      some (inner ++ [Scope.receiver]).length :=
    Context.distance?_append
      (List.forall_mem_append.2 ⟨fun sc hsc => (hplain sc hsc).super, by decide⟩)
      List.mem_cons_self _
  rw [List.append_assoc, List.length_append] at hsuper
  exact ⟨inner, outer, rfl, Context.distance?_append (fun sc hsc => (hplain sc hsc).this)
    List.mem_cons_self _, hsuper⟩

end Context.Proper

end LoxLang
