import LoxLang.Proofs.Grammar.Precedence
import LoxLang.Proofs.Grammar.Sound
import LoxLang.Proofs.Grammar.Spelling

/-!
# What is read can be derived
-/

namespace LoxLang

/-- What an expression that an assignment can have as its target is read from: a name, or a call,
a dot and a name. -/
def Expr.Target (e : Expr Unit) (w : List Token) : Prop :=
  match e with
  | .ref s => w = [s.name] ∧ s.name.kind = .identifier
  | .get _ name => name.kind = .identifier ∧
      ∃ u d, w = u ++ [d, name] ∧ d.kind = .dot ∧ Derives (.sym .call) u
  | _ => True

theorem Expr.target_join (op : Token) (left right : Expr Unit) (w : List Token) :
    (Expr.join op left right).Target w := by
  unfold Expr.join
  split <;> trivial

theorem Expr.allSpelled_join {op : Token} {k : Nat} (hop : op.kind.level? = some k)
    {left right : Expr Unit} (hl : (Node.expr left).AllSpelled)
    (hr : (Node.expr right).AllSpelled) : (Node.expr (.join op left right)).AllSpelled := by
  intro Γ
  unfold Expr.join
  split
  · exact .two trivial rfl (hl Γ) (hr Γ)
  · exact .two trivial rfl (hl Γ) (hr Γ)
  · next hor hand =>
    refine .two ⟨k, hop, ?_⟩ rfl (hl Γ) (hr Γ)
    unfold Kind.level? at hop
    split at hop
    · next h => exact absurd h hor
    · next h => exact absurd h hand
    all_goals cases hop <;> decide

/-- A call goes on with a suffix. -/
theorem Derives.call_suffix {u v : List Token} (hu : Derives (.sym .call) u)
    (hv : Derives .suffix v) : Derives (.sym .call) (u ++ v) := by
  obtain ⟨x, y, rfl, hx, hy⟩ := seq_iff.1 (sym_iff.1 hu)
  have hv' := star_append hy (.starCons hv .starNil)
  rw [List.append_nil] at hv'
  rw [List.append_assoc]
  exact .sym (.seq hx hv')

namespace Reading

/-- What a limited list with commas is read from, where `count` entries have been read already. -/
def Listed {α : Type} (a : Rhs) (good : α → Prop) (count : Nat) (xs : List α) (w : List Token) :
    Prop :=
  count < mostArguments ∧ Derives (a ++ .upTo (254 - count) (.token .comma ++ a)) w ∧
    (AllSpelled w → ∀ x ∈ xs, good x)

/-- A list is read from its entries. -/
theorem Sound.listed {α : Type} {a : Rhs} {good : α → Prop} {count : Nat} {cause : GrammarCause}
    {item : Reading α} {more : Reading (List α)}
    (hitem : Sound none item fun x w => Derives a w ∧ (AllSpelled w → good x))
    (hmore : Sound none more (Listed a good (count + 1))) :
    Sound none (do
      if mostArguments ≤ count then Reading.note cause
      let x ← item
      if ← Reading.accept .comma then return x :: (← more) else return [x])
      (Listed a good count) := by
  have hrest : Sound none (do
      let x ← item
      if ← Reading.accept .comma then return x :: (← more) else return [x]) fun xs w =>
        count < mostArguments → Listed a good count xs w := by
    refine .bind hitem fun x => .bind .accept fun comma => ?_
    cases comma with
    | true =>
      refine .bind hmore fun xs => .pure ?_
      rintro v ⟨hcount', hv, hxs⟩ _ ⟨t, rfl, ht⟩ u ⟨hu, hx⟩ hcount
      obtain ⟨y, z, rfl, hy, hz⟩ := Derives.seq_iff.1 hv
      refine ⟨hcount, ?_, fun h => ?_⟩
      · have hsucc : 254 - count = 254 - (count + 1) + 1 := by
          unfold mostArguments at hcount'
          omega
        have hmany := Derives.upToCons (.seq (.token ht) hy) hz
        rw [hsucc]
        simpa using Derives.seq hu hmany
      · simp only [List.append_nil, allSpelled_append] at h
        exact List.forall_mem_cons.2 ⟨hx h.1, hxs (allSpelled_append.2 h.2.2)⟩
    | false =>
      refine .pure ?_
      rintro _ rfl u ⟨hu, hx⟩ hcount
      refine ⟨hcount, .seq hu .upToNil, fun h => ?_⟩
      exact List.forall_mem_singleton.2 (hx (allSpelled_append.1 h).1)
  dsimp only
  split
  · exact .bind (.note cause) fun _ => hrest.mono fun _ _ _ _ => False.elim
  · next hcount => exact hrest.mono fun _ _ h => h (Nat.lt_of_not_le hcount)

/-- Where an error is recorded instead of a declaration nothing is promised. -/
theorem Sound.declaration {n : Nat} {P : Stmt Unit → List Token → Prop}
    (hdeclared : Sound none (declared n) P) :
    Sound none (Reading.declaration (n + 1)) fun o w => ∃ s ∈ o, P s w := by
  intro c hc ht
  have h := hdeclared c hc ht
  unfold Reading.declaration
  generalize Reading.declared n c = x at h
  cases h with
  | ok hc' hP => exact .ok hc' fun he => ⟨_, rfl, hP he⟩
  | outOfFuel => exact .outOfFuel
  | @error e c' w hc' =>
    obtain ⟨v, hv⟩ := skipFaulty_suffix c'.rest
    have hresume : c'.Ahead (c'.resume e) v := ⟨hv.symm, rfl, List.suffix_cons _ _⟩
    refine .ok (hc'.trans hresume) fun he => ?_
    have hlen := congrArg List.length (hc'.errors_eq hresume he).2
    exact absurd hlen (Nat.succ_ne_self _)

/-- All readings on the given fuel are sound: the tokens can be derived from the symbol that is
read, and the tree is spelled as it should be if the tokens are. -/
structure SoundOn (n : Nat) : Prop where
  assignment : Sound none (assignment n) fun e w =>
    Derives (.sym .assignment) w ∧ (AllSpelled w → (Node.expr e).AllSpelled)
  operators : ∀ l, Sound none (operators n l) fun e w =>
    (∃ (u : List Token) (ts : Chain), w = u ++ ts.word ∧ Derives (.sym .unary) u ∧ ts.Binds l) ∧
      e.Target w ∧ (AllSpelled w → (Node.expr e).AllSpelled)
  operatorsAfter : ∀ l left, Sound none (operatorsAfter n l left) fun e v =>
    ∃ ts : Chain, v = ts.word ∧ ts.Binds l ∧ (∀ u, left.Target u → e.Target (u ++ v)) ∧
      (AllSpelled v → (Node.expr left).AllSpelled → (Node.expr e).AllSpelled)
  unary : Sound none (unary n) fun e w =>
    Derives (.sym .unary) w ∧ e.Target w ∧ (AllSpelled w → (Node.expr e).AllSpelled)
  suffixes : ∀ e₀, Sound none (suffixes n e₀) fun e v =>
    Derives (.star .suffix) v ∧
      (∀ u, Derives (.sym .call) u → e₀.Target u → e.Target (u ++ v)) ∧
      (AllSpelled v → (Node.expr e₀).AllSpelled → (Node.expr e).AllSpelled)
  arguments : ∀ count, Sound none (arguments n count)
    (Listed (.sym .expression) (fun e => (Node.expr e).AllSpelled) count)
  primary : Sound none (primary n) fun e w =>
    Derives (.sym .primary) w ∧ e.Target w ∧ (AllSpelled w → (Node.expr e).AllSpelled)
  routine : ∀ role, Sound none (routine n role) fun r w =>
    Derives (.opt (.sym .parameters) ++ .token .rightParen ++ .sym .block) w ∧
      (AllSpelled w → (∀ p ∈ r.1, p.IsName) ∧ (Node.stmts r.2).AllSpelled)
  block : Sound none (block n) fun ss w =>
    Derives (.star (.sym .declaration) ++ .token .rightBrace) w ∧
      (AllSpelled w → (Node.stmts ss).AllSpelled)
  declaration : Sound none (declaration n) fun o w =>
    ∃ s ∈ o, Derives (.sym .declaration) w ∧ (AllSpelled w → (Node.stmt s).AllSpelled)
  declared : Sound none (declared n) fun s w =>
    Derives (.sym .declaration) w ∧ (AllSpelled w → (Node.stmt s).AllSpelled)
  classDeclared : Sound none (classDeclared n) fun s w =>
    (∀ t : Token, t.kind = .kwClass → Derives (.sym .classDecl) (t :: w)) ∧
      (AllSpelled w → (Node.stmt s).AllSpelled)
  methods : Sound none (methods n) fun ms w =>
    Derives (.star (.sym .function)) w ∧
      (AllSpelled w → ∀ m ∈ ms, (∀ p ∈ m.params, p.IsName) ∧ ∀ Γ, (m.node Γ).2.AllSpelled)
  named : ∀ role, Sound none (named n role) fun r w =>
    Derives (.sym .function) w ∧
      (AllSpelled w → r.1.IsName ∧ (∀ p ∈ r.2.1, p.IsName) ∧ (Node.stmts r.2.2).AllSpelled)
  variableDeclared : Sound none (variableDeclared n) fun s w =>
    (∀ t : Token, t.kind = .kwVar → Derives (.sym .varDecl) (t :: w)) ∧
      (AllSpelled w → (Node.stmt s).AllSpelled)
  expressionStatement : Sound none (expressionStatement n) fun s w =>
    Derives (.sym .exprStmt) w ∧ s.declared = [] ∧ (AllSpelled w → (Node.stmt s).AllSpelled)
  forStatement : Sound none (forStatement n) fun s w =>
    (∀ t : Token, t.kind = .kwFor → Derives (.sym .forStmt) (t :: w)) ∧ s.declared = [] ∧
      (AllSpelled w → (Node.stmt s).AllSpelled)
  statement : Sound none (statement n) fun s w =>
    Derives (.sym .statement) w ∧ s.declared = [] ∧ (AllSpelled w → (Node.stmt s).AllSpelled)

namespace SoundOn

variable {n : Nat}

/-! ## Expressions -/

theorem assignment_succ (ih : SoundOn n) : Sound none (Reading.assignment (n + 1)) fun e w =>
    Derives (.sym .assignment) w ∧ (AllSpelled w → (Node.expr e).AllSpelled) := by
  refine .bind (ih.operators 0) fun e => .peek fun equals => ?_
  split
  · next heq =>
    refine .bind (.advance (by rw [heq]; nofun)) fun _ => .bind ih.assignment fun value => ?_
    cases e with
    | ref s =>
      refine .pure ?_
      rintro v ⟨hv, hvalue⟩ _ rfl u ⟨-, ⟨rfl, hs⟩, -⟩
      rw [List.append_nil]
      refine ⟨.sym (.left ?_), fun h => ?_⟩
      · exact .seq (u := [s.name, equals])
          (.seq (u := [s.name]) (.seq (u := []) .optNone (.token hs)) (.token heq)) hv
      · obtain ⟨hname, -, h⟩ := by simpa using h
        exact fun Γ => .one (hname.name hs) rfl (hvalue h Γ)
    | get object name =>
      refine .pure ?_
      rintro v ⟨hv, hvalue⟩ _ rfl u ⟨-, ⟨hname, u, d, rfl, hd, hcall⟩, hobject⟩
      refine ⟨.sym (.left ?_), fun h => ?_⟩
      · have hw := Derives.seq (.seq (.seq (.optSome (.seq hcall (.token hd))) (.token hname))
          (.token heq)) hv
        simpa using hw
      · simp only [allSpelled_append, allSpelled_cons] at h
        obtain ⟨htarget, -, hv, -⟩ := h
        intro Γ
        have hget := hobject (by simpa using htarget) Γ
        exact .two trivial rfl (hget.child List.mem_cons_self) (hvalue hv Γ)
    | _ => exact .throw _
  · refine .pure ?_
    rintro u ⟨⟨u, ts, rfl, hu, hts⟩, -, hspelled⟩
    rw [List.append_nil]
    exact ⟨.sym (.right ((derives_ofLevel_iff (Nat.zero_le 6)).2 ⟨u, ts, rfl, hu, hts⟩)), hspelled⟩

theorem operators_succ (ih : SoundOn n) (l : Nat) :
    Sound none (Reading.operators (n + 1) l) fun e w =>
      (∃ (u : List Token) (ts : Chain), w = u ++ ts.word ∧ Derives (.sym .unary) u ∧ ts.Binds l) ∧
        e.Target w ∧ (AllSpelled w → (Node.expr e).AllSpelled) := by
  refine .bind ih.unary fun left => (ih.operatorsAfter l left).mono ?_
  rintro e v ⟨ts, rfl, hts, htarget, hspelled⟩ u ⟨hu, hleft, hl⟩
  refine ⟨⟨u, ts, rfl, hu, hts⟩, htarget u hleft, fun h => ?_⟩
  obtain ⟨h₁, h₂⟩ := allSpelled_append.1 h
  exact hspelled h₂ (hl h₁)

theorem operatorsAfter_succ (ih : SoundOn n) (l : Nat) (left : Expr Unit) :
    Sound none (Reading.operatorsAfter (n + 1) l left) fun e v =>
      ∃ ts : Chain, v = ts.word ∧ ts.Binds l ∧ (∀ u, left.Target u → e.Target (u ++ v)) ∧
        (AllSpelled v → (Node.expr left).AllSpelled → (Node.expr e).AllSpelled) := by
  have hdone : ∀ {front : Option Token}, Sound front (pure left) fun e v =>
      ∃ ts : Chain, v = ts.word ∧ ts.Binds l ∧ (∀ u, left.Target u → e.Target (u ++ v)) ∧
        (AllSpelled v → (Node.expr left).AllSpelled → (Node.expr e).AllSpelled) := by
    refine .pure ⟨[], rfl, nofun, fun u hu => ?_, fun _ h => h⟩
    rwa [List.append_nil]
  refine .peek fun op => ?_
  split
  · exact hdone
  · next k hk =>
    split
    · next hl =>
      refine .bind (.advance fun h => by rw [h] at hk; cases hk) fun _ => ?_
      refine .bind (ih.operators (k + 1)) fun right => ?_
      refine (ih.operatorsAfter l (.join op left right)).mono ?_
      rintro e v ⟨ts, rfl, hts, htarget, hspelled⟩ w ⟨⟨u, us, rfl, hu, hus⟩, -, hright⟩ _ rfl
      refine ⟨(op, u) :: (us ++ ts), ?_, ?_, fun x hx => ?_, fun h hleft => ?_⟩
      · simp [Chain.word_append]
      · exact List.forall_mem_cons.2
          ⟨⟨⟨k, hk, hl⟩, hu⟩, (hus.mono (Nat.le_succ_of_le hl)).append hts⟩
      · have ht := htarget (x ++ ([op] ++ (u ++ us.word))) (Expr.target_join op left right _)
        simpa using ht
      · simp only [allSpelled_append, allSpelled_cons] at h
        obtain ⟨-, hw, hts⟩ := h
        exact hspelled hts (Expr.allSpelled_join hk hleft (hright (allSpelled_append.2 hw)))
    · exact hdone

theorem unary_succ (ih : SoundOn n) : Sound none (Reading.unary (n + 1)) fun e w =>
    Derives (.sym .unary) w ∧ e.Target w ∧ (AllSpelled w → (Node.expr e).AllSpelled) := by
  have hprefix : ∀ op : Token, op.kind = .bang ∨ op.kind = .minus →
      Sound (some op) (do Reading.advance; return .unary op (← Reading.unary n)) fun e w =>
        Derives (.sym .unary) w ∧ e.Target w ∧ (AllSpelled w → (Node.expr e).AllSpelled) := by
    intro op hop
    refine .bind (.advance fun h => by rw [h] at hop; cases hop <;> contradiction) fun _ => ?_
    refine .bind ih.unary fun e => .pure ?_
    rintro w ⟨hw, -, hspelled⟩ _ rfl
    rw [List.append_nil]
    refine ⟨.sym (.left (.seq (Derives.alt_iff.2 (hop.imp .token .token)) hw)), trivial,
      fun h => ?_⟩
    exact fun Γ => .one hop rfl (hspelled (allSpelled_append.1 h).2 Γ)
  refine .peek fun op => ?_
  split
  · next hop => exact hprefix op (.inl hop)
  · next hop => exact hprefix op (.inr hop)
  · refine .bind ih.primary.anywhere fun e => (ih.suffixes e).mono ?_
    rintro e' v ⟨hv, htarget, hspelled⟩ u ⟨hu, ht, hs⟩
    have hcall : Derives (.sym .call) u := by
      have hu' := Derives.seq hu (Derives.starNil (a := .suffix))
      rw [List.append_nil] at hu'
      exact .sym hu'
    refine ⟨.sym (.right (.sym (.seq hu hv))), htarget u hcall ht, fun h => ?_⟩
    obtain ⟨h₁, h₂⟩ := allSpelled_append.1 h
    exact hspelled h₂ (hs h₁)

theorem suffixes_succ (ih : SoundOn n) (e₀ : Expr Unit) :
    Sound none (Reading.suffixes (n + 1) e₀) fun e v =>
      Derives (.star .suffix) v ∧
        (∀ u, Derives (.sym .call) u → e₀.Target u → e.Target (u ++ v)) ∧
        (AllSpelled v → (Node.expr e₀).AllSpelled → (Node.expr e).AllSpelled) := by
  refine .peek fun t => ?_
  split
  · next ht =>
    refine .bind (.advance (by simp [ht])) fun _ => ?_
    refine .bind (.unlessAt _ (ih.arguments 0)) fun args => ?_
    refine .bind (.expect _) fun paren => ?_
    refine (ih.suffixes (.call e₀ paren (args.getD []))).mono ?_
    rintro e v ⟨hv, htarget, hspelled⟩ _ ⟨rfl, hparen⟩ w hargs _ rfl
    have hlist : Derives (.opt (.sym .arguments)) w := by
      obtain ⟨-, rfl⟩ | ⟨args, -, -, hw, -⟩ := hargs
      · exact .optNone
      · exact .optSome (.sym hw)
    have hsuffix : Derives .suffix (t :: (w ++ [paren])) := by
      have h := Derives.seq (.seq (.token ht) hlist) (.token hparen)
      exact .left (by simpa using h)
    refine ⟨?_, fun u hu _ => ?_, fun h he₀ => ?_⟩
    · simpa using Derives.starCons hsuffix hv
    · have hcall := Derives.call_suffix hu hsuffix
      simpa using htarget _ hcall trivial
    · simp only [allSpelled_append, allSpelled_cons] at h
      obtain ⟨-, hw, -, hv⟩ := h
      refine hspelled hv fun Γ => .intro trivial (List.forall_mem_cons.2 ⟨he₀ Γ, ?_⟩)
      refine List.forall_mem_map.2 fun e he => ?_
      obtain ⟨rfl, -⟩ | ⟨es, hes, -, -, hspell⟩ := hargs
      · cases he
      · cases hes
        exact hspell hw e he Γ
  · next ht =>
    refine .bind (.advance (by simp [ht])) fun _ => ?_
    refine .bind (.expect _) fun name => ?_
    refine (ih.suffixes (.get e₀ name)).mono ?_
    rintro e v ⟨hv, htarget, hspelled⟩ _ ⟨rfl, hname⟩ _ rfl
    have hsuffix : Derives .suffix [t, name] := .right (.seq (.token ht) (.token hname))
    refine ⟨.starCons (u := [t, name]) hsuffix hv, fun u hu _ => ?_, fun h he₀ => ?_⟩
    · have hcall := Derives.call_suffix hu hsuffix
      simpa using htarget _ hcall ⟨hname, u, t, rfl, ht, hu⟩
    · simp only [allSpelled_append, allSpelled_cons] at h
      exact hspelled h.2.2 fun Γ => .one trivial rfl (he₀ Γ)
  · refine .pure ⟨.starNil, fun u _ hu => ?_, fun _ h => h⟩
    rwa [List.append_nil]

theorem arguments_succ (ih : SoundOn n) (count : Nat) :
    Sound none (Reading.arguments (n + 1) count)
      (Listed (.sym .expression) (fun e => (Node.expr e).AllSpelled) count) :=
  .listed (ih.assignment.mono fun _ _ ⟨hw, hspelled⟩ => ⟨.sym (s := .expression) hw, hspelled⟩)
    (ih.arguments (count + 1))

/-- A constant that makes up one token. -/
theorem literal {t : Token} {v : Literal} (ht : t.kind ≠ .eof) (hw : Derives (.sym .primary) [t]) :
    Sound (some t) (do Reading.advance; return .literal v) fun e w =>
      Derives (.sym .primary) w ∧ e.Target w ∧ (AllSpelled w → (Node.expr e).AllSpelled) := by
  refine .bind (.advance ht) fun _ => .pure ?_
  rintro _ rfl
  exact ⟨hw, trivial, fun _ _ => .leaf trivial rfl⟩

theorem primary_succ (ih : SoundOn n) : Sound none (Reading.primary (n + 1)) fun e w =>
    Derives (.sym .primary) w ∧ e.Target w ∧ (AllSpelled w → (Node.expr e).AllSpelled) := by
  refine .peek fun t => ?_
  split
  · next ht => exact literal (by simp [ht]) (derives_primary_iff.2 (by simp [Derives.token ht]))
  · next ht => exact literal (by simp [ht]) (derives_primary_iff.2 (by simp [Derives.token ht]))
  · next ht => exact literal (by simp [ht]) (derives_primary_iff.2 (by simp [Derives.token ht]))
  · next ht => exact literal (by simp [ht]) (derives_primary_iff.2 (by simp [Derives.number ht]))
  · next ht => exact literal (by simp [ht]) (derives_primary_iff.2 (by simp [Derives.string ht]))
  · next ht =>
    refine .bind (.advance (by simp [ht])) fun _ => .bind (.expect _) fun dot => ?_
    refine .bind (.expect _) fun method => .pure ?_
    rintro _ ⟨rfl, hmethod⟩ _ ⟨rfl, hdot⟩ _ rfl
    have hw := Derives.seq (.seq (.token ht) (.token hdot)) (.token hmethod)
    simp only [List.cons_append, List.nil_append] at hw ⊢
    refine ⟨derives_primary_iff.2 (by simp only [hw, true_or, or_true]), trivial, fun h Γ => ?_⟩
    exact .leaf ((h t List.mem_cons_self).super ht) rfl
  · next ht =>
    refine .bind (.advance (by simp [ht])) fun _ => .pure ?_
    rintro _ rfl
    refine ⟨derives_primary_iff.2 (by simp [Derives.token ht]), trivial, fun h Γ => ?_⟩
    exact .leaf ((h t List.mem_cons_self).this ht) rfl
  · next ht =>
    refine .bind (.advance (by simp [ht])) fun _ => .pure ?_
    rintro _ rfl
    refine ⟨derives_primary_iff.2 (by simp [Derives.token ht]), ⟨rfl, ht⟩, fun h Γ => ?_⟩
    exact .leaf ((h t List.mem_cons_self).name ht) rfl
  · next ht =>
    refine .bind (.advance (by simp [ht])) fun _ => .bind (.expect _) fun paren => ?_
    refine .bind (ih.routine .function) fun r => .pure ?_
    rintro u ⟨hu, hr⟩ _ ⟨rfl, hparen⟩ _ rfl
    obtain ⟨x, z, rfl, hx, hz⟩ := Derives.seq_iff.1 hu
    obtain ⟨x, y, rfl, hx, hy⟩ := Derives.seq_iff.1 hx
    have hw := Derives.seq (.seq (.seq (.seq (.token ht) (.token hparen)) hx) hy) hz
    simp only [List.append_assoc, List.cons_append, List.nil_append, List.append_nil] at hw hr ⊢
    refine ⟨derives_primary_iff.2 (by simp only [hw, or_true]), trivial, fun h Γ => ?_⟩
    simp only [allSpelled_cons] at h
    obtain ⟨hparams, hbody⟩ := hr h.2.2
    exact .one hparams rfl (hbody _)
  · next ht =>
    refine .bind (.advance (by simp [ht])) fun _ => .bind ih.assignment fun e => ?_
    refine .bind (.expect _) fun paren => .pure ?_
    rintro _ ⟨rfl, hparen⟩ u ⟨hu, he⟩ _ rfl
    have hw := Derives.seq (.seq (.token ht) (.sym (s := .expression) hu)) (.token hparen)
    simp only [List.cons_append, List.nil_append] at hw ⊢
    refine ⟨derives_primary_iff.2 (by simp only [hw, true_or, or_true]), trivial, fun h Γ => ?_⟩
    simp only [allSpelled_cons, allSpelled_append] at h
    exact .one trivial rfl (he h.2.1 Γ)
  · exact .fail _

/-! ## Bodies -/

theorem parameters (n count : Nat) : Sound none (Reading.parameters n count)
    (Listed (.token .identifier) Token.IsName count) := by
  induction n generalizing count with
  | zero => exact .outOfFuel
  | succ n ih =>
    refine .listed ((Sound.expect _).mono ?_) (ih (count + 1))
    rintro t _ ⟨rfl, ht⟩
    exact ⟨.token ht, fun h => (h t List.mem_cons_self).name ht⟩

theorem routine_succ (ih : SoundOn n) (role : Role) :
    Sound none (Reading.routine (n + 1) role) fun r w =>
      Derives (.opt (.sym .parameters) ++ .token .rightParen ++ .sym .block) w ∧
        (AllSpelled w → (∀ p ∈ r.1, p.IsName) ∧ (Node.stmts r.2).AllSpelled) := by
  refine .bind (.unlessAt _ (parameters n 0)) fun params => ?_
  refine .bind (.expect _) fun paren => .bind (.expect _) fun brace => ?_
  refine .bind ih.block fun body => .pure ?_
  rintro w ⟨hw, hbody⟩ _ ⟨rfl, hbrace⟩ _ ⟨rfl, hparen⟩ u hparams
  have hlist : Derives (.opt (.sym .parameters)) u := by
    obtain ⟨-, rfl⟩ | ⟨ps, -, -, hu, -⟩ := hparams
    · exact .optNone
    · exact .optSome (.sym hu)
  have hblock : Derives (.sym .block) (brace :: w) := by
    obtain ⟨x, y, rfl, hx, hy⟩ := Derives.seq_iff.1 hw
    have h : Derives (.sym .block) ([brace] ++ x ++ y) := .sym (.seq (.seq (.token hbrace) hx) hy)
    simpa using h
  refine ⟨by simpa using Derives.seq (.seq hlist (.token hparen)) hblock, fun h => ?_⟩
  simp only [allSpelled_append, allSpelled_cons] at h
  obtain ⟨hu, -, -, hw, -⟩ := h
  refine ⟨fun p hp => ?_, hbody hw⟩
  obtain ⟨rfl, -⟩ | ⟨ps, hps, -, -, hnames⟩ := hparams
  · cases hp
  · cases hps
    exact hnames hu p hp

theorem block_succ (ih : SoundOn n) : Sound none (Reading.block (n + 1)) fun ss w =>
    Derives (.star (.sym .declaration) ++ .token .rightBrace) w ∧
      (AllSpelled w → (Node.stmts ss).AllSpelled) := by
  refine .peek fun t => ?_
  split
  · next ht =>
    refine .bind (.advance (by simp [ht])) fun _ => .pure ?_
    rintro _ rfl
    exact ⟨.seq (u := []) .starNil (.token ht), fun _ _ => .leaf trivial rfl⟩
  · exact .fail _
  · refine .bind ih.declaration.anywhere fun o => .bind ih.block fun ss => .pure ?_
    rintro w ⟨hw, hss⟩ u ⟨s, rfl, hu, hs⟩
    obtain ⟨x, y, rfl, hx, hy⟩ := Derives.seq_iff.1 hw
    refine ⟨by simpa using Derives.seq (.starCons hu hx) hy, fun h => ?_⟩
    simp only [List.append_nil, allSpelled_append] at h
    exact fun Γ => .two trivial rfl (hs h.1 Γ) (hss (allSpelled_append.2 h.2) _)

theorem named_succ (ih : SoundOn n) (role : Role) :
    Sound none (Reading.named (n + 1) role) fun r w =>
      Derives (.sym .function) w ∧
        (AllSpelled w → r.1.IsName ∧ (∀ p ∈ r.2.1, p.IsName) ∧ (Node.stmts r.2.2).AllSpelled) := by
  refine .bind (.expect _) fun name => .bind (.expect _) fun paren => ?_
  refine .bind (ih.routine role) fun r => .pure ?_
  rintro u ⟨hu, hr⟩ _ ⟨rfl, hparen⟩ _ ⟨rfl, hname⟩
  obtain ⟨x, z, rfl, hx, hz⟩ := Derives.seq_iff.1 hu
  obtain ⟨x, y, rfl, hx, hy⟩ := Derives.seq_iff.1 hx
  have hw : Derives (.sym .function) ([name] ++ [paren] ++ x ++ y ++ z) :=
    .sym (.seq (.seq (.seq (.seq (.token hname) (.token hparen)) hx) hy) hz)
  refine ⟨by simpa using hw, fun h => ?_⟩
  simp only [List.append_nil, List.cons_append, List.nil_append, allSpelled_cons] at h
  exact ⟨h.1.name hname, hr h.2.2⟩

/-! ## Declarations -/

theorem declaration_succ (ih : SoundOn n) : Sound none (Reading.declaration (n + 1)) fun o w =>
    ∃ s ∈ o, Derives (.sym .declaration) w ∧ (AllSpelled w → (Node.stmt s).AllSpelled) :=
  ih.declared.declaration

theorem declared_succ (ih : SoundOn n) : Sound none (Reading.declared (n + 1)) fun s w =>
    Derives (.sym .declaration) w ∧ (AllSpelled w → (Node.stmt s).AllSpelled) := by
  have hstatement : ∀ {front : Option Token}, Sound front (Reading.statement n) fun s w =>
      Derives (.sym .declaration) w ∧ (AllSpelled w → (Node.stmt s).AllSpelled) :=
    ih.statement.anywhere.mono fun _ _ ⟨hw, _, hs⟩ => ⟨.sym (.right hw), hs⟩
  refine .peek fun t => ?_
  split
  · next ht =>
    refine .bind (.advance (by simp [ht])) fun _ => ih.classDeclared.mono ?_
    rintro s w ⟨hw, hs⟩ _ rfl
    refine ⟨.sym (.left (.left (.left (hw t ht)))), fun h => hs (allSpelled_append.1 h).2⟩
  · next ht =>
    refine .get fun c => ?_
    split
    · refine .bind (.advance (by simp [ht])) fun _ => .bind (ih.named .function) fun r => .pure ?_
      rintro w ⟨hw, hr⟩ _ rfl
      rw [List.append_nil]
      have hfun : Derives (.sym .funDecl) ([t] ++ w) := .sym (.seq (.token ht) hw)
      refine ⟨.sym (.left (.left (.right hfun))), fun h Γ => ?_⟩
      obtain ⟨hname, hparams, hbody⟩ := hr (allSpelled_append.1 h).2
      exact .one ⟨hname, hparams⟩ rfl (hbody _)
    · exact hstatement
  · next ht =>
    refine .bind (.advance (by simp [ht])) fun _ => ih.variableDeclared.mono ?_
    rintro s w ⟨hw, hs⟩ _ rfl
    exact ⟨.sym (.left (.right (hw t ht))), fun h => hs (allSpelled_append.1 h).2⟩
  · exact hstatement

theorem variableDeclared_succ (ih : SoundOn n) :
    Sound none (Reading.variableDeclared (n + 1)) fun s w =>
      (∀ t : Token, t.kind = .kwVar → Derives (.sym .varDecl) (t :: w)) ∧
        (AllSpelled w → (Node.stmt s).AllSpelled) := by
  refine .bind (.expect _) fun name => .optional ih.assignment fun init => ?_
  refine .bind (.expect _) fun semicolon => .pure ?_
  rintro _ ⟨rfl, hsemicolon⟩ u hu _ ⟨rfl, hname⟩
  have hinit : Derives (.opt (.token .equal ++ .sym .expression)) u := by
    obtain ⟨-, rfl⟩ | ⟨e, t, v, -, ht, rfl, hv, -⟩ := hu
    · exact .optNone
    · exact .optSome (.seq (u := [t]) (.token ht) (.sym (s := .expression) hv))
  refine ⟨fun t ht => ?_, fun h Γ => ?_⟩
  · have hw : Derives (.sym .varDecl) ([t] ++ [name] ++ u ++ [semicolon]) :=
      .sym (.seq (.seq (.seq (.token ht) (.token hname)) hinit) (.token hsemicolon))
    simpa using hw
  · simp only [allSpelled_append, allSpelled_cons] at h
    obtain ⟨⟨hspelled, -⟩, hu', -⟩ := h
    obtain ⟨rfl, -⟩ | ⟨e, t, v, rfl, -, rfl, -, he⟩ := hu
    · exact .leaf (hspelled.name hname) rfl
    · exact .one (hspelled.name hname) rfl (he (allSpelled_cons.1 hu').2 _)

theorem methods_succ (ih : SoundOn n) : Sound none (Reading.methods (n + 1)) fun ms w =>
    Derives (.star (.sym .function)) w ∧
      (AllSpelled w → ∀ m ∈ ms, (∀ p ∈ m.params, p.IsName) ∧ ∀ Γ, (m.node Γ).2.AllSpelled) := by
  refine .peek fun t => ?_
  split
  · exact .pure ⟨.starNil, fun _ => nofun⟩
  · exact .pure ⟨.starNil, fun _ => nofun⟩
  · refine .bind (ih.named .method).anywhere fun r => .bind ih.methods fun ms => .pure ?_
    rintro w ⟨hw, hms⟩ u ⟨hu, hr⟩
    rw [List.append_nil]
    refine ⟨.starCons hu hw, fun h => ?_⟩
    obtain ⟨h₁, h₂⟩ := allSpelled_append.1 h
    obtain ⟨-, hparams, hbody⟩ := hr h₁
    exact List.forall_mem_cons.2 ⟨⟨hparams, fun _ => hbody⟩, hms h₂⟩

theorem classDeclared_succ (ih : SoundOn n) :
    Sound none (Reading.classDeclared (n + 1)) fun s w =>
      (∀ t : Token, t.kind = .kwClass → Derives (.sym .classDecl) (t :: w)) ∧
        (AllSpelled w → (Node.stmt s).AllSpelled) := by
  refine .bind (.expect _) fun name => .optional (.expect _) fun superclass => ?_
  refine .bind (.expect _) fun left => .bind ih.methods fun ms => ?_
  refine .bind (.expect _) fun right => .pure ?_
  rintro _ ⟨rfl, hright⟩ w ⟨hw, hms⟩ _ ⟨rfl, hleft⟩ u hu _ ⟨rfl, hname⟩
  have hsuper : Derives (.opt (.token .less ++ .token .identifier)) u := by
    obtain ⟨-, rfl⟩ | ⟨s, t, _, -, ht, rfl, rfl, hs⟩ := hu
    · exact .optNone
    · exact .optSome (.seq (u := [t]) (.token ht) (.token hs))
  refine ⟨fun t ht => ?_, fun h Γ => .intro ⟨?_, fun m hm => ?_⟩ ?_⟩
  · have hw : Derives (.sym .classDecl) ([t] ++ [name] ++ u ++ [left] ++ w ++ [right]) :=
      .sym (.seq (.seq (.seq (.seq (.seq (.token ht) (.token hname)) hsuper) (.token hleft)) hw)
        (.token hright))
    simpa using hw
  all_goals
    simp only [allSpelled_append, allSpelled_cons] at h
    obtain ⟨⟨hspelled, -⟩, hu', -, hw', -⟩ := h
  · exact hspelled.name hname
  · exact (hms hw' m hm).1
  · refine List.forall_mem_append.2 ⟨List.forall_mem_map.2 fun s hs => ?_,
      List.forall_mem_map.2 fun m hm => (hms hw' m hm).2 _ _⟩
    obtain ⟨rfl, -⟩ | ⟨s', t, _, rfl, -, rfl, rfl, hs'⟩ := hu
    · cases hs
    · obtain rfl := List.mem_singleton.1 hs
      exact .leaf ((hu' s' (List.mem_cons_of_mem t List.mem_cons_self)).name hs') rfl

/-! ## Statements -/

theorem expressionStatement_succ (ih : SoundOn n) :
    Sound none (Reading.expressionStatement (n + 1)) fun s w =>
      Derives (.sym .exprStmt) w ∧ s.declared = [] ∧ (AllSpelled w → (Node.stmt s).AllSpelled) := by
  refine .bind ih.assignment fun e => .bind (.expect _) fun semicolon => .pure ?_
  rintro _ ⟨rfl, hsemicolon⟩ u ⟨hu, he⟩
  refine ⟨.sym (.seq (.sym (s := .expression) hu) (.token hsemicolon)), rfl, fun h Γ => ?_⟩
  exact .one trivial rfl (he (allSpelled_append.1 h).1 Γ)

/-- A `for` loop declares nothing around it. -/
theorem declared_forLoop (init : Option (Stmt Unit)) (test step : Option (Expr Unit))
    {body : Stmt Unit} (h : body.declared = []) :
    (Stmt.forLoop init test step body).declared = [] := by
  cases init with
  | some s => rfl
  | none =>
    cases step with
    | some e => rfl
    | none => exact h

/-- A `for` loop is spelled as its parts are. -/
theorem allSpelled_forLoop {init : Option (Stmt Unit)} {test step : Option (Expr Unit)}
    {body : Stmt Unit} (hinit : ∀ s ∈ init, (Node.stmt s).AllSpelled)
    (htest : ∀ e ∈ test, (Node.expr e).AllSpelled) (hstep : ∀ e ∈ step, (Node.expr e).AllSpelled)
    (hdeclared : body.declared = []) (hbody : (Node.stmt body).AllSpelled) :
    (Node.stmt (.forLoop init test step body)).AllSpelled := by
  have htest' : (Node.expr (test.getD (.literal .true))).AllSpelled := by
    cases test with
    | none => exact fun _ => .leaf trivial rfl
    | some e => exact htest e rfl
  have hloop : ∀ b : Stmt Unit, b.declared = [] → (Node.stmt b).AllSpelled →
      (Node.stmt (.loop (test.getD (.literal .true)) b)).AllSpelled :=
    fun b hd hb Γ => .two hd rfl (htest' Γ) (hb Γ)
  have hwhole : (Node.stmt (.forLoop none test step body)).AllSpelled := by
    cases step with
    | none => exact hloop body hdeclared hbody
    | some e =>
      have he : (Node.stmt (.expression e)).AllSpelled := fun Γ => .one trivial rfl (hstep e rfl Γ)
      exact hloop _ rfl (Node.AllSpelled.pair hbody he).block
  cases init with
  | none => exact hwhole
  | some s => exact (Node.AllSpelled.pair (hinit s rfl) hwhole).block

/-- A conditional is spelled as its parts are. -/
theorem allSpelled_cond {e : Expr Unit} {yes : Stmt Unit} {no : Option (Stmt Unit)}
    (he : (Node.expr e).AllSpelled) (hdeclared : yes.declared = [])
    (hyes : (Node.stmt yes).AllSpelled)
    (hno : ∀ s ∈ no, s.declared = [] ∧ (Node.stmt s).AllSpelled) :
    (Node.stmt (.cond e yes no)).AllSpelled := by
  have hhere : ∀ s ∈ no, s.declared = [] := fun s hs => (hno s hs).1
  intro Γ
  cases no with
  | none => exact .two ⟨hdeclared, hhere⟩ rfl (he Γ) (hyes Γ)
  | some s =>
    exact .intro ⟨hdeclared, hhere⟩ (List.forall_mem_cons.2 ⟨he Γ, List.forall_mem_cons.2
      ⟨hyes Γ, List.forall_mem_singleton.2 ((hno s rfl).2 _)⟩⟩)

/-- An expression that may be left out. -/
theorem expression? (ih : SoundOn n) (kind : Kind) :
    Sound none (Reading.unlessAt kind (Reading.assignment n)) fun o w =>
      Derives (.opt (.sym .expression)) w ∧
        (AllSpelled w → ∀ e ∈ o, (Node.expr e).AllSpelled) := by
  refine (Sound.unlessAt kind ih.assignment).mono ?_
  rintro o w (⟨rfl, rfl⟩ | ⟨e, rfl, hw, he⟩)
  · exact ⟨.optNone, fun _ => nofun⟩
  · refine ⟨.optSome (.sym (s := .expression) hw), fun h e' he' => ?_⟩
    cases he'
    exact he h

theorem forStatement_succ (ih : SoundOn n) : Sound none (Reading.forStatement (n + 1)) fun s w =>
    (∀ t : Token, t.kind = .kwFor → Derives (.sym .forStmt) (t :: w)) ∧ s.declared = [] ∧
      (AllSpelled w → (Node.stmt s).AllSpelled) := by
  have hrest : ∀ init : Option (Stmt Unit), Sound none (do
      let test ← Reading.unlessAt .semicolon (Reading.assignment n)
      let _ ← Reading.expect .semicolon .forCondition
      let step ← Reading.unlessAt .rightParen (Reading.assignment n)
      let _ ← Reading.expect .rightParen .forEnd
      let body ← Reading.statement n
      return Stmt.forLoop init test step body) fun s v => ∀ u,
        Derives (.sym .varDecl ||| .sym .exprStmt ||| .token .semicolon) u →
        (AllSpelled u → ∀ s ∈ init, (Node.stmt s).AllSpelled) → ∀ t : Token, t.kind = .leftParen →
        (∀ t' : Token, t'.kind = .kwFor → Derives (.sym .forStmt) (t' :: t :: (u ++ v))) ∧
          s.declared = [] ∧ (AllSpelled (t :: (u ++ v)) → (Node.stmt s).AllSpelled) := by
    intro init
    refine .bind (ih.expression? _) fun test => .bind (.expect _) fun semicolon => ?_
    refine .bind (ih.expression? _) fun step => .bind (.expect _) fun right => ?_
    refine .bind ih.statement fun body => .pure ?_
    rintro w ⟨hw, hdeclared, hbody⟩ _ ⟨rfl, hright⟩ y ⟨hy, hstep⟩ _ ⟨rfl, hsemicolon⟩ x
      ⟨hx, htest⟩ u hu hinit t ht
    refine ⟨fun t' ht' => ?_, ?_, fun h => ?_⟩
    · have hfor : Derives (.sym .forStmt)
          ([t'] ++ [t] ++ u ++ x ++ [semicolon] ++ y ++ [right] ++ w) :=
        .sym (.seq (.seq (.seq (.seq (.seq (.seq (.seq (.token ht') (.token ht)) hu) hx)
          (.token hsemicolon)) hy) (.token hright)) hw)
      simpa using hfor
    · exact declared_forLoop init test step hdeclared
    · simp only [allSpelled_append, allSpelled_cons] at h
      obtain ⟨-, hu', hx', -, hy', -, hw', -⟩ := h
      exact allSpelled_forLoop (hinit hu') (htest hx') (hstep hy') hdeclared (hbody hw')
  refine .bind (.expect _) fun paren => .peek fun t => ?_
  split
  · next ht =>
    refine .bind (.advance (by simp [ht])) fun _ => ?_
    refine .bind (.pure (P := fun o w => o = none ∧ w = []) ⟨rfl, rfl⟩) fun init => ?_
    refine (hrest init).mono ?_
    rintro s v hv _ ⟨rfl, rfl⟩ _ rfl _ ⟨rfl, hparen⟩
    exact hv [t] (.right (.token ht)) (by simp) paren hparen
  · next ht =>
    refine .bind (.advance (by simp [ht])) fun _ => ?_
    refine .bind ih.variableDeclared.some fun init => (hrest init).mono ?_
    rintro s v hv u ⟨s', rfl, hu, hs'⟩ _ rfl _ ⟨rfl, hparen⟩
    refine hv (t :: u) (.left (.left (hu t ht))) (fun h s hs => ?_) paren hparen
    cases hs
    exact hs' (allSpelled_cons.1 h).2
  · refine .bind ih.expressionStatement.some.anywhere fun init => (hrest init).mono ?_
    rintro s v hv u ⟨s', rfl, hu, -, hs'⟩ _ ⟨rfl, hparen⟩
    refine hv u (.left (.right hu)) (fun h s hs => ?_) paren hparen
    cases hs
    exact hs' h

theorem statement_succ (ih : SoundOn n) : Sound none (Reading.statement (n + 1)) fun s w =>
    Derives (.sym .statement) w ∧ s.declared = [] ∧
      (AllSpelled w → (Node.stmt s).AllSpelled) := by
  refine .peek fun t => ?_
  split
  · next ht =>
    refine .bind (.advance (by simp [ht])) fun _ => ih.forStatement.mono ?_
    rintro s w ⟨hw, hdeclared, hs⟩ _ rfl
    refine ⟨derives_statement_iff.2 (by simp [hw t ht]), hdeclared, fun h => ?_⟩
    exact hs (allSpelled_append.1 h).2
  · next ht =>
    refine .bind (.advance (by simp [ht])) fun _ => .bind (.expect _) fun left => ?_
    refine .bind ih.assignment fun e => .bind (.expect _) fun right => ?_
    refine .bind ih.statement fun yes => .optional ih.statement fun no => .pure ?_
    rintro v hv w ⟨hw, hdeclared, hyes⟩ _ ⟨rfl, hright⟩ u ⟨hu, he⟩ _ ⟨rfl, hleft⟩ _ rfl
    have helse : Derives (.opt (.token .kwElse ++ .sym .statement)) v ∧
        ∀ s ∈ no, s.declared = [] ∧ (AllSpelled v → (Node.stmt s).AllSpelled) := by
      obtain ⟨rfl, rfl⟩ | ⟨s, t', v', rfl, ht', rfl, hv', hs, hs'⟩ := hv
      · exact ⟨.optNone, nofun⟩
      · refine ⟨.optSome (.seq (u := [t']) (.token ht') hv'), ?_⟩
        rintro _ ⟨⟩
        exact ⟨hs, fun h => hs' (allSpelled_cons.1 h).2⟩
    obtain ⟨hv, hno⟩ := helse
    have hif : Derives (.sym .ifStmt) ([t] ++ [left] ++ u ++ [right] ++ w ++ v) :=
      .sym (.seq (.seq (.seq (.seq (.seq (.token ht) (.token hleft)) (.sym (s := .expression) hu))
        (.token hright)) hw) hv)
    simp only [List.append_assoc, List.cons_append, List.nil_append, List.append_nil] at hif ⊢
    refine ⟨derives_statement_iff.2 (by simp only [hif, true_or, or_true]), ?_, fun h => ?_⟩
    · exact Stmt.declared_cond hdeclared fun s hs => (hno s hs).1
    · simp only [allSpelled_append, allSpelled_cons] at h
      obtain ⟨-, -, hu', -, hw', hv'⟩ := h
      exact allSpelled_cond (he hu') hdeclared (hyes hw') fun s hs =>
        ⟨(hno s hs).1, (hno s hs).2 hv'⟩
  · next ht =>
    refine .bind (.advance (by simp [ht])) fun _ => .bind (.expect _) fun left => ?_
    refine .bind ih.assignment fun e => .bind (.expect _) fun right => ?_
    refine .bind ih.statement fun body => .pure ?_
    rintro w ⟨hw, hdeclared, hbody⟩ _ ⟨rfl, hright⟩ u ⟨hu, he⟩ _ ⟨rfl, hleft⟩ _ rfl
    have hloop : Derives (.sym .whileStmt) ([t] ++ [left] ++ u ++ [right] ++ w) :=
      .sym (.seq (.seq (.seq (.seq (.token ht) (.token hleft)) (.sym (s := .expression) hu))
        (.token hright)) hw)
    simp only [List.append_assoc, List.cons_append, List.nil_append, List.append_nil] at hloop ⊢
    refine ⟨derives_statement_iff.2 (by simp only [hloop, true_or, or_true]), hdeclared,
      fun h Γ => ?_⟩
    simp only [allSpelled_append, allSpelled_cons] at h
    exact .two hdeclared rfl (he h.2.2.1 Γ) (hbody h.2.2.2.2 Γ)
  · next ht =>
    refine .bind (.advance (by simp [ht])) fun _ => .bind (ih.expression? _) fun value => ?_
    refine .bind (.expect _) fun semicolon => .pure ?_
    rintro _ ⟨rfl, hsemicolon⟩ u ⟨hu, hvalue⟩ _ rfl
    have hret : Derives (.sym .returnStmt) ([t] ++ u ++ [semicolon]) :=
      .sym (.seq (.seq (.token ht) hu) (.token hsemicolon))
    simp only [List.cons_append, List.nil_append] at hret ⊢
    refine ⟨derives_statement_iff.2 (by simp only [hret, true_or, or_true]), rfl, fun h Γ => ?_⟩
    simp only [allSpelled_append, allSpelled_cons] at h
    cases value with
    | none => exact .leaf trivial rfl
    | some e => exact .one trivial rfl (hvalue h.2.1 e rfl Γ)
  · next ht =>
    refine .bind (.advance (by simp [ht])) fun _ => .bind ih.block fun body => .pure ?_
    rintro w ⟨hw, hbody⟩ _ rfl
    obtain ⟨x, y, rfl, hx, hy⟩ := Derives.seq_iff.1 hw
    have hblock : Derives (.sym .block) ([t] ++ x ++ y) := .sym (.seq (.seq (.token ht) hx) hy)
    simp only [List.cons_append, List.nil_append, List.append_nil] at hblock ⊢
    refine ⟨derives_statement_iff.2 (by simp only [hblock, or_true]), rfl, fun h => ?_⟩
    exact (hbody (allSpelled_cons.1 h).2).block
  · next ht =>
    refine .bind (.advance (by simp [ht])) fun _ => .bind ih.assignment fun e => ?_
    refine .bind (.expect _) fun semicolon => .pure ?_
    rintro _ ⟨rfl, hsemicolon⟩ u ⟨hu, he⟩ _ rfl
    have hprint : Derives (.sym .printStmt) ([t] ++ u ++ [semicolon]) :=
      .sym (.seq (.seq (.token ht) (.sym (s := .expression) hu)) (.token hsemicolon))
    simp only [List.cons_append, List.nil_append] at hprint ⊢
    refine ⟨derives_statement_iff.2 (by simp only [hprint, true_or, or_true]), rfl, fun h Γ => ?_⟩
    simp only [allSpelled_append, allSpelled_cons] at h
    exact .one trivial rfl (he h.2.1 Γ)
  · refine ih.expressionStatement.anywhere.mono ?_
    rintro s w ⟨hw, hdeclared, hs⟩
    exact ⟨derives_statement_iff.2 (.inl hw), hdeclared, hs⟩

end SoundOn

/-- Every reading is sound, by induction on the fuel. -/
theorem soundOn (n : Nat) : SoundOn n := by
  induction n with
  | zero =>
    exact ⟨.outOfFuel, fun _ => .outOfFuel, fun _ _ => .outOfFuel, .outOfFuel, fun _ => .outOfFuel,
      fun _ => .outOfFuel, .outOfFuel, fun _ => .outOfFuel, .outOfFuel, .outOfFuel, .outOfFuel,
      .outOfFuel, .outOfFuel, fun _ => .outOfFuel, .outOfFuel, .outOfFuel, .outOfFuel, .outOfFuel⟩
  | succ n ih =>
    exact ⟨ih.assignment_succ, ih.operators_succ, ih.operatorsAfter_succ, ih.unary_succ,
      ih.suffixes_succ, ih.arguments_succ, ih.primary_succ, ih.routine_succ, ih.block_succ,
      ih.declaration_succ, ih.declared_succ, ih.classDeclared_succ, ih.methods_succ, ih.named_succ,
      ih.variableDeclared_succ, ih.expressionStatement_succ, ih.forStatement_succ,
      ih.statement_succ⟩

/-! ## Programs and lines -/

/-- A program is read from declarations. -/
theorem program_sound (n : Nat) : Sound none (program n) fun ss w =>
    Derives (.star (.sym .declaration)) w ∧ (AllSpelled w → (Node.stmts ss).AllSpelled) := by
  induction n with
  | zero => exact .outOfFuel
  | succ n ih =>
    refine .get fun c => ?_
    split
    · exact .pure ⟨.starNil, fun _ => .nil⟩
    · refine .bind (soundOn n).declaration fun s => .bind ih fun ss => .pure ?_
      rintro v ⟨hv, hss⟩ u ⟨s, rfl, hu, hs⟩
      rw [List.append_nil]
      refine ⟨.starCons hu hv, fun h => ?_⟩
      obtain ⟨h₁, h₂⟩ := allSpelled_append.1 h
      exact (hs h₁).cons (hss h₂)

/-- A program ends where the tokens end. -/
theorem program_rest {n : Nat} {c c' : Cursor} {ss : List (Stmt Unit)}
    (h : program n c = .ok ss c') : c'.rest = [] := by
  induction n generalizing c ss with
  | zero => cases h
  | succ n ih =>
    obtain ⟨_, _, hget, h⟩ := of_bind_ok h
    cases hget
    split at h
    · next hrest =>
      cases h
      exact List.isEmpty_iff.1 hrest
    · obtain ⟨s, c₁, -, h⟩ := of_bind_ok h
      obtain ⟨ss, c₂, hss, h⟩ := of_bind_ok h
      cases h
      exact ih hss

/-- An expression at the end is spelled as it should be. -/
theorem trailing_sound (n : Nat) : Sound none (trailing? n) fun o w =>
    AllSpelled w → ∀ e ∈ o, (Node.expr e).AllSpelled := by
  intro c hc _
  have h := (soundOn n).assignment c hc nofun
  unfold trailing?
  generalize assignment n c = x at h
  cases h with
  | ok hc' hP =>
    dsimp only
    split
    · refine .ok hc' fun he hw e hmem => ?_
      cases hmem
      exact (hP he).2 hw
    · exact .ok (.refl c) fun _ _ => nofun
  | error => exact .ok (.refl c) fun _ _ => nofun
  | outOfFuel => exact .outOfFuel

/-- A line is spelled as it should be. -/
theorem line_sound (n : Nat) : Sound none (line n) fun l w =>
    AllSpelled w → (Node.stmts l.statements).AllSpelled ∧
      ∀ e ∈ l.trailing, (Node.expr e).AllSpelled := by
  induction n with
  | zero => exact .outOfFuel
  | succ n ih =>
    have hstatements : Sound none (do
        let s ← declaration n
        let more ← line n
        return (⟨s.toList ++ more.statements, more.trailing⟩ : Line Unit)) fun l w =>
          AllSpelled w → (Node.stmts l.statements).AllSpelled ∧
            ∀ e ∈ l.trailing, (Node.expr e).AllSpelled := by
      refine .bind (soundOn n).declaration fun s => .bind ih fun more => .pure ?_
      rintro v hmore u ⟨s, rfl, -, hs⟩ h
      obtain ⟨h₁, h₂⟩ := allSpelled_append.1 h
      obtain ⟨hss, htrailing⟩ := hmore (allSpelled_append.1 h₂).1
      exact ⟨(hs h₁).cons hss, htrailing⟩
    refine .get fun c => ?_
    split
    · exact .pure fun _ => ⟨.nil, nofun⟩
    · split
      · refine .bind (.pure (P := fun o w => o = none ∧ w = []) ⟨rfl, rfl⟩) fun o => ?_
        cases o with
        | none =>
          refine hstatements.mono ?_
          rintro l v hl _ ⟨-, rfl⟩
          exact hl
        | some e => exact .pure fun _ h => nomatch h.1
      · refine .bind (trailing_sound n).anywhere fun o => ?_
        cases o with
        | none =>
          refine hstatements.mono fun l v hl u _ h => ?_
          exact hl (allSpelled_append.1 h).2
        | some e =>
          refine .pure fun u hu h => ⟨.nil, ?_⟩
          exact hu (allSpelled_append.1 h).1

end Reading

end LoxLang
