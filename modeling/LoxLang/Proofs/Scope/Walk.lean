import LoxLang.Proofs.Scope.Context
import Mathlib.Data.List.Forall2
import Mathlib.Tactic.Tauto

/-!
# A walk stands in a context

The state of a walk at a node is determined by where the node stands: the open scopes show the names
of the context and which of them are not ready, and the kinds of body and class are those of the
context (`Walk.At`). Each step of the walk that opens or closes a scope or declares a name leads
from one context to the next.
-/

namespace LoxLang

/-- An open scope of a walk shows a scope of the text: it has the names declared so far, and the
variable whose initializer is being resolved is the one that is not ready. -/
structure Scope.ShownBy (t : Table Bool) (sc : Scope) : Prop where
  names : ∀ x, t.contains x = true ↔ x ∈ sc.names
  pending : ∀ x, t.find? x = some false ↔ sc.pending = some x

/-- A walk stands in a context. -/
structure Walk.At (w : Walk) (Γ : Context) : Prop where
  scopes : List.Forall₂ Scope.ShownBy w.scopes Γ
  body : w.body = Γ.bodyKind
  cls : w.cls = Γ.classKind

namespace Scope

theorem ShownBy.empty (kind : ScopeKind) : ShownBy .empty ⟨kind, [], none⟩ :=
  ⟨fun x => by simp [Table.contains], fun x => by simp⟩

theorem ShownBy.congr {t : Table Bool} {sc sc' : Scope} (h : ShownBy t sc)
    (hn : ∀ x, x ∈ sc.names ↔ x ∈ sc'.names) (hp : sc.pending = sc'.pending) : ShownBy t sc' :=
  ⟨fun x => (h.names x).trans (hn x), fun x => hp ▸ h.pending x⟩

/-- A name that is there and ready is declared. -/
theorem ShownBy.of_find?_eq {t t' : Table Bool} {sc : Scope} (h : ShownBy t sc) {name : String}
    (ht : ∀ x, t'.find? x = if name = x then some true else t.find? x) :
    ShownBy t' (sc.declare name) := by
  refine ⟨fun x => ?_, fun x => ?_⟩
  · have hx := h.names x
    rw [Table.contains] at hx
    rw [Table.contains, ht, names_declare, List.mem_cons]
    by_cases hn : name = x
    · simp [hn]
    · simp only [hn, ↓reduceIte, hx, Ne.symm hn, false_or]
  · rw [ht]
    by_cases hn : name = x
    · subst hn
      simp [declare, Option.filter_eq_some_iff]
    · simp only [hn, ↓reduceIte, h.pending x, declare, Option.filter_eq_some_iff, ne_eq,
        decide_not, Bool.not_eq_eq_eq_not, Bool.not_true, decide_eq_false_iff_not]
      exact ⟨fun hp => ⟨hp, Ne.symm hn⟩, fun hp => hp.1⟩

theorem ShownBy.insert_true {t : Table Bool} {sc : Scope} (h : ShownBy t sc) (name : String) :
    ShownBy (t.insert name true) (sc.declare name) :=
  h.of_find?_eq fun x => Table.find?_insert t x name true

/-- A name put in unready is the one whose initializer is being resolved. -/
theorem ShownBy.insert_false {t : Table Bool} {sc : Scope} (h : ShownBy t sc)
    (hp : sc.pending = none) (name : String) :
    ShownBy (t.insert name false) { sc with names := name :: sc.names, pending := some name } := by
  refine ⟨fun x => ?_, fun x => ?_⟩
  · have hx := h.names x
    rw [Table.contains] at hx
    rw [Table.contains, Table.find?_insert, List.mem_cons]
    by_cases hn : name = x
    · simp [hn]
    · simp only [hn, ↓reduceIte, hx, Ne.symm hn, false_or]
  · have hx := h.pending x
    rw [hp] at hx
    rw [Table.find?_insert]
    by_cases hn : name = x
    · simp [hn]
    · simpa [hn] using hx

end Scope

namespace Walk

variable {w : Walk} {Γ : Context}

theorem At.start : Walk.start.At [] := ⟨.nil, rfl, rfl⟩

/-- Reports and bindings do not move a walk. -/
theorem At.of_eq {w' : Walk} (h : w.At Γ) (hs : w'.scopes = w.scopes) (hb : w'.body = w.body)
    (hc : w'.cls = w.cls) : w'.At Γ :=
  ⟨hs ▸ h.scopes, hb.trans h.body, hc.trans h.cls⟩

theorem At.report (h : w.At Γ) (t : Token) (cause : ScopeCause) : (w.report t cause).At Γ :=
  h.of_eq rfl rfl rfl

theorem At.bind (h : w.At Γ) (site : Site Nat) : (w.bind site).At Γ := by
  unfold Walk.bind
  split
  · exact h.of_eq rfl rfl rfl
  · exact h

/-- The walk finds a name at its distance in the context. -/
theorem distance?_eq (hs : List.Forall₂ Scope.ShownBy w.scopes Γ) (name : String) :
    w.distance? name = Γ.distance? name := by
  unfold Walk.distance? Context.distance?
  generalize w.scopes = ts at hs
  induction hs with
  | nil => rfl
  | @cons t sc ts Γ ht _ ih =>
    rw [List.findIdx?_cons, List.findIdx?_cons, ih]
    have hn := ht.names name
    by_cases hm : name ∈ sc.names
    · rw [if_pos (hn.2 hm), if_pos (by simpa using hm)]
    · rw [if_neg (fun hc => hm (hn.1 hc)), if_neg (by simpa using hm)]

/-- What is not ready is the variable whose initializer is being resolved. -/
theorem isUnready_iff (hs : List.Forall₂ Scope.ShownBy w.scopes Γ) (name : String) :
    w.isUnready name = true ↔ ∃ sc ∈ Γ.head?, sc.pending = some name := by
  unfold Walk.isUnready
  generalize w.scopes = ts at hs
  cases hs with
  | nil => simp
  | cons ht _ => simpa using ht.pending name

end Walk

/-! ## Declarations -/

/-- A statement may stand in the context: the innermost scope is that of a block or a body, and it
has no variable whose initializer is being resolved. -/
def Context.Settled (Γ : Context) : Prop :=
  ∀ sc ∈ Γ.head?, sc.pending = none ∧ sc.kind ≠ .superclass

theorem Context.Settled.nil : Context.Settled [] := fun _ h => nomatch h

theorem Context.Settled.block (Γ : Context) : Context.Settled (.block :: Γ) := by
  rintro _ ⟨⟩
  exact ⟨rfl, nofun⟩

theorem Context.Settled.ofParams (kind : BodyKind) (params : List Token) (Γ : Context) :
    Context.Settled (.ofParams kind params :: Γ) := by
  rintro _ ⟨⟩
  exact ⟨rfl, nofun⟩

theorem Context.Settled.declare {Γ : Context} (h : Γ.Settled) (name : String) :
    (Γ.declare name).Settled := by
  cases Γ with
  | nil => exact h
  | cons sc Γ =>
    rintro _ ⟨⟩
    obtain ⟨hp, hk⟩ := h sc rfl
    exact ⟨by rw [Scope.declare, hp]; rfl, hk⟩

theorem Context.Settled.after {σ : Type} {Γ : Context} (h : Γ.Settled) (s : Stmt σ) :
    (Γ.after s).Settled := by
  unfold Context.after
  generalize s.declared = names
  induction names generalizing Γ with
  | nil => exact h
  | cons name names ih => exact ih (h.declare name)

/-- The innermost body depends on the kinds of the scopes alone. -/
theorem Context.bodyKind_congr {sc sc' : Scope} (h : sc.kind = sc'.kind) (Γ : Context) :
    bodyKind (sc :: Γ) = bodyKind (sc' :: Γ) := by
  obtain ⟨kind, names, pending⟩ := sc
  obtain ⟨kind', names', pending'⟩ := sc'
  cases h
  cases kind <;> rfl

/-- So does the innermost class. -/
theorem Context.classKind_congr {sc sc' : Scope} (h : sc.kind = sc'.kind) (Γ : Context) :
    classKind (sc :: Γ) = classKind (sc' :: Γ) := by
  obtain ⟨kind, names, pending⟩ := sc
  obtain ⟨kind', names', pending'⟩ := sc'
  cases h
  cases kind with
  | block | body | superclass => rfl
  | receiver =>
    cases Γ with
    | nil => rfl
    | cons sc Γ =>
      obtain ⟨kind, names, pending⟩ := sc
      cases kind <;> rfl

/-- Methods are those of a base class unless the scope of a superclass is right around them. -/
theorem Context.classKind_receiver {Γ : Context} (h : ∀ sc ∈ Γ.head?, sc.kind ≠ .superclass) :
    classKind (.receiver :: Γ) = .base := by
  cases Γ with
  | nil => rfl
  | cons sc Γ =>
    have hk := h sc rfl
    obtain ⟨kind, names, pending⟩ := sc
    cases kind with
    | block | body | receiver => rfl
    | superclass => exact absurd rfl hk

@[simp] theorem Context.bodyKind_declare (Γ : Context) (name : String) :
    (Γ.declare name).bodyKind = Γ.bodyKind := by
  cases Γ with
  | nil => rfl
  | cons sc Γ => exact bodyKind_congr (sc.kind_declare name) Γ

@[simp] theorem Context.classKind_declare (Γ : Context) (name : String) :
    (Γ.declare name).classKind = Γ.classKind := by
  cases Γ with
  | nil => rfl
  | cons sc Γ => exact classKind_congr (sc.kind_declare name) Γ

@[simp] theorem Context.bodyKind_begin (Γ : Context) (name : String) :
    (Γ.begin name).bodyKind = Γ.bodyKind := by
  cases Γ with
  | nil => rfl
  | cons sc Γ => exact bodyKind_congr (sc.kind_begin name) Γ

@[simp] theorem Context.classKind_begin (Γ : Context) (name : String) :
    (Γ.begin name).classKind = Γ.classKind := by
  cases Γ with
  | nil => rfl
  | cons sc Γ => exact classKind_congr (sc.kind_begin name) Γ

namespace Walk

variable {w : Walk} {Γ : Context}

@[simp] theorem scopes_enter (w : Walk) (name : String) (ready : Bool) :
    (w.enter name ready).scopes = w.scopes.modifyHead (·.insert name ready) := by
  unfold enter
  split
  · next h => rw [h]; rfl
  · next h => rw [h]; rfl

@[simp] theorem body_enter (w : Walk) (name : String) (ready : Bool) :
    (w.enter name ready).body = w.body := by
  unfold enter
  split <;> rfl

@[simp] theorem cls_enter (w : Walk) (name : String) (ready : Bool) :
    (w.enter name ready).cls = w.cls := by
  unfold enter
  split <;> rfl

@[simp] theorem scopes_declare (w : Walk) (name : Token) :
    (w.declare name).scopes = w.scopes.modifyHead fun t =>
      if t.contains name.lexeme then t else t.insert name.lexeme false := by
  unfold declare
  split
  · next h => rw [h]; rfl
  · next t ts h =>
    split
    · next hc => rw [h, report, h, List.modifyHead_cons, if_pos hc]
    · next hc => rw [scopes_enter, h, List.modifyHead_cons, List.modifyHead_cons, if_neg hc]

@[simp] theorem body_declare (w : Walk) (name : Token) : (w.declare name).body = w.body := by
  unfold declare
  split
  · rfl
  · split
    · rfl
    · exact body_enter ..

@[simp] theorem cls_declare (w : Walk) (name : Token) : (w.declare name).cls = w.cls := by
  unfold declare
  split
  · rfl
  · split
    · rfl
    · exact cls_enter ..

/-- In the initializer of a variable its name is there but not ready. -/
theorem At.declare (h : w.At Γ) (hΓ : Γ.Settled) (name : Token) :
    (w.declare name).At (Γ.begin name.lexeme) := by
  refine ⟨?_, ?_, ?_⟩
  · have hs := h.scopes
    rw [scopes_declare]
    generalize w.scopes = ts at hs
    cases hs with
    | nil => exact .nil
    | @cons t sc ts Γ ht hts =>
      have hp : sc.pending = none := (hΓ sc rfl).1
      refine .cons ?_ hts
      dsimp only
      by_cases hc : t.contains name.lexeme
      · have hm := (ht.names _).1 hc
        rw [if_pos hc, Scope.begin, if_pos hm]
        refine ht.congr (fun x => ?_) rfl
        rw [List.mem_cons]
        exact ⟨.inr, fun hx => hx.elim (· ▸ hm) id⟩
      · rw [if_neg hc, Scope.begin, if_neg fun hm => hc ((ht.names _).2 hm)]
        exact ht.insert_false hp name.lexeme
  · rw [body_declare, Context.bodyKind_begin, h.body]
  · rw [cls_declare, Context.classKind_begin, h.cls]

/-- Behind the initializer the name is ready. -/
theorem At.define_begin {name : Token} (h : w.At (Γ.begin name.lexeme)) (hΓ : Γ.Settled) :
    (w.define name).At (Γ.declare name.lexeme) := by
  refine ⟨?_, ?_, ?_⟩
  · have hs := h.scopes
    rw [define, scopes_enter]
    generalize w.scopes = ts at hs
    cases Γ with
    | nil => cases hs with | nil => exact .nil
    | cons sc Γ =>
      cases hs with
      | cons ht hts =>
        refine .cons ?_ hts
        refine (ht.insert_true name.lexeme).congr (fun x => ?_) ?_
        · simp
        · have hp : sc.pending = none := (hΓ sc rfl).1
          simp only [Scope.declare, hp, Scope.begin]
          split
          · rfl
          · simp
  · rw [define, body_enter, h.body, Context.bodyKind_begin, Context.bodyKind_declare]
  · rw [define, cls_enter, h.cls, Context.classKind_begin, Context.classKind_declare]

/-- A name that is ready at once is declared. -/
theorem At.introduce (h : w.At Γ) (name : Token) :
    (w.introduce name).At (Γ.declare name.lexeme) := by
  refine ⟨?_, ?_, ?_⟩
  · have hs := h.scopes
    rw [Walk.introduce, define, scopes_enter, scopes_declare]
    generalize w.scopes = ts at hs
    cases hs with
    | nil => exact .nil
    | cons ht hts =>
      refine .cons (ht.of_find?_eq fun x => ?_) hts
      dsimp only
      rw [Table.find?_insert]
      by_cases hx : name.lexeme = x
      · rw [if_pos hx, if_pos hx]
      · rw [if_neg hx, if_neg hx]
        split
        · rfl
        · rw [Table.find?_insert, if_neg hx]
  · rw [Walk.introduce, define, body_enter, body_declare, h.body, Context.bodyKind_declare]
  · rw [Walk.introduce, define, cls_enter, cls_declare, h.cls, Context.classKind_declare]

/-! ## Scopes opened and closed -/

/-- The innermost scope matters only for the names in it. -/
theorem At.congr_head {sc sc' : Scope} (h : w.At (sc :: Γ)) (hk : sc.kind = sc'.kind)
    (hn : ∀ x, x ∈ sc.names ↔ x ∈ sc'.names) (hp : sc.pending = sc'.pending) :
    w.At (sc' :: Γ) := by
  obtain ⟨hs, hb, hc⟩ := h
  refine ⟨?_, hb.trans (Context.bodyKind_congr hk Γ), hc.trans (Context.classKind_congr hk Γ)⟩
  generalize w.scopes = ts at hs
  cases hs with
  | cons ht hts => exact .cons (ht.congr hn hp) hts

theorem At.openScope (h : w.At Γ) : w.openScope.At (.block :: Γ) :=
  ⟨.cons (.empty _) h.scopes, h.body, h.cls⟩

theorem At.closeScope {sc : Scope} (h : w.At (sc :: Γ)) :
    List.Forall₂ Scope.ShownBy w.closeScope.scopes Γ := by
  have hs := h.scopes
  unfold Walk.closeScope
  generalize w.scopes = ts at hs
  cases hs with
  | cons _ hts => exact hts

/-- Parameters are introduced one after the other. -/
theorem At.foldl_introduce {sc : Scope} (params : List Token) (h : w.At (sc :: Γ)) :
    (params.foldl Walk.introduce w).At
      (params.foldl (fun sc p => sc.declare p.lexeme) sc :: Γ) := by
  induction params generalizing w sc with
  | nil => exact h
  | cons p params ih => exact ih (h.introduce p)

/-- Entering a body opens the scope of its parameters. -/
theorem At.enterBody (h : w.At Γ) (kind : BodyKind) (params : List Token) :
    (w.enterBody kind params).At (.ofParams kind params :: Γ) := by
  have h₀ : ({ w with body := kind }.openScope).At (⟨.body kind, [], none⟩ :: Γ) :=
    ⟨.cons (.empty _) h.scopes, rfl, h.cls⟩
  have hscope : ∀ (params : List Token) (sc : Scope), sc.pending = none →
      (params.foldl (fun sc p => sc.declare p.lexeme) sc).kind = sc.kind ∧
      (params.foldl (fun sc p => sc.declare p.lexeme) sc).pending = none ∧
      ∀ x, x ∈ (params.foldl (fun sc p => sc.declare p.lexeme) sc).names ↔
        x ∈ sc.names ∨ x ∈ params.map Token.lexeme := by
    intro params
    induction params with
    | nil => intro sc hp; exact ⟨rfl, hp, fun x => by simp⟩
    | cons p params ih =>
      intro sc hp
      obtain ⟨hk, hp', hn⟩ := ih (sc.declare p.lexeme) (by rw [Scope.declare, hp]; rfl)
      refine ⟨hk, hp', fun x => ?_⟩
      rw [List.foldl_cons, hn, Scope.names_declare, List.mem_cons, List.map_cons, List.mem_cons]
      tauto
  obtain ⟨hk, hp, hn⟩ := hscope params ⟨.body kind, [], none⟩ rfl
  exact (h₀.foldl_introduce params).congr_head hk
    (fun x => by simp [hn, Scope.ofParams, Scope.body]) hp

/-- Leaving a body leads back to where it stands. -/
theorem At.leaveBody {kind : BodyKind} {sc : Scope} (h : w.At (sc :: Γ))
    (hk : sc.kind = .body kind) : (w.leaveBody Γ.bodyKind).At Γ := by
  refine ⟨h.closeScope, rfl, h.cls.trans ?_⟩
  obtain ⟨kind', names, pending⟩ := sc
  cases hk
  rfl

/-- Leaving a block leads back to where it stands. -/
theorem At.closeBlock {sc : Scope} (h : w.At (sc :: Γ)) (hk : sc.kind = .block) :
    w.closeScope.At Γ := by
  obtain ⟨kind', names, pending⟩ := sc
  cases hk
  exact ⟨h.closeScope, h.body, h.cls⟩

@[simp] theorem scopes_introduce (w : Walk) (name : Token) :
    (w.introduce name).scopes = w.scopes.modifyHead fun t =>
      (if t.contains name.lexeme then t
        else t.insert name.lexeme false).insert name.lexeme true := by
  rw [introduce, define, scopes_enter, scopes_declare, List.modifyHead_modifyHead]
  rfl

@[simp] theorem body_introduce (w : Walk) (name : Token) : (w.introduce name).body = w.body := by
  rw [introduce, define, body_enter, body_declare]

@[simp] theorem cls_introduce (w : Walk) (name : Token) : (w.introduce name).cls = w.cls := by
  rw [introduce, define, cls_enter, cls_declare]

@[simp] theorem scopes_bind (w : Walk) (site : Site Nat) : (w.bind site).scopes = w.scopes := by
  unfold bind
  split <;> rfl

@[simp] theorem body_bind (w : Walk) (site : Site Nat) : (w.bind site).body = w.body := by
  unfold bind
  split <;> rfl

@[simp] theorem cls_bind (w : Walk) (site : Site Nat) : (w.bind site).cls = w.cls := by
  unfold bind
  split <;> rfl

@[simp] theorem scopes_read (w : Walk) (site : Site Nat) : (w.read site).scopes = w.scopes := by
  refine (scopes_bind _ site).trans ?_
  split <;> rfl

@[simp] theorem body_read (w : Walk) (site : Site Nat) : (w.read site).body = w.body := by
  refine (body_bind _ site).trans ?_
  split <;> rfl

@[simp] theorem cls_read (w : Walk) (site : Site Nat) : (w.read site).cls = w.cls := by
  refine (cls_bind _ site).trans ?_
  split <;> rfl

/-- Entering a class declares its name and opens the scopes of its methods. -/
theorem At.enterClass (h : w.At Γ) (hΓ : Γ.Settled) (name : Token)
    (superclass : Option (Site Nat)) :
    (w.enterClass name superclass).At (Γ.inClass name.lexeme superclass.isSome) := by
  have hname := h.introduce name
  have hs := hname.scopes
  have hb : w.body = (Γ.declare name.lexeme).bodyKind := by
    rw [Context.bodyKind_declare, h.body]
  rw [scopes_introduce] at hs
  have hreceiver : Scope.ShownBy (Table.empty.insert thisName true) .receiver :=
    (Scope.ShownBy.empty .receiver).insert_true thisName
  have hsuper : Scope.ShownBy (Table.empty.insert superName true) .superclass :=
    (Scope.ShownBy.empty .superclass).insert_true superName
  cases superclass with
  | none =>
    refine ⟨.cons hreceiver ?_, ?_, ?_⟩
    · rw [scopes_introduce]
      exact hs
    · exact (body_introduce { w with cls := .base } name).trans hb
    · rw [Option.isSome_none, Context.inClass, if_neg Bool.false_ne_true, List.nil_append,
        Context.classKind_receiver fun sc hsc => (hΓ.declare name.lexeme sc hsc).2]
      exact cls_introduce { w with cls := .base } name
  | some s =>
    have hreport : ∀ w' : Walk,
        (if s.name.lexeme = name.lexeme then
          w'.report s.name .ownSuperclass else w').scopes = w'.scopes ∧
        (if s.name.lexeme = name.lexeme then
          w'.report s.name .ownSuperclass else w').body = w'.body := fun w' => by
      split <;> exact ⟨rfl, rfl⟩
    refine ⟨.cons hreceiver (.cons hsuper ?_), ?_, ?_⟩
    · rw [scopes_read, (hreport _).1, scopes_introduce]
      exact hs
    · refine (body_read _ s).trans ((hreport _).2.trans ?_)
      exact (body_introduce { w with cls := .base } name).trans hb
    · exact cls_read _ s

/-- Leaving a class leads back to behind its name. -/
theorem At.leaveClass {name : String} {derived : Bool} (h : w.At (Γ.inClass name derived)) :
    (w.leaveClass derived Γ.classKind).At (Γ.declare name) := by
  have hb := h.body
  have hs := h.closeScope
  cases derived with
  | false =>
    refine ⟨hs, hb, ?_⟩
    rw [Context.classKind_declare]
    rfl
  | true =>
    refine ⟨?_, hb, ?_⟩
    · unfold Walk.leaveClass
      unfold Walk.closeScope at hs ⊢
      generalize w.scopes.tail = ts at hs
      cases hs with
      | cons _ hts => exact hts
    · rw [Context.classKind_declare]
      rfl

end Walk

end LoxLang
