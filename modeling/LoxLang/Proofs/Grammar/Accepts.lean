import LoxLang.Proofs.Grammar.Precedence

/-!
# What a reading accepts

A reading accepts some tokens if in front of them it returns a result, has moved behind them and has
recorded no error, whatever stands behind as long as the next token has a certain kind
(`Reading.Accepts`). As with soundness there is a rule for every step.
-/

namespace LoxLang

namespace Reading

variable {α β : Type}

/-- The reading returns a result with a property and moves behind the tokens `w`, if the kind of the
token behind them is in `F`. -/
def Accepts (F : Kind → Prop) (r : Reading α) (w : List Token) (P : α → Prop) : Prop :=
  ∀ c : Cursor, c.endMark.isEnd → F c.peek.kind →
    ∃ a, r { c with rest := w ++ c.rest } = .ok a c ∧ P a

/-- The next token is one of `G` in front of `v` and then one of `F`. -/
def Follows (G : Kind → Prop) (v : List Token) (F : Kind → Prop) : Prop :=
  match v with
  | [] => ∀ kind, F kind → G kind
  | t :: _ => G t.kind

theorem Follows.peek {F G : Kind → Prop} {v : List Token} (h : Follows G v F) {c : Cursor}
    (hc : F c.peek.kind) : G ({ c with rest := v ++ c.rest } : Cursor).peek.kind := by
  cases v with
  | nil => exact h _ hc
  | cons t v => exact h

theorem Follows.imp {F G G' : Kind → Prop} {v : List Token} (h : Follows G v F)
    (hG : ∀ kind, G kind → G' kind) : Follows G' v F := by
  cases v with
  | nil => exact fun kind hF => hG kind (h kind hF)
  | cons t v => exact hG _ h

theorem Follows.cons {F G : Kind → Prop} {t : Token} {v : List Token} {kind : Kind}
    (ht : t.kind = kind) (h : G kind) : Follows G (t :: v) F := by
  rw [← ht] at h
  exact h

/-- Any token may stand behind. -/
def Any (_ : Kind) : Prop := True

theorem follows_any (v : List Token) (F : Kind → Prop) : Follows Any v F := by
  cases v with
  | nil => exact fun _ _ => trivial
  | cons t v => exact trivial

namespace Accepts

variable {F G : Kind → Prop} {r : Reading α} {u v w : List Token} {P : α → Prop} {Q : β → Prop}

theorem mono (h : Accepts G r w P) (hF : ∀ kind, F kind → G kind) : Accepts F r w P :=
  fun c hc hp => h c hc (hF _ hp)

theorem imp {P' : α → Prop} (h : Accepts F r w P) (hP : ∀ a, P a → P' a) : Accepts F r w P' := by
  intro c hc hp
  obtain ⟨a, ha, hPa⟩ := h c hc hp
  exact ⟨a, ha, hP a hPa⟩

theorem pure {a : α} (h : P a) : Accepts F (pure a) [] P := fun _ _ _ => ⟨a, rfl, h⟩

/-- One reading after another. -/
theorem bind {k : α → Reading β} (hr : Accepts G r u P) (hv : Follows G v F)
    (hk : ∀ a, P a → Accepts F (k a) v Q) : Accepts F (r >>= k) (u ++ v) Q := by
  intro c hc hp
  obtain ⟨a, ha, hPa⟩ := hr { c with rest := v ++ c.rest } hc (hv.peek hp)
  obtain ⟨b, hb, hQb⟩ := hk a hPa c hc hp
  refine ⟨b, ?_, hQb⟩
  change EStateM.bind r k _ = _
  unfold EStateM.bind
  rw [List.append_assoc, ha]
  exact hb

/-- The token in front is looked at. -/
theorem peek {t : Token} {k : Token → Reading β} (h : Accepts F (k t) (t :: w) Q) :
    Accepts F (Reading.peek >>= k) (t :: w) Q :=
  fun c hc hp => h c hc hp

/-- The token behind is looked at. -/
theorem peekBehind {k : Token → Reading β} (h : ∀ t, F t.kind → Accepts F (k t) [] Q) :
    Accepts F (Reading.peek >>= k) [] Q :=
  fun c hc hp => h c.peek hp c hc hp

/-- The token behind the one in front decides. -/
theorem peekSecond {t t' : Token} {kind : Kind} {r r' : Reading β}
    (hthen : t'.kind = kind → Accepts F r (t :: t' :: w) Q)
    (helse : t'.kind ≠ kind → Accepts F r' (t :: t' :: w) Q) :
    Accepts F (do if (← get).peekSecond.kind = kind then r else r') (t :: t' :: w) Q := by
  intro c hc hp
  change ∃ b, (if t'.kind = kind then r else r') _ = _ ∧ Q b
  split
  · next ht => exact hthen ht c hc hp
  · next ht => exact helse ht c hc hp

theorem advance {t : Token} {k : Unit → Reading β} (h : Accepts F (k ()) w Q) :
    Accepts F (Reading.advance >>= k) (t :: w) Q :=
  fun c hc hp => h c hc hp

/-- A token that has to be there is. -/
theorem token {t : Token} {kind : Kind} {cause : GrammarCause} (ht : t.kind = kind) :
    Accepts F (Reading.expect kind cause) [t] (· = t) := by
  intro c _ _
  refine ⟨t, ?_, rfl⟩
  change (if t.kind = kind then _ else _ : Reading Token) _ = _
  rw [if_pos ht]
  rfl

theorem expect {t : Token} {kind : Kind} {cause : GrammarCause} {k : Token → Reading β}
    (ht : t.kind = kind) (h : Accepts F (k t) w Q) :
    Accepts F (Reading.expect kind cause >>= k) (t :: w) Q :=
  bind (token (F := Any) ht) (follows_any w F) fun _ ha => ha ▸ h

/-- A token that may be there is. -/
theorem acceptSome {t : Token} {kind : Kind} {k : Bool → Reading β} (ht : t.kind = kind)
    (h : Accepts F (k true) w Q) : Accepts F (Reading.accept kind >>= k) (t :: w) Q := by
  have hread : Accepts Any (Reading.accept kind) [t] (· = true) := by
    intro c _ _
    refine ⟨true, ?_, rfl⟩
    change (if t.kind = kind then _ else _ : Reading Bool) _ = _
    rw [if_pos ht]
    rfl
  exact bind hread (follows_any w F) fun _ ha => ha ▸ h

/-- A token that may be there is not. -/
theorem acceptNone {kind : Kind} {k : Bool → Reading β} (hw : Follows (· ≠ kind) w F)
    (h : Accepts F (k false) w Q) : Accepts F (Reading.accept kind >>= k) w Q := by
  have hread : Accepts (· ≠ kind) (Reading.accept kind) [] (· = false) := by
    intro c _ hne
    refine ⟨false, ?_, rfl⟩
    change (if c.peek.kind = kind then _ else _ : Reading Bool) _ = _
    rw [if_neg hne]
    rfl
  exact bind hread hw fun _ ha => ha ▸ h

/-- Nothing is read behind a reading. -/
theorem last {k : α → Reading β} (h : Accepts F r w P)
    (hk : ∀ a, P a → Accepts F (k a) [] Q) : Accepts F (r >>= k) w Q := by
  rw [← List.append_nil w]
  exact bind h (fun _ hF => hF) hk

theorem map {f : α → β} (h : Accepts F r w P) (hQ : ∀ a, P a → Q (f a)) :
    Accepts F (f <$> r) w Q := by
  rw [map_eq_pure_bind]
  exact last h fun a ha => pure (hQ a ha)

/-- Nothing is read in front of the token that may stand instead. -/
theorem unlessAtNone {kind : Kind} {Q : Option α → Prop} (hQ : Q none) :
    Accepts (· = kind) (Reading.unlessAt kind r) [] Q := by
  refine peekBehind fun t ht => ?_
  rw [if_pos ht]
  exact pure hQ

/-- What is read does not begin with the token that may stand instead. -/
theorem unlessAtSome {kind : Kind} {t : Token} {Q : Option α → Prop} (ht : t.kind ≠ kind)
    (h : Accepts F r (t :: w) P) (hQ : ∀ a, P a → Q (some a)) :
    Accepts F (Reading.unlessAt kind r) (t :: w) Q := by
  refine peek ?_
  rw [if_neg ht]
  exact map h hQ

end Accepts

end Reading

end LoxLang
