import LoxLang.Tree.Read.Cursor
import LoxLang.Tree.Read

/-!
# What a reading has read

A reading is sound for a property if the tokens it moves over have that property together with its
result, as long as no error is recorded on the way (`Reading.Sound`). Errors are never taken back,
so a reading at whose end there is none has met none. The rules below prove soundness along the
text of a reading: each step contributes its tokens, and a token that was looked at is the one that
is read next.
-/

namespace LoxLang

/-- A cursor further on, behind the tokens `w`. -/
structure Cursor.Ahead (c c' : Cursor) (w : List Token) : Prop where
  rest : c.rest = w ++ c'.rest
  endMark : c'.endMark = c.endMark
  errors : c.errors <:+ c'.errors

namespace Cursor.Ahead

variable {c c' c'' : Cursor} {u v : List Token}

theorem refl (c : Cursor) : c.Ahead c [] := ⟨rfl, rfl, List.suffix_refl _⟩

theorem trans (h : c.Ahead c' u) (h' : c'.Ahead c'' v) : c.Ahead c'' (u ++ v) :=
  ⟨by rw [h.rest, h'.rest, List.append_assoc], h'.endMark.trans h.endMark,
    h.errors.trans h'.errors⟩

/-- Errors that are gone at the end were never there. -/
theorem errors_eq (h : c.Ahead c' u) (h' : c'.Ahead c'' v) (he : c''.errors = c.errors) :
    c'.errors = c.errors ∧ c''.errors = c'.errors := by
  have hlen : c'.errors.length = c.errors.length := by
    have h₁ := h.errors.length_le
    have h₂ := h'.errors.length_le
    rw [he] at h₂
    omega
  have hc' := (h.errors.eq_of_length hlen.symm).symm
  exact ⟨hc', he.trans hc'.symm⟩

end Cursor.Ahead

theorem skipFrom_suffix (last : Token) (ts : List Token) : skipFrom last ts <:+ ts := by
  induction ts generalizing last with
  | nil => exact List.suffix_refl _
  | cons t ts ih =>
    unfold skipFrom
    split
    · exact List.suffix_refl _
    · exact (ih t).trans (List.suffix_cons t ts)

/-- Skipping moves forward. -/
theorem skipFaulty_suffix (ts : List Token) : skipFaulty ts <:+ ts := by
  cases ts with
  | nil => exact List.suffix_refl _
  | cons t ts => exact (skipFrom_suffix t ts).trans (List.suffix_cons t ts)

/-- A kind that a reading asks for by name. The end mark is never asked for. -/
class Kind.IsToken (kind : Kind) : Prop where
  ne_eof : kind ≠ .eof

namespace Kind.IsToken

instance : IsToken .leftParen := ⟨by simp⟩

instance : IsToken .rightParen := ⟨by simp⟩

instance : IsToken .leftBrace := ⟨by simp⟩

instance : IsToken .rightBrace := ⟨by simp⟩

instance : IsToken .comma := ⟨by simp⟩

instance : IsToken .dot := ⟨by simp⟩

instance : IsToken .semicolon := ⟨by simp⟩

instance : IsToken .equal := ⟨by simp⟩

instance : IsToken .less := ⟨by simp⟩

instance : IsToken .identifier := ⟨by simp⟩

instance : IsToken .kwElse := ⟨by simp⟩

end Kind.IsToken

/-- A token in front that is not the end mark is the first of those that are left. -/
theorem Cursor.rest_eq_cons {c : Cursor} {t : Token} (hc : c.endMark.isEnd) (ht : c.peek = t)
    (hend : t.kind ≠ .eof) : c.rest = t :: c.rest.tail := by
  obtain ⟨rest, endMark, errors⟩ := c
  cases rest with
  | nil =>
    cases ht
    exact absurd (of_decide_eq_true hc) hend
  | cons t' rest =>
    cases ht
    rfl

namespace Reading

variable {α β : Type}

/-- A sequence goes on with the result of its first part. -/
theorem bind_ok {r : Reading α} {k : α → Reading β} {c c' : Cursor} {a : α}
    (h : r c = .ok a c') : (r >>= k) c = k a c' := by
  change EStateM.bind r k c = _
  rw [EStateM.bind, h]

/-- A sequence stops where its first part does. -/
theorem bind_error {r : Reading α} {k : α → Reading β} {c c' : Cursor} {stop : Stop}
    (h : r c = .error stop c') : (r >>= k) c = .error stop c' := by
  change EStateM.bind r k c = _
  rw [EStateM.bind, h]

/-- A sequence that returns a result has passed its first part. -/
theorem of_bind_ok {r : Reading α} {k : α → Reading β} {c c' : Cursor} {b : β}
    (h : (r >>= k) c = .ok b c') : ∃ a c₁, r c = .ok a c₁ ∧ k a c₁ = .ok b c' := by
  change EStateM.bind r k c = _ at h
  unfold EStateM.bind at h
  cases hr : r c with
  | ok a c₁ =>
    rw [hr] at h
    exact ⟨a, c₁, rfl, h⟩
  | error e c₁ =>
    rw [hr] at h
    cases h

/-- How a reading may end: with a result whose tokens have a property if no error was recorded, with
an error, or without fuel. -/
inductive Ends (c : Cursor) (P : α → List Token → Prop) : EStateM.Result Stop Cursor α → Prop
  | ok {a : α} {c' : Cursor} {w : List Token} : c.Ahead c' w → (c'.errors = c.errors → P a w) →
      Ends c P (.ok a c')
  | error {e : GrammarError} {c' : Cursor} {w : List Token} : c.Ahead c' w →
      Ends c P (.error (.error e) c')
  | outOfFuel {c' : Cursor} : Ends c P (.error .outOfFuel c')

/-- A reading is sound for a property of its result and its tokens. If `front` is a token, this is
only asked for where that token stands in front. -/
def Sound (front : Option Token) (r : Reading α) (P : α → List Token → Prop) : Prop :=
  ∀ c : Cursor, c.endMark.isEnd → (∀ t ∈ front, c.peek = t) → Ends c P (r c)

namespace Sound

variable {front : Option Token} {r : Reading α} {P Q : α → List Token → Prop}
  {R : β → List Token → Prop}

theorem mono (h : Sound front r P) (hPQ : ∀ a w, P a w → Q a w) : Sound front r Q := by
  intro c hc ht
  have h := h c hc ht
  generalize r c = x at h
  cases h with
  | ok hc' hP => exact .ok hc' fun he => hPQ _ _ (hP he)
  | error hc' => exact .error hc'
  | outOfFuel => exact .outOfFuel

/-- A reading that is sound everywhere is sound in front of any token. -/
theorem anywhere (h : Sound none r P) : Sound front r P := fun c hc _ => h c hc nofun

theorem pure {a : α} (h : P a []) : Sound front (pure a) P :=
  fun c _ _ => .ok (.refl c) fun _ => h

theorem throw (e : GrammarError) : Sound front (throw (.error e)) P :=
  fun c _ _ => .error (.refl c)

theorem outOfFuel : Sound front outOfFuel P := fun _ _ _ => .outOfFuel

/-- One reading after another: their tokens are put together. -/
theorem bind {k : α → Reading β} (hr : Sound front r P)
    (hk : ∀ a, Sound none (k a) fun b v => ∀ u, P a u → R b (u ++ v)) :
    Sound front (r >>= k) R := by
  intro c hc ht
  have h := hr c hc ht
  change Ends c R (EStateM.bind r k c)
  unfold EStateM.bind
  generalize r c = x at h
  cases h with
  | @ok a c' u hc' hP =>
    have hk := hk a c' (hc'.endMark ▸ hc) nofun
    dsimp only
    generalize k a c' = y at hk
    cases hk with
    | ok hc'' hR =>
      refine .ok (hc'.trans hc'') fun he => ?_
      obtain ⟨he₁, he₂⟩ := hc'.errors_eq hc'' he
      exact hR he₂ u (hP he₁)
    | error hc'' => exact .error (hc'.trans hc'')
    | outOfFuel => exact .outOfFuel
  | error hc' => exact .error hc'
  | outOfFuel => exact .outOfFuel

/-- What follows a look at the token in front may rely on it. -/
theorem peek {k : Token → Reading β} (hk : ∀ t, Sound (some t) (k t) R) :
    Sound front (Reading.peek >>= k) R :=
  fun c hc _ => hk c.peek c hc fun _ ht => (Option.some.inj ht)

theorem get {k : Cursor → Reading β} (hk : ∀ c, Sound front (k c) R) :
    Sound front (MonadState.get >>= k) R :=
  fun c hc ht => hk c c hc ht

/-- The token in front is read. -/
theorem advance {t : Token} (hend : t.kind ≠ .eof) :
    Sound (some t) Reading.advance fun _ w => w = [t] := by
  intro c hc ht
  have hrest := Cursor.rest_eq_cons hc (ht t rfl) hend
  exact .ok (w := [t]) ⟨hrest, rfl, List.suffix_refl _⟩ fun _ => rfl

theorem fail (cause : GrammarCause) : Sound front (Reading.fail cause) P :=
  peek fun _ => throw _

/-- Behind an error that is recorded nothing is promised. -/
theorem note (cause : GrammarCause) : Sound front (Reading.note cause) fun _ _ => False := by
  intro c hc ht
  refine .ok (w := []) ⟨rfl, rfl, List.suffix_cons _ _⟩ fun he => ?_
  exact absurd (congrArg List.length he) (Nat.succ_ne_self _)

theorem expect {kind : Kind} [kind.IsToken] (cause : GrammarCause) :
    Sound front (Reading.expect kind cause) fun t w => w = [t] ∧ t.kind = kind := by
  refine peek fun t => ?_
  split
  · next hkind =>
    refine bind (advance (hkind ▸ Kind.IsToken.ne_eof)) fun _ => pure ?_
    rintro _ rfl
    exact ⟨rfl, hkind⟩
  · exact fail cause

theorem accept {kind : Kind} [kind.IsToken] :
    Sound front (Reading.accept kind) fun b w =>
      if b then ∃ t, w = [t] ∧ t.kind = kind else w = [] := by
  refine peek fun t => ?_
  split
  · next hkind =>
    refine bind (advance (hkind ▸ Kind.IsToken.ne_eof)) fun _ => pure ?_
    rintro _ rfl
    exact ⟨t, rfl, hkind⟩
  · exact pure rfl

theorem unlessAt (kind : Kind) (h : Sound none r P) :
    Sound front (Reading.unlessAt kind r) fun o w => (o = none ∧ w = []) ∨ ∃ a ∈ o, P a w := by
  refine peek fun t => ?_
  split
  · exact pure (.inl ⟨rfl, rfl⟩)
  · refine bind h.anywhere fun a => pure fun u hu => .inr ⟨a, rfl, ?_⟩
    rwa [List.append_nil]

theorem some {r : Reading α} (h : Sound front r P) :
    Sound front (Option.some <$> r) fun o w => ∃ a, o = Option.some a ∧ P a w := by
  rw [map_eq_pure_bind]
  refine bind h fun a => pure fun u hu => ⟨a, rfl, ?_⟩
  rwa [List.append_nil]

/-- Something that is only there behind a token of a kind. -/
theorem optional {kind : Kind} [kind.IsToken] {r : Reading α} {k : Option α → Reading β}
    (hr : Sound none r P)
    (hk : ∀ o, Sound none (k o) fun b v => ∀ u, ((o = none ∧ u = []) ∨ ∃ a t u', o = Option.some a ∧
      t.kind = kind ∧ u = t :: u' ∧ P a u') → R b (u ++ v)) :
    Sound front (do
      let o ← if ← Reading.accept kind then Option.some <$> r else Pure.pure none
      k o) R := by
  refine bind accept fun b => ?_
  cases b with
  | true =>
    refine bind hr.some fun o => (hk o).mono ?_
    rintro b v hv u ⟨a, rfl, ha⟩ _ ⟨t, rfl, ht⟩
    exact hv (t :: u) (.inr ⟨a, t, u, rfl, ht, rfl, ha⟩)
  | false =>
    refine bind (pure (P := fun o w => o = none ∧ w = []) ⟨rfl, rfl⟩) fun o => (hk o).mono ?_
    rintro b v hv _ ⟨rfl, rfl⟩ _ rfl
    exact hv [] (.inl ⟨rfl, rfl⟩)

end Sound

end Reading

end LoxLang
