import LoxLang.Proofs.Grammar.Completeness
import LoxLang.Proofs.Grammar.Soundness
import LoxLang.Proofs.Lines.Reline

/-!
# Readings in other places

A reading looks at the tokens it passes and at the kind of the one behind them. So what it reads
without an error it also reads with its tokens on other lines, with other tokens behind them and on
more fuel, and the trees are the same up to the lines (`Reading.Carries`). Only where the reading
stops at the end is there a condition on what may stand behind it instead: it must not go on with
what is read. As with soundness there is a rule for every step.
-/

namespace LoxLang

/-- The tokens in front of a cursor, moved to other lines, and behind them those of another. -/
def Cursor.before (f : Nat → Nat) (c d : Cursor) : Cursor :=
  { d with rest := c.rest.map (Token.reline f) ++ d.rest }

theorem Cursor.before_of_nil {f : Nat → Nat} {c : Cursor} (h : c.rest = []) (d : Cursor) :
    c.before f d = d := by
  rw [before, h]
  rfl

theorem Cursor.before_of_cons {f : Nat → Nat} {c : Cursor} {t : Token} {ts : List Token}
    (h : c.rest = t :: ts) (d : Cursor) :
    c.before f d = { d with rest := t.reline f :: (ts.map (Token.reline f) ++ d.rest) } := by
  rw [before, h]
  rfl

namespace Reading

variable {α α' β β' : Type} {F G : Kind → Prop} {f : Nat → Nat} {p : Cursor → Cursor → Prop}

/-- A reading that returns a result has moved forward. -/
theorem Sound.ahead {r : Reading α} {P : α → List Token → Prop} (h : Sound none r P)
    {c c' : Cursor} {a : α} (hc : c.endMark.isEnd) (hr : r c = .ok a c') : ∃ w, c.Ahead c' w := by
  have h := h c hc nofun
  rw [hr] at h
  cases h with
  | ok hahead => exact ⟨_, hahead⟩

/-- The reading cannot do without a token. -/
def Needs (r : Reading α) : Prop :=
  ∀ (c c' : Cursor) (a : α), c.endMark.isEnd → c.rest = [] → r c = .ok a c' →
    c'.errors ≠ c.errors

theorem Sound.needs {r : Reading α} {P : α → List Token → Prop} (h : Sound none r P)
    (hP : ∀ a, ¬ P a []) : Needs r := by
  intro c c' a hc hrest hr he
  have h := h c hc nofun
  rw [hr] at h
  cases h with
  | @ok _ _ w hahead hPw =>
    have hw := hahead.rest
    rw [hrest] at hw
    rw [(List.append_eq_nil_iff.1 hw.symm).1] at hPw
    exact hP a (hPw he)

/-- What goes on behind a reading that needs a token needs one as well. -/
theorem Needs.bind {r : Reading α} {k : α → Reading β} {P : α → List Token → Prop}
    {Q : α → β → List Token → Prop} (hr : Needs r) (hsound : Sound none r P)
    (hk : ∀ a, Sound none (k a) (Q a)) : Needs (r >>= k) := by
  intro c c' b hc hrest hb he
  obtain ⟨a, c₁, ha, hb⟩ := of_bind_ok hb
  obtain ⟨u, hahead⟩ := hsound.ahead hc ha
  obtain ⟨v, hahead'⟩ := (hk a).ahead (hahead.endMark ▸ hc) hb
  exact hr c c₁ a hc hrest ha (hahead.errors_eq hahead' he).1

theorem Needs.map {r : Reading α} {P : α → List Token → Prop} (hr : Needs r)
    (hsound : Sound none r P) : Needs (some <$> r) := by
  rw [map_eq_pure_bind]
  exact hr.bind hsound fun a => .pure (P := fun _ _ => True) trivial

/-- What goes on with a reading that needs a token needs one as well. -/
theorem Needs.behind {r : Reading α} {k : α → Reading β} {P : α → List Token → Prop}
    {Q : α → β → List Token → Prop} (hk : ∀ a, Needs (k a)) (hr : Sound none r P)
    (hsound : ∀ a, Sound none (k a) (Q a)) : Needs (r >>= k) := by
  intro c c' b hc hrest hb he
  obtain ⟨a, c₁, ha, hb⟩ := of_bind_ok hb
  obtain ⟨u, hahead⟩ := hr.ahead hc ha
  have hc₁ : c₁.endMark.isEnd := hahead.endMark ▸ hc
  obtain ⟨v, hahead'⟩ := (hsound a).ahead hc₁ hb
  have hu := hahead.rest
  rw [hrest] at hu
  exact hk a c₁ c' b hc₁ (List.append_eq_nil_iff.1 hu.symm).2 hb (hahead.errors_eq hahead' he).2

/-- Any two cursors. -/
def AnyPlaces (_ _ : Cursor) : Prop := True

/-- Whatever `r` reads without an error, `r'` reads on other lines and in front of other tokens, and
returns the image of its result. If `r` stops at the end, then the kind of what stands there instead
is in `F`. This is only asked for where `p` holds of the two cursors. -/
structure Carries (F : Kind → Prop) (f : Nat → Nat) (p : Cursor → Cursor → Prop) (g : α → α')
    (r : Reading α) (r' : Reading α') : Prop where
  sound : Sound none r fun _ _ => True
  carry : ∀ {c c' d : Cursor} {a : α}, c.endMark.isEnd → d.endMark.isEnd → p c (c.before f d) →
    r c = .ok a c' → c'.errors = c.errors → (c'.rest = [] → F d.peek.kind) →
    r' (c.before f d) = .ok (g a) (c'.before f d)

namespace Carries

variable {g : α → α'} {r : Reading α} {r' : Reading α'} {h : β → β'}

theorem mono (hr : Carries G f p g r r') (hF : ∀ kind, F kind → G kind) :
    Carries F f p g r r' :=
  ⟨hr.sound, fun hc hd hp ha he hend => hr.carry hc hd hp ha he fun hrest => hF _ (hend hrest)⟩

/-- A reading that is carried everywhere is carried where `p` holds. -/
theorem anywhere (hr : Carries F f AnyPlaces g r r') : Carries F f p g r r' :=
  ⟨hr.sound, fun hc hd _ => hr.carry hc hd trivial⟩

theorem pure (a : α) : Carries F f p g (pure a) (pure (g a)) := by
  refine ⟨.pure trivial, fun _ _ _ ha _ _ => ?_⟩
  cases ha
  rfl

theorem throw (e : GrammarError) : Carries F f p g (throw (.error e)) r' :=
  ⟨.throw e, fun _ _ _ ha => by cases ha⟩

theorem outOfFuel : Carries F f p g outOfFuel r' :=
  ⟨.outOfFuel, fun _ _ _ ha => by cases ha⟩

/-- One reading after another. Where the first stops at the end, so does the second, unless it needs
a token. -/
theorem bindOf {k : α → Reading β} {k' : α' → Reading β'} (hr : Carries G f p g r r')
    (hk : ∀ a, Carries F f AnyPlaces h (k a) (k' (g a)))
    (hG : (∀ kind, F kind → G kind) ∨ ∀ a, Needs (k a)) :
    Carries F f p h (r >>= k) (r' >>= k') := by
  refine ⟨.bind hr.sound fun a => (hk a).sound.mono fun _ _ _ _ _ => trivial, ?_⟩
  intro c c' d b hc hd hp hb he hend
  obtain ⟨a, c₁, ha, hb⟩ := of_bind_ok hb
  obtain ⟨u, hahead⟩ := hr.sound.ahead hc ha
  have hc₁ : c₁.endMark.isEnd := hahead.endMark ▸ hc
  obtain ⟨v, hahead'⟩ := (hk a).sound.ahead hc₁ hb
  obtain ⟨he₁, he₂⟩ := hahead.errors_eq hahead' he
  have hend₁ : c₁.rest = [] → G d.peek.kind := fun hrest => by
    rcases hG with hG | hneeds
    · have hv := hahead'.rest
      rw [hrest] at hv
      exact hG _ (hend (List.append_eq_nil_iff.1 hv.symm).2)
    · exact absurd he₂ (hneeds a _ _ _ hc₁ hrest hb)
  have hread := hr.carry hc hd hp ha he₁ hend₁
  rw [bind_ok hread]
  exact (hk a).carry hc₁ hd trivial hb he₂ hend

/-- One reading after another, with the same condition on what stands behind them. -/
theorem bind {k : α → Reading β} {k' : α' → Reading β'} (hr : Carries F f p g r r')
    (hk : ∀ a, Carries F f AnyPlaces h (k a) (k' (g a))) :
    Carries F f p h (r >>= k) (r' >>= k') :=
  hr.bindOf hk (.inl fun _ h => h)

/-- Where no token is left nothing is asked of a reading that needs one. -/
theorem needs (hsound : Sound none r fun _ _ => True) (hneeds : Needs r) :
    Carries F f (fun c _ => c.rest = []) g r r' :=
  ⟨hsound, fun hc _ hrest ha he _ => absurd he (hneeds _ _ _ hc hrest ha)⟩

/-- What follows a look at the token in front. At the end another token may stand in front. -/
theorem peek {k : Token → Reading α} {k' : Token → Reading α'}
    (htoken : ∀ t, Carries F f (fun c c' => c.peek = t ∧ c'.peek = t.reline f) g (k t)
      (k' (t.reline f)))
    (hlast : ∀ t t' : Token, t.kind = .eof → F t'.kind →
      Carries F f (fun c _ => c.rest = []) g (k t) (k' t')) :
    Carries F f p g (Reading.peek >>= k) (Reading.peek >>= k') := by
  refine ⟨.peek fun t => (htoken t).sound.anywhere, ?_⟩
  intro c c' d a hc hd _ ha he hend
  change k' (c.before f d).peek (c.before f d) = _
  cases hrest : c.rest with
  | nil =>
    obtain ⟨w, hahead⟩ := (htoken c.peek).sound.ahead hc ha
    have hw := hahead.rest
    rw [hrest] at hw
    have hpeek : (c.before f d).peek = d.peek := by rw [Cursor.before_of_nil hrest]
    have heof : c.peek.kind = .eof := by
      rw [Cursor.peek, hrest]
      exact of_decide_eq_true hc
    have hF := hend (List.append_eq_nil_iff.1 hw.symm).2
    exact (hlast c.peek _ heof (hpeek ▸ hF)).carry hc hd hrest ha he hend
  | cons t ts =>
    have hpeek : c.peek = t := by
      rw [Cursor.peek, hrest]
      rfl
    have hpeek' : (c.before f d).peek = t.reline f := by
      rw [Cursor.before_of_cons hrest]
      rfl
    rw [hpeek']
    exact (htoken t).carry hc hd ⟨hpeek, hpeek'⟩ (hpeek ▸ ha) he hend

/-- The token in front is read. -/
theorem advance {t t' : Token} (hend : t.kind ≠ .eof) :
    Carries F f (fun c c' => c.peek = t ∧ c'.peek = t') id Reading.advance Reading.advance := by
  refine ⟨fun c _ _ => .ok (w := c.rest.take 1) ⟨?_, rfl, List.suffix_refl _⟩ fun _ => trivial, ?_⟩
  · exact (List.take_append_drop 1 c.rest).symm.trans (by rw [List.drop_one]; rfl)
  · intro c c' d a hc _ hp ha _ _
    cases ha
    rw [Cursor.before_of_cons (Cursor.rest_eq_cons hc hp.1 hend)]
    rfl

theorem fail (cause : GrammarCause) : Carries F f p g (Reading.fail cause) r' :=
  ⟨.fail cause, fun _ _ _ ha => by cases ha⟩

/-- Where an error is recorded nothing is asked for. -/
theorem noted {cause : GrammarCause} (hsound : Sound none r fun _ _ => True) :
    Carries F f p g (Reading.note cause >>= fun _ => r) r' := by
  refine ⟨.bind (.note cause) fun _ => hsound.mono fun _ _ _ _ _ => trivial, ?_⟩
  intro c c' d a hc _ _ ha he _
  obtain ⟨w, hahead⟩ := hsound.ahead (c := c.record ⟨c.peek, cause⟩) hc ha
  have hlen := hahead.errors.length_le
  rw [he] at hlen
  exact absurd hlen (Nat.not_succ_le_self _)

/-- A token that has to be there is read. -/
theorem expect {kind : Kind} [kind.IsToken] (cause : GrammarCause) :
    Carries F f p (Token.reline f) (Reading.expect kind cause) (Reading.expect kind cause) := by
  refine .peek (fun t => ?_) fun t t' ht _ => ?_
  · rw [Token.kind_reline]
    split
    · next hkind => exact .bind (.advance (hkind ▸ Kind.IsToken.ne_eof)) fun _ => .pure t
    · exact .fail cause
  · rw [if_neg fun h => Kind.IsToken.ne_eof (h.symm.trans ht)]
    exact .fail cause

/-- A token that may be there is read if it is there. -/
theorem accept {kind : Kind} [kind.IsToken] (hF : ∀ k, F k → k ≠ kind) :
    Carries F f p id (Reading.accept kind) (Reading.accept kind) := by
  refine .peek (fun t => ?_) fun t t' ht ht' => ?_
  · rw [Token.kind_reline]
    split
    · next hkind => exact .bind (.advance (hkind ▸ Kind.IsToken.ne_eof)) fun _ => .pure true
    · exact .pure false
  · rw [if_neg (hF _ ht'), if_neg fun h => Kind.IsToken.ne_eof (h.symm.trans ht)]
    exact .pure false

theorem map (hr : Carries F f p g r r') :
    Carries F f p (Option.map g) (some <$> r) (some <$> r') := by
  rw [map_eq_pure_bind, map_eq_pure_bind]
  exact .bind hr fun a => .pure (some a)

/-- A reading that may be left out in front of a token is carried if it needs tokens of its own. -/
theorem unlessAt {kind : Kind} [kind.IsToken] (hr : Carries F f AnyPlaces g r r')
    (hneeds : Needs r) :
    Carries F f p (Option.map g) (Reading.unlessAt kind r) (Reading.unlessAt kind r') := by
  refine .peek (fun t => ?_) fun t t' ht _ => ?_
  · rw [Token.kind_reline]
    split
    · exact .pure none
    · exact (map hr).anywhere
  · rw [if_neg fun h => Kind.IsToken.ne_eof (h.symm.trans ht)]
    exact .needs (map hr).sound (hneeds.map hr.sound)

/-- Something that is only there behind a token of a kind. -/
theorem optional {kind : Kind} [kind.IsToken] {k : Option α → Reading β}
    {k' : Option α' → Reading β'} (hr : Carries G f AnyPlaces g r r')
    (hk : ∀ o, Carries F f AnyPlaces h (k o) (k' (o.map g)))
    (hF : (∀ k, F k → G k ∧ k ≠ kind) ∨ ∀ o, Needs (k o)) :
    Carries F f p h
      (do
        let o ← if ← Reading.accept kind then some <$> r else Pure.pure none
        k o)
      (do
        let o ← if ← Reading.accept kind then some <$> r' else Pure.pure none
        k' o) := by
  have hrest : ∀ b : Bool, Carries F f AnyPlaces h
      (if b then some <$> r >>= k else Pure.pure none >>= k)
      (if b then some <$> r' >>= k' else Pure.pure none >>= k') := by
    intro b
    cases b with
    | true => exact .bindOf (map hr) hk (hF.imp (fun hF kind hkind => (hF kind hkind).1) id)
    | false => exact .bind (.pure (g := Option.map g) none) hk
  rcases hF with hF | hneeds
  · exact .bind (.accept fun k hk => (hF k hk).2) hrest
  · refine .bindOf (.accept (F := (· ≠ kind)) fun _ h => h) hrest (.inr fun b => ?_)
    cases b with
    | true => exact .behind hneeds (map hr).sound fun o => (hk o).sound
    | false => exact hneeds none

/-- The token behind the one in front decides. Where there is none, the second reading must not
return a result. -/
theorem peekSecond {t : Token} {kind : Kind} [kind.IsToken] {r₁ r₂ : Reading α}
    {r₁' r₂' : Reading α'}
    (hthen : Carries F f (fun c c' => c.peek = t ∧ c'.peek = t.reline f) g r₁ r₁')
    (helse : Carries F f AnyPlaces g r₂ r₂') (ht : t.kind ≠ .eof)
    (halone : ∀ {c c' : Cursor} {a : α}, c.endMark.isEnd → c.rest = [t] → r₂ c = .ok a c' →
      c'.errors ≠ c.errors) :
    Carries F f (fun c c' => c.peek = t ∧ c'.peek = t.reline f) g
      (do if (← MonadState.get).peekSecond.kind = kind then r₁ else r₂)
      (do if (← MonadState.get).peekSecond.kind = kind then r₁' else r₂') := by
  refine ⟨.get fun c => ?_, ?_⟩
  · split
    · exact hthen.sound
    · exact helse.sound
  · intro c c' d a hc hd hp ha he hF
    have hrest := Cursor.rest_eq_cons hc hp.1 ht
    change (if c.peekSecond.kind = kind then r₁ else r₂) c = _ at ha
    change (if (c.before f d).peekSecond.kind = kind then r₁' else r₂') (c.before f d) = _
    have hsecond : c.peekSecond = c.rest.tail.headD c.endMark := rfl
    cases htail : c.rest.tail with
    | nil =>
      rw [htail] at hrest hsecond
      rw [hsecond, if_neg fun h => Kind.IsToken.ne_eof (h.symm.trans (of_decide_eq_true hc))] at ha
      exact absurd he (halone hc hrest ha)
    | cons t' ts =>
      rw [htail] at hsecond hrest
      have hsecond' : (c.before f d).peekSecond = t'.reline f := by
        rw [Cursor.before_of_cons hrest]
        rfl
      rw [hsecond', Token.kind_reline]
      rw [hsecond] at ha
      by_cases hkind : t'.kind = kind
      · rw [if_pos hkind]
        rw [if_pos (show (List.headD (t' :: ts) c.endMark).kind = kind from hkind)] at ha
        exact hthen.carry hc hd hp ha he hF
      · rw [if_neg hkind]
        rw [if_neg (show (List.headD (t' :: ts) c.endMark).kind ≠ kind from hkind)] at ha
        exact helse.carry hc hd trivial ha he hF

end Carries

/-- What begins with a token that has to be there needs a token. -/
theorem needs_expect {kind : Kind} [kind.IsToken] {cause : GrammarCause} {k : Token → Reading α} :
    Needs (Reading.expect kind cause >>= k) := by
  intro c c' a hc hrest ha
  obtain ⟨t, c₁, ht, -⟩ := of_bind_ok ha
  obtain ⟨t, c₂, hpeek, ht⟩ := of_bind_ok ht
  cases hpeek
  split at ht
  · next hkind =>
    have hcons := Cursor.rest_eq_cons hc rfl (hkind ▸ Kind.IsToken.ne_eof)
    rw [hrest] at hcons
    cases hcons
  · cases ht

end Reading

end LoxLang
