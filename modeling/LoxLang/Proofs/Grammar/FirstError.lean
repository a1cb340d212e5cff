import LoxLang.Proofs.Grammar.Halting
import LoxLang.Proofs.Grammar.Relaxed

/-!
# Where a reading gets stuck

A reading is predictive for a language if the tokens it passes are a word of the language, if what
may come behind them is what may come behind the language, and if it stops only where no word goes
on (`Reading.Predicts`). What comes behind is a language, too, of which something may have to be
known: that no word of it begins with an operator, say. The rules below prove this along the text of
a reading. Only the first error counts; what is read behind it does not matter any more.
-/

open scoped Computability

namespace LoxLang

/-- The relaxed grammar does not know of these errors: a target that cannot be assigned to, and a
list that is too long. -/
def GrammarCause.IsRelaxed : GrammarCause → Prop
  | assignmentTarget | tooManyParameters | tooManyArguments => True
  | _ => False

/-- A condition on what comes behind. -/
abbrev Tails := Language Token → Prop

/-- Anything may come behind. -/
def Always : Tails := fun _ => True

/-- The tokens `u` are a word of the language. In front of `rest` it ends with them: what goes on in
the same way is a word that comes behind. -/
structure Passes (A : Tails) (L : Language Token) (u rest : List Token) : Prop where
  mem : u ∈ L
  ends : ∀ K, A K → ∀ v, frontKind v = frontKind rest → u ++ v ∈ L * K → v ∈ K

/-- The tokens `u` begin a word of the language, but none goes on like `rest`. -/
structure Stuck (A : Tails) (L : Language Token) (u rest : List Token) : Prop where
  begins : ∃ v, u ++ v ∈ L
  stuck : ∀ K, A K → ∀ v, frontKind v = frontKind rest → u ++ v ∉ L * K

theorem frontKind_append_congr {v w : List Token} (h : frontKind v = frontKind w) (u : List Token) :
    frontKind (u ++ v) = frontKind (u ++ w) := by
  cases u with
  | nil => exact h
  | cons => rfl

section Words

variable {A B C : Tails} {L M : Language Token} {u v rest : List Token}

theorem Passes.mono (h : Passes B L u rest) (hA : ∀ K, A K → B K) : Passes A L u rest :=
  ⟨h.mem, fun K hK => h.ends K (hA K hK)⟩

theorem Stuck.mono (h : Stuck B L u rest) (hA : ∀ K, A K → B K) : Stuck A L u rest :=
  ⟨h.begins, fun K hK => h.stuck K (hA K hK)⟩

/-- One word after another. -/
theorem Passes.mul (h : Passes B L u (v ++ rest)) (h' : Passes C M v rest)
    (hA : ∀ K, A K → B (M * K) ∧ C K) : Passes A (L * M) (u ++ v) rest where
  mem := Language.append_mem_mul h.mem h'.mem
  ends K hK w hw hmem := by
    rw [mul_assoc, List.append_assoc] at hmem
    exact h'.ends K (hA K hK).2 w hw
      (h.ends _ (hA K hK).1 _ (frontKind_append_congr hw v) hmem)

theorem Passes.stuck (h : Passes B L u (v ++ rest)) (h' : Stuck C M v rest)
    (hA : ∀ K, A K → B (M * K) ∧ C K) : Stuck A (L * M) (u ++ v) rest where
  begins := by
    obtain ⟨w, hw⟩ := h'.begins
    exact ⟨w, List.append_assoc u v w ▸ Language.append_mem_mul h.mem hw⟩
  stuck K hK w hw hmem := by
    rw [mul_assoc, List.append_assoc] at hmem
    exact h'.stuck K (hA K hK).2 w hw
      (h.ends _ (hA K hK).1 _ (frontKind_append_congr hw v) hmem)

theorem Stuck.mul [hM : Filled M] (h : Stuck B L u rest) (hA : ∀ K, A K → B (M * K)) :
    Stuck A (L * M) u rest where
  begins := by
    obtain ⟨v, hv⟩ := h.begins
    obtain ⟨w, hw⟩ := hM
    exact ⟨v ++ w, List.append_assoc u v w ▸ Language.append_mem_mul hv hw⟩
  stuck K hK w hw hmem := by
    rw [mul_assoc] at hmem
    exact h.stuck _ (hA K hK) w hw hmem

/-- In front of a token of the kind, the words of the second language are those of the first. -/
def Selects (A : Tails) (kind : Kind) (L M : Language Token) : Prop :=
  L ≤ M ∧ ∀ K, A K → ∀ w ∈ M * K, frontKind w = kind → w ∈ L * K

theorem Passes.widen (h : Passes A L u rest) (hs : Selects A (frontKind (u ++ rest)) L M) :
    Passes A M u rest where
  mem := hs.1 h.mem
  ends K hK v hv hmem := h.ends K hK v hv (hs.2 K hK _ hmem (frontKind_append_congr hv u))

theorem Stuck.widen (h : Stuck A L u rest) (hs : Selects A (frontKind (u ++ rest)) L M) :
    Stuck A M u rest where
  begins := h.begins.imp fun _ hv => hs.1 hv
  stuck K hK v hv hmem := h.stuck K hK v hv (hs.2 K hK _ hmem (frontKind_append_congr hv u))

end Words

namespace Cursor

/-- There is no end mark but the one at the end. -/
structure Clean (c : Cursor) : Prop where
  endMark : c.endMark.isEnd
  rest : ∀ t ∈ c.rest, ¬ t.isEnd

/-- The second cursor has the same tokens, and maybe some of them behind it. -/
structure Onward (c c' : Cursor) : Prop where
  rest : c'.rest <:+ c.rest
  endMark : c'.endMark = c.endMark

variable {c c' c'' : Cursor}

theorem Onward.refl (c : Cursor) : c.Onward c := ⟨List.suffix_refl _, rfl⟩

theorem Onward.trans (h : c.Onward c') (h' : c'.Onward c'') : c.Onward c'' :=
  ⟨h'.rest.trans h.rest, h'.endMark.trans h.endMark⟩

theorem Clean.onward (hc : c.Clean) (h : c.Onward c') : c'.Clean :=
  ⟨h.endMark ▸ hc.endMark, fun t ht => hc.rest t (h.rest.subset ht)⟩

/-- A cursor's next token has the kind that its tokens begin with. -/
theorem Clean.frontKind_rest (hc : c.Clean) : frontKind c.rest = c.peek.kind := by
  unfold Cursor.peek
  cases c.rest with
  | nil => exact (of_decide_eq_true hc.endMark).symm
  | cons => rfl

/-- At the end mark there are no tokens left. -/
theorem Clean.rest_eq_nil (hc : c.Clean) (h : c.peek.kind = .eof) : c.rest = [] := by
  cases hrest : c.rest with
  | nil => rfl
  | cons t ts =>
    refine absurd (decide_eq_true ?_) (hc.rest t (hrest ▸ List.mem_cons_self))
    rwa [Cursor.peek, hrest] at h

end Cursor

namespace Reading

variable {α β : Type}

/-- The error is one that the relaxed grammar does not know, or it is at the token where the
language gets stuck. -/
def Blames (A : Tails) (L : Language Token) (c : Cursor) (e : GrammarError) : Prop :=
  e.cause.IsRelaxed ∨ ∃ u rest, c.rest = u ++ rest ∧ e.token = rest.headD c.endMark ∧
    Stuck A L u rest

/-- The first of the errors that have been added to those of the cursor is to blame. -/
def Spoils (A : Tails) (L : Language Token) (c : Cursor) (errors : List GrammarError) : Prop :=
  ∃ later e, errors = later ++ e :: c.errors ∧ Blames A L c e

/-- How a predictive reading ends: it passes a word of the language, or it gets stuck. -/
inductive Tracks (A : Tails) (L : Language Token) (c : Cursor) :
    EStateM.Result Stop Cursor α → Prop
  | passed {a : α} {c' : Cursor} {u : List Token} : c.rest = u ++ c'.rest →
      c'.endMark = c.endMark → c'.errors = c.errors → Passes A L u c'.rest → Tracks A L c (.ok a c')
  | spoilt {a : α} {c' : Cursor} : c.Onward c' → Spoils A L c c'.errors → Tracks A L c (.ok a c')
  | stopped {e : GrammarError} {c' : Cursor} : c.Onward c' → Spoils A L c (e :: c'.errors) →
      Tracks A L c (.error (.error e) c')
  | outOfFuel {c' : Cursor} : Tracks A L c (.error .outOfFuel c')

/-- Where `p` holds, the reading is predictive for the language, with what may come behind it. -/
def Predicts (A : Tails) (L : Language Token) (p : Cursor → Prop) (r : Reading α) : Prop :=
  ∀ c : Cursor, c.Clean → p c → Tracks A L c (r c)

section Blame

variable {A B : Tails} {L M : Language Token} {c c' : Cursor} {e : GrammarError}

theorem Blames.imp (h : Blames B M c e)
    (himp : ∀ u rest, c.rest = u ++ rest → Stuck B M u rest → Stuck A L u rest) :
    Blames A L c e := by
  rcases h with h | ⟨u, rest, hrest, htoken, hstuck⟩
  · exact .inl h
  · exact .inr ⟨u, rest, hrest, htoken, himp u rest hrest hstuck⟩

theorem Spoils.imp {errors : List GrammarError} (h : Spoils B M c errors)
    (himp : ∀ u rest, c.rest = u ++ rest → Stuck B M u rest → Stuck A L u rest) :
    Spoils A L c errors := by
  obtain ⟨later, e, herrors, hblames⟩ := h
  exact ⟨later, e, herrors, hblames.imp himp⟩

/-- An error behind a word. -/
theorem Spoils.behind {errors : List GrammarError} {u : List Token} (h : Spoils B M c' errors)
    (hrest : c.rest = u ++ c'.rest) (hend : c'.endMark = c.endMark) (herrors : c'.errors = c.errors)
    (himp : ∀ v rest, c'.rest = v ++ rest → Stuck B M v rest → Stuck A L (u ++ v) rest) :
    Spoils A L c errors := by
  obtain ⟨later, e, he, hblames⟩ := h
  refine ⟨later, e, herrors ▸ he, ?_⟩
  rcases hblames with h | ⟨v, rest, hrest', htoken, hstuck⟩
  · exact .inl h
  · refine .inr ⟨u ++ v, rest, ?_, hend ▸ htoken, himp v rest hrest' hstuck⟩
    rw [hrest, hrest', List.append_assoc]

/-- What is added to the errors does not change the first one. -/
theorem Spoils.later {errors errors' : List GrammarError} (h : Spoils A L c errors)
    (herrors : errors <:+ errors') : Spoils A L c errors' := by
  obtain ⟨later, e, rfl, hblames⟩ := h
  obtain ⟨more, rfl⟩ := herrors
  exact ⟨more ++ later, e, by rw [List.append_assoc], hblames⟩

theorem Spoils.suffix {errors : List GrammarError} (h : Spoils A L c errors) :
    c.errors <:+ errors := by
  obtain ⟨later, e, rfl, -⟩ := h
  exact (List.suffix_cons e _).trans (List.suffix_append _ _)

end Blame

namespace Predicts

variable {A B C : Tails} {L M : Language Token} {p q : Cursor → Prop} {r : Reading α}
  {k : α → Reading β}

theorem mono (h : Predicts B L p r) (hA : ∀ K, A K → B K) : Predicts A L p r := by
  intro c hc hp
  have h := h c hc hp
  generalize r c = x at h
  cases h with
  | passed hrest hend he hpasses => exact .passed hrest hend he (hpasses.mono hA)
  | spoilt hend hs => exact .spoilt hend (hs.imp fun _ _ _ h => h.mono hA)
  | stopped hend hs => exact .stopped hend (hs.imp fun _ _ _ h => h.mono hA)
  | outOfFuel => exact .outOfFuel

theorem anywhere (h : Predicts A L Anywhere r) : Predicts A L p r :=
  fun c hc _ => h c hc trivial

theorem outOfFuel : Predicts A L p (Reading.outOfFuel : Reading α) := fun _ _ _ => .outOfFuel

theorem pure {a : α} : Predicts A 1 p (pure a) := by
  intro c _ _
  refine .passed (u := []) rfl rfl rfl ⟨rfl, fun K _ v _ hmem => ?_⟩
  rwa [one_mul] at hmem

/-- An error that the relaxed grammar does not know. -/
theorem throw {t : Token} {cause : GrammarCause} (h : cause.IsRelaxed) :
    Predicts A L p (throw (.error ⟨t, cause⟩) : Reading α) :=
  fun c _ _ => .stopped (.refl c) ⟨[], _, rfl, .inl h⟩

/-- One reading after another. -/
theorem bind [Filled M] (hr : Predicts B L p r) (hk : ∀ a, Predicts C M Anywhere (k a))
    (hA : ∀ K, A K → B (M * K) ∧ C K) : Predicts A (L * M) p (r >>= k) := by
  intro c hc hp
  have h := hr c hc hp
  rcases hrc : r c with ⟨a, c'⟩ | ⟨e, c'⟩ <;> rw [hrc] at h
  · rw [bind_ok hrc]
    have hto : c.Onward c' := by
      cases h with
      | passed hrest hend _ _ => exact ⟨⟨_, hrest.symm⟩, hend⟩
      | spoilt hto _ => exact hto
    have hk := hk a c' (hc.onward hto) trivial
    generalize k a c' = x at hk
    cases h with
    -- behind a word of the first language, the second reading tells where the two get stuck
    | @passed _ _ u hrest hend he hpasses =>
      cases hk with
      | @passed _ _ v hrest' hend' he' hpasses' =>
        refine .passed (u := u ++ v) ?_ (hend'.trans hend) (he'.trans he) ?_
        · rw [hrest, hrest', List.append_assoc]
        · exact (hrest' ▸ hpasses).mul hpasses' hA
      | spoilt hto' hs =>
        exact .spoilt (hto.trans hto') (hs.behind hrest hend he fun v rest hv hstuck =>
          (hv ▸ hpasses).stuck hstuck hA)
      | stopped hto' hs =>
        exact .stopped (hto.trans hto') (hs.behind hrest hend he fun v rest hv hstuck =>
          (hv ▸ hpasses).stuck hstuck hA)
      | outOfFuel => exact .outOfFuel
    -- once there is an error, the second reading can only add to it
    | spoilt _ hs =>
      have hs : Spoils A (L * M) c c'.errors :=
        hs.imp fun _ _ _ hstuck => hstuck.mul fun K hK => (hA K hK).1
      cases hk with
      | passed hrest' hend' he' _ => exact .spoilt (hto.trans ⟨⟨_, hrest'.symm⟩, hend'⟩) (he' ▸ hs)
      | spoilt hto' hs' => exact .spoilt (hto.trans hto') (hs.later hs'.suffix)
      | stopped hto' hs' => exact .stopped (hto.trans hto') (hs.later hs'.suffix)
      | outOfFuel => exact .outOfFuel
  · rw [bind_error hrc]
    cases h with
    | stopped hto hs =>
      exact .stopped hto (hs.imp fun _ _ _ hstuck => hstuck.mul fun K hK => (hA K hK).1)
    | outOfFuel => exact .outOfFuel

/-- Nothing is read behind a reading. -/
theorem last {f : α → β} (h : Predicts A L p r) :
    Predicts A L p (r >>= fun a => Pure.pure (f a)) := by
  rw [← mul_one L]
  exact bind (C := Always) h (fun _ => pure) fun K hK => ⟨(one_mul K).symm ▸ hK, trivial⟩

theorem map {f : α → β} (h : Predicts A L p r) : Predicts A L p (f <$> r) := by
  rw [map_eq_pure_bind]
  exact h.last

/-- What follows a look at the token in front may rely on it. -/
theorem peek {k : Token → Reading β} (h : ∀ t, Predicts A L (·.peek = t) (k t)) :
    Predicts A L p (Reading.peek >>= k) :=
  fun c hc _ => h c.peek c hc rfl

/-- The token in front selects one of the alternatives. -/
theorem select {t : Token} (h : Predicts A L (·.peek = t) r) (hs : Selects A t.kind L M) :
    Predicts A M (·.peek = t) r := by
  intro c hc ht
  have hfront : ∀ u rest, c.rest = u ++ rest → Selects A (frontKind (u ++ rest)) L M := by
    intro u rest hrest
    rwa [← hrest, hc.frontKind_rest, ht]
  have h := h c hc ht
  generalize r c = x at h
  cases h with
  | passed hrest hend he hpasses => exact .passed hrest hend he (hpasses.widen (hfront _ _ hrest))
  | spoilt hend hs => exact .spoilt hend (hs.imp fun _ _ hrest h => h.widen (hfront _ _ hrest))
  | stopped hend hs => exact .stopped hend (hs.imp fun _ _ hrest h => h.widen (hfront _ _ hrest))
  | outOfFuel => exact .outOfFuel

/-- The token in front is read. -/
theorem advance {t : Token} {S : Kind → Prop} (hend : t.kind ≠ .eof) (ht : S t.kind) :
    Predicts A (oneOf S) (·.peek = t) Reading.advance := by
  intro c hc hpeek
  refine .passed (u := [t]) (Cursor.rest_eq_cons hc.endMark hpeek hend) rfl rfl ⟨⟨t, rfl, ht⟩, ?_⟩
  rintro K _ v _ ⟨_, ⟨t', rfl, -⟩, w, hw, heq⟩
  cases heq
  exact hw

/-- No word begins with the token in front. -/
theorem fail [Filled L] {t : Token} (cause : GrammarCause)
    (hfront : ∀ K, A K → ∀ w ∈ L * K, frontKind w ≠ t.kind) :
    Predicts A L (·.peek = t) (Reading.fail cause : Reading α) := by
  intro c hc hpeek
  refine .stopped (.refl c) ⟨[], _, rfl, .inr ⟨[], c.rest, rfl, rfl, Filled.word, ?_⟩⟩
  intro K hK v hv hmem
  exact hfront K hK v hmem (hv.trans (hc.frontKind_rest.trans (congrArg Token.kind hpeek)))

/-- An error that is recorded, and that the relaxed grammar does not know. -/
theorem note {cause : GrammarCause} {r : Reading β} (hcause : cause.IsRelaxed)
    (hr : Predicts A L Anywhere r) :
    Predicts A L p (Reading.note cause >>= fun _ => r) := by
  intro c hc _
  have hs : Spoils A L c (⟨c.peek, cause⟩ :: c.errors) := ⟨[], _, rfl, .inl hcause⟩
  have h := hr (c.record ⟨c.peek, cause⟩) ⟨hc.endMark, hc.rest⟩ trivial
  change Tracks A L c (r (c.record ⟨c.peek, cause⟩))
  generalize r (c.record ⟨c.peek, cause⟩) = x at h
  cases h with
  | passed hrest hend he _ => exact .spoilt ⟨⟨_, hrest.symm⟩, hend⟩ (he ▸ hs)
  | spoilt hto hs' => exact .spoilt ⟨hto.rest, hto.endMark⟩ (hs.later hs'.suffix)
  | stopped hto hs' => exact .stopped ⟨hto.rest, hto.endMark⟩ (hs.later hs'.suffix)
  | outOfFuel => exact .outOfFuel

theorem expect {kind : Kind} [kind.IsToken] (cause : GrammarCause) :
    Predicts A (only kind) p (Reading.expect kind cause) := by
  refine peek fun t => ?_
  split
  · next hkind => exact last (advance (by rw [hkind]; exact Kind.IsToken.ne_eof) hkind)
  · next hkind =>
    refine fail cause fun K _ w hw => ?_
    exact Fronts.only_mul (S := (· ≠ t.kind)) (Ne.symm hkind) K w hw

/-- The token in front is read, and then what comes behind it. -/
theorem advanceThen [Filled L] {t : Token} {kind : Kind} {k : Unit → Reading β}
    (ht : t.kind = kind) (hend : kind ≠ .eof) (h : Predicts A L Anywhere (k ())) :
    Predicts A (only kind * L) (·.peek = t) (Reading.advance >>= k) :=
  bind (B := Always) (advance (ht ▸ hend) ht) (fun _ => h) fun _ hK => ⟨trivial, hK⟩

theorem expectThen [Filled L] {kind : Kind} [kind.IsToken] {cause : GrammarCause}
    {k : Token → Reading β} (h : ∀ t, Predicts A L Anywhere (k t)) :
    Predicts A (only kind * L) p (Reading.expect kind cause >>= k) :=
  bind (B := Always) (expect cause) h fun _ hK => ⟨trivial, hK⟩

/-- A token that may be there is read if it stands in front. -/
theorem accept {kind : Kind} [kind.IsToken] {k : Bool → Reading β} [Filled L]
    (hyes : Predicts A L Anywhere (k true)) (hno : Predicts A M Anywhere (k false))
    (hgreedy : ∀ K, A K → ∀ w ∈ M * K, frontKind w = kind → w ∈ only kind * L * K) :
    Predicts A (M + only kind * L) p (Reading.accept kind >>= k) := by
  rw [Reading.accept, bind_assoc]
  refine peek fun t => ?_
  split
  · next hkind =>
    rw [bind_assoc]
    refine select (L := only kind * L) (advanceThen hkind Kind.IsToken.ne_eof ?_)
      ⟨fun _ => .inr, fun K hK w hw hfront => ?_⟩
    · rw [pure_bind]
      exact hyes
    · rw [add_mul] at hw
      exact hw.elim (fun hM => hgreedy K hK w hM (hfront.trans hkind)) id
  · next hkind =>
    rw [pure_bind]
    refine select hno.anywhere ⟨fun _ => .inl, fun K hK w hw hfront => ?_⟩
    rw [add_mul, mul_assoc] at hw
    refine (Fronts.self kind _).skip_right hw fun h => ?_
    exact hkind (hfront.symm.trans h)

/-- Something that is only there behind a token of a kind. -/
theorem optional {kind : Kind} [kind.IsToken] {r : Reading α} {k : Option α → Reading β}
    [Filled L] [Filled M] (hr : Predicts B L Anywhere r)
    (hk : ∀ o, Predicts C M Anywhere (k o)) (hA : ∀ K, A K → B (M * K) ∧ C K)
    (hgreedy : ∀ K, A K → ∀ w ∈ M * K, frontKind w = kind → w ∈ only kind * (L * M) * K) :
    Predicts A ((1 + only kind * L) * M) p (do
      let o ← if ← Reading.accept kind then Option.some <$> r else Pure.pure none
      k o) := by
  rw [add_mul, one_mul, mul_assoc]
  refine accept ?_ ?_ hgreedy
  · exact bind hr.map hk hA
  · rw [if_neg Bool.false_ne_true, pure_bind]
    exact (hk none).mono fun K hK => (hA K hK).2

/-- Something that is there unless the token that comes behind it is. -/
theorem unlessAt {kind : Kind} {S : Kind → Prop} (h : Predicts A L Anywhere r) (hL : Fronts S L)
    (hkind : ¬ S kind) (heof : ¬ S .eof) :
    Predicts (fun K => A K ∧ Fronts (· = kind) K) (1 + L) p (Reading.unlessAt kind r) := by
  refine peek fun t => ?_
  split
  · next ht =>
    refine select pure ⟨fun _ => .inl, fun K _ w hw hfront => ?_⟩
    rw [add_mul] at hw
    refine (hL.mul heof K).skip_right hw fun hS => hkind ?_
    rwa [← ht, ← hfront]
  · next ht =>
    refine select (h.anywhere.mono fun K hK => hK.1).map ⟨fun _ => .inr, fun K hK w hw hfront => ?_⟩
    rw [add_mul, one_mul] at hw
    exact hK.2.skip hw fun hk => ht (hfront.symm.trans hk)

/-- The kind of the token behind the one in front decides. -/
theorem ifSecond {kind : Kind} {r s : Reading α}
    (hr : Predicts A L (fun c => p c ∧ frontKind c.rest.tail = kind) r)
    (hs : Predicts A L (fun c => p c ∧ frontKind c.rest.tail ≠ kind) s) :
    Predicts A L p (do if (← get).peekSecond.kind = kind then r else s) := by
  intro c hc hp
  have hsecond : frontKind c.rest.tail = c.peekSecond.kind := by
    unfold Cursor.peekSecond
    cases c.rest.tail with
    | nil => exact (of_decide_eq_true hc.endMark).symm
    | cons => rfl
  change Tracks A L c ((if c.peekSecond.kind = kind then r else s) c)
  split
  · next h => exact hr c hc ⟨hp, hsecond.trans h⟩
  · next h => exact hs c hc ⟨hp, hsecond ▸ h⟩

/-- The two tokens in front select one of the alternatives, where a word of it begins with the
first. -/
theorem selectSecond {t : Token} {S : Kind → Prop} (h : Predicts A L (·.peek = t) r) (hle : L ≤ M)
    (hs : ∀ K, A K → ∀ t' w, t' :: w ∈ M * K → t'.kind = t.kind → S (frontKind w) →
      t' :: w ∈ L * K)
    (hnil : [] ∉ L) (hbegins : ∃ K, A K ∧ ∃ w ∈ L * K, frontKind w = t.kind) :
    Predicts A M (fun c => c.peek = t ∧ S (frontKind c.rest.tail)) r := by
  rintro c hc ⟨ht, hsecond⟩
  have hfront : frontKind c.rest = t.kind := hc.frontKind_rest.trans (congrArg Token.kind ht)
  have hcons : ∀ {t' u rest v}, c.rest = t' :: u ++ rest → frontKind v = frontKind rest →
      t'.kind = t.kind ∧ S (frontKind (u ++ v)) := by
    intro t' u rest v hrest hv
    rw [hrest] at hfront hsecond
    exact ⟨hfront, frontKind_append_congr hv u ▸ hsecond⟩
  have hstuck : ∀ u rest, c.rest = u ++ rest → Stuck A L u rest → Stuck A M u rest := by
    intro u rest hrest hstuck
    cases u with
    | nil =>
      obtain ⟨K, hK, w, hw, hfront'⟩ := hbegins
      exact absurd hw (hstuck.stuck K hK w (hfront'.trans (hrest ▸ hfront).symm))
    | cons t' u =>
      refine ⟨hstuck.begins.imp fun _ hv => hle hv, fun K hK v hv hmem => ?_⟩
      obtain ⟨hkind, hS⟩ := hcons hrest hv
      exact hstuck.stuck K hK v hv (hs K hK t' _ hmem hkind hS)
  have h := h c hc ht
  generalize r c = x at h
  cases h with
  | @passed _ _ u hrest hend he hpasses =>
    refine .passed hrest hend he ⟨hle hpasses.mem, fun K hK v hv hmem => ?_⟩
    cases u with
    | nil => exact absurd hpasses.mem hnil
    | cons t' u =>
      obtain ⟨hkind, hS⟩ := hcons hrest hv
      exact hpasses.ends K hK v hv (hs K hK t' _ hmem hkind hS)
  | spoilt hto hspoils => exact .spoilt hto (hspoils.imp hstuck)
  | stopped hto hspoils => exact .stopped hto (hspoils.imp hstuck)
  | outOfFuel => exact .outOfFuel

/-- A declaration with an error in it is left out. -/
theorem declaration {n : Nat} (h : Predicts A L Anywhere (declared n)) :
    Predicts A L p (Reading.declaration (n + 1)) := by
  intro c hc _
  have h := h c hc trivial
  unfold Reading.declaration
  generalize Reading.declared n c = x at h
  cases h with
  | passed hrest hend he hpasses => exact .passed hrest hend he hpasses
  | spoilt hend hs => exact .spoilt hend hs
  | @stopped e c' hto hs =>
    exact .spoilt (hto.trans ⟨skipFaulty_suffix c'.rest, rfl⟩) hs
  | outOfFuel => exact .outOfFuel

end Predicts

end Reading

end LoxLang
