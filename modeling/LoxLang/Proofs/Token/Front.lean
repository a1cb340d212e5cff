import LoxLang.Proofs.Token.Grammar
import Mathlib.Data.List.TakeWhile

/-!
# The front of a source

`Piece.front` looks at one character, at most one more, and then runs along the characters of a
class. It finds what the lexical grammar puts there: a token with nothing behind it is found whole
(`Kind.Spells.front`), and so a text is a token of at most one kind; a stretch without meaning is
found whole whatever follows (`Skips.front`); more characters behind a token make what is found
longer, if anything (`Kind.Spells.length_le_front`); and what is found belongs there
(`Piece.front_sound`). So the piece that fits in front of a source is the one that is found there
(`Piece.front_fits`, `Piece.Fits.front`).
-/

namespace LoxLang

open Piece

namespace Piece

theorem front_of_isSpace {c : Char} (h : isSpace c) (cs : List Char) :
    front c cs = (.blank, 0) := by
  simp [front, h]

theorem single?_eq_none {c : Char} (h : c.isAlphanum ∨ c = '_' ∨ c = '/' ∨ c = '"') :
    single? c = none := by
  unfold single?
  split
  all_goals first | rfl | revert h; decide

theorem operator?_eq_none {c : Char} (h : c.isAlphanum ∨ c = '_' ∨ c = '/' ∨ c = '"') :
    operator? c = none := by
  unfold operator?
  split
  all_goals first | rfl | revert h; decide

theorem isSpace_eq_false {c : Char} (h : c.isAlphanum ∨ c = '_' ∨ c = '/' ∨ c = '"') :
    isSpace c = false := by
  unfold isSpace
  rw [decide_eq_false_iff_not]
  rintro (rfl | rfl | rfl | rfl) <;> revert h <;> decide

theorem front_of_isDigit {c : Char} (h : c.isDigit) (cs : List Char) :
    front c cs = (.token (.number (numeral c cs).1), (numeral c cs).2) := by
  have hc : c.isAlphanum ∨ c = '_' ∨ c = '/' ∨ c = '"' := .inl (by simp [Char.isAlphanum, h])
  have hslash : c ≠ '/' := by rintro rfl; revert h; decide
  have hquote : c ≠ '"' := by rintro rfl; revert h; decide
  simp [front, isSpace_eq_false hc, single?_eq_none hc, operator?_eq_none hc, hslash, hquote, h]

theorem front_of_isWordStart {c : Char} (h : isWordStart c) (cs : List Char) :
    front c cs = (.token (Kind.ofWord (String.ofList (c :: cs.takeWhile isWordPart))),
      (cs.takeWhile isWordPart).length) := by
  have hstart : c.isAlpha ∨ c = '_' := by simpa [isWordStart] using h
  have hc : c.isAlphanum ∨ c = '_' ∨ c = '/' ∨ c = '"' := by
    rcases hstart with h | h
    · exact .inl (by simp [Char.isAlphanum, h])
    · exact .inr (.inl h)
  have hslash : c ≠ '/' := by rintro rfl; revert h; decide
  have hquote : c ≠ '"' := by rintro rfl; revert h; decide
  have hdigit : c.isDigit = false := by
    rcases hstart with h | rfl
    · delta Char.isAlpha Char.isUpper Char.isLower at h
      simp only [Bool.or_eq_true, Bool.and_eq_true, decide_eq_true_eq, ge_iff_le,
        UInt32.le_iff_toNat_le] at h
      simp only [Char.isDigit, Bool.and_eq_false_iff, decide_eq_false_iff_not, ge_iff_le,
        UInt32.le_iff_toNat_le]
      simp only [UInt32.reduceToNat, Char.reduceVal] at h ⊢
      omega
    · decide
  simp [front, isSpace_eq_false hc, single?_eq_none hc, operator?_eq_none hc, hslash, hquote, h,
    hdigit]

theorem front_quote (cs : List Char) :
    front '"' cs =
      if (cs.takeWhile (· ≠ '"')).length < cs.length then
        (.token (.string (String.ofList (cs.takeWhile (· ≠ '"')))),
          (cs.takeWhile (· ≠ '"')).length + 1)
      else (.fault .unterminatedString, (cs.takeWhile (· ≠ '"')).length) := by
  simp [front, isSpace, single?, operator?]

theorem front_unterminated {cs : List Char} (h : '"' ∉ cs) :
    front '"' cs = (.fault .unterminatedString, cs.length) := by
  have htake : cs.takeWhile (· ≠ '"') = cs :=
    List.takeWhile_eq_self_iff.2 (by simpa using fun d hd => ne_of_mem_of_not_mem hd h)
  rw [front_quote, htake, if_neg (lt_irrefl _)]

theorem front_lineComment (cs : List Char) :
    front '/' ('/' :: cs) = (.blank, (cs.takeWhile (· ≠ '\n')).length + 1) := by
  rw [Nat.add_comm]
  rfl

theorem front_blockComment (cs : List Char) :
    front '/' ('*' :: cs) = (.blank, commentLength 0 cs + 1) := by
  rw [Nat.add_comm]
  rfl

theorem front_slash {cs : List Char} (h : ∀ d ∈ cs.head?, d ≠ '/' ∧ d ≠ '*') :
    front '/' cs = (.token .slash, 0) := by
  cases cs with
  | nil => rfl
  | cons d cs =>
    obtain ⟨hslash, hstar⟩ := h d rfl
    simp [front, isSpace, single?, operator?, hslash, hstar]

/-- A source begins with a run of the characters of a class. -/
theorem exists_run (p : Char → Bool) (cs : List Char) :
    ∃ run rest, cs = run ++ rest ∧ (∀ d ∈ run, p d) ∧ ∀ d ∈ rest.head?, p d = false := by
  refine ⟨cs.takeWhile p, cs.dropWhile p, List.takeWhile_append_dropWhile.symm,
    fun d => List.mem_takeWhile_imp, fun d hd => ?_⟩
  have h := List.head?_dropWhile_not p cs
  rw [Option.mem_def.1 hd] at h
  simpa using h

theorem takeWhile_run {p : Char → Bool} {run rest : List Char} (hrun : ∀ d ∈ run, p d)
    (hrest : ∀ d ∈ rest.head?, p d = false) : (run ++ rest).takeWhile p = run := by
  rw [List.takeWhile_append_of_pos hrun]
  cases rest with
  | nil => simp
  | cons d rest => simp [hrest d (by simp)]

theorem dropWhile_run {p : Char → Bool} {run rest : List Char} (hrun : ∀ d ∈ run, p d)
    (hrest : ∀ d ∈ rest.head?, p d = false) : (run ++ rest).dropWhile p = rest := by
  rw [List.dropWhile_append_of_pos hrun]
  cases rest with
  | nil => simp
  | cons d rest => simp [hrest d (by simp)]

theorem commentLength_closed {body : List Char} (h : ¬ ['*', '/'] <:+: body ++ ['*'])
    (seen : Nat) (rest : List Char) :
    commentLength seen (body ++ '*' :: '/' :: rest) = seen + (body.length + 2) := by
  induction body generalizing seen with
  | nil => rfl
  | cons c body ih =>
    rw [List.cons_append, List.infix_cons_iff, not_or] at h
    rw [List.cons_append, commentLength, ih h.2]
    · simp only [List.length_cons]
      omega
    · rintro rest' rfl heq
      refine h.1 ?_
      cases body with
      | nil => cases heq
      | cons d body =>
        cases (List.cons.inj heq).1
        simp

theorem commentLength_open {body : List Char} (h : ¬ ['*', '/'] <:+: body) (seen : Nat) :
    commentLength seen body = seen + body.length := by
  induction body generalizing seen with
  | nil => rfl
  | cons c body ih =>
    rw [List.infix_cons_iff, not_or] at h
    rw [commentLength, ih h.2]
    · simp only [List.length_cons]
      omega
    · rintro rest' rfl rfl
      exact h.1 (by simp)

/-- Behind an opening there is a first closing or none. -/
theorem comment_cases (cs : List Char) :
    (∃ body rest, cs = body ++ '*' :: '/' :: rest ∧ ¬ ['*', '/'] <:+: body ++ ['*']) ∨
      ¬ ['*', '/'] <:+: cs := by
  induction cs with
  | nil => exact .inr (by simp)
  | cons c cs ih =>
    by_cases hclose : ['*', '/'] <+: c :: cs
    · obtain ⟨rest, hrest⟩ := hclose
      exact .inl ⟨[], rest, hrest.symm, by simp [List.infix_cons_iff]⟩
    rcases ih with ⟨body, rest, rfl, h⟩ | h
    · refine .inl ⟨c :: body, rest, rfl, ?_⟩
      rw [List.cons_append, List.infix_cons_iff, not_or]
      refine ⟨fun hpre => hclose ?_, h⟩
      exact hpre.trans (by simp [List.prefix_append_right_inj])
    · refine .inr ?_
      rw [List.infix_cons_iff, not_or]
      exact ⟨hclose, h⟩

theorem numeral_run {c : Char} {run rest : List Char} (hrun : ∀ d ∈ run, d.isDigit)
    (hrest : ∀ d ∈ rest.head?, d.isDigit = false) :
    numeral c (run ++ rest) =
      (Binary64.ofDecimal (natOfDigits (c :: run ++ fraction rest)) (fraction rest).length,
        if (fraction rest).isEmpty then run.length
        else run.length + 1 + (fraction rest).length) := by
  unfold numeral
  rw [takeWhile_run hrun hrest, dropWhile_run hrun hrest]

theorem length_takeWhile_le_append (p : Char → Bool) (cs rest : List Char) :
    (cs.takeWhile p).length ≤ ((cs ++ rest).takeWhile p).length := by
  rw [List.takeWhile_append]
  split <;> simp_all

theorem length_digits_le_numeral (c : Char) (cs : List Char) :
    (cs.takeWhile Char.isDigit).length ≤ (numeral c cs).2 := by
  simp only [numeral]
  split <;> omega

/-- A longer source has no shorter numeral at its front. -/
theorem numeral_le_append (c : Char) (cs rest : List Char) :
    (numeral c cs).2 ≤ (numeral c (cs ++ rest)).2 := by
  obtain ⟨run, tail, rfl, hrun, htail⟩ := exists_run Char.isDigit cs
  rw [numeral_run hrun htail]
  cases tail with
  | nil =>
    have hle := length_takeWhile_le_append Char.isDigit run rest
    rw [List.takeWhile_eq_self_iff.2 hrun] at hle
    simpa [fraction] using hle.trans (length_digits_le_numeral c _)
  | cons d tail =>
    have hle : (fraction (d :: tail)).length ≤ (fraction (d :: (tail ++ rest))).length := by
      by_cases hd : d = '.'
      · subst hd
        exact length_takeWhile_le_append Char.isDigit tail rest
      · simp [fraction, hd]
    have hrest : ∀ e ∈ (d :: tail ++ rest).head?, e.isDigit = false := htail
    rw [List.append_assoc, numeral_run hrun hrest]
    simp only [List.cons_append, List.isEmpty_iff, ← List.length_eq_zero_iff]
    split <;> split <;> omega

/-- A fraction is a point in front of digits. -/
theorem fraction_cases (cs : List Char) :
    fraction cs = [] ∨ ∃ rest, cs = '.' :: (fraction cs ++ rest) ∧ fraction cs ≠ [] ∧
      ∀ d ∈ fraction cs, d.isDigit := by
  by_cases hne : fraction cs = []
  · exact .inl hne
  unfold fraction at hne ⊢
  split at hne
  next cs =>
    exact .inr ⟨_, congrArg _ List.takeWhile_append_dropWhile.symm, hne,
      fun d => List.mem_takeWhile_imp⟩
  · exact absurd rfl hne

/-- What the first character of a source says about its front. -/
theorem front_cases (c : Char) :
    isSpace c ∨
    (∃ kind, (∀ cs, front c cs = (.token kind, 0)) ∧ kind.Spells [c]) ∨
    (∃ alone withEqual, (∀ cs, front c cs =
        if cs.head? = some '=' then (.token withEqual, 1) else (.token alone, 0)) ∧
      alone.Spells [c] ∧ withEqual.Spells [c, '=']) ∨
    c = '/' ∨ c = '"' ∨ c.isDigit ∨ isWordStart c ∨
    (isSpace c = false ∧ ∀ cs, front c cs = (.fault (.unexpected c), 0)) := by
  by_cases hspace : isSpace c
  · exact .inl hspace
  refine .inr ?_
  cases hsingle : single? c with
  | some kind =>
    refine .inl ⟨kind, fun cs => by simp [front, hspace, hsingle], ?_⟩
    exact .sign (Kind.mem_signs_iff.2 (.inl ⟨hsingle, rfl⟩))
  | none =>
    refine .inr ?_
    cases hoperator : operator? c with
    | some kinds =>
      refine .inl ⟨kinds.1, kinds.2, fun cs => by simp [front, hspace, hsingle, hoperator], ?_, ?_⟩
      · exact .sign (Kind.mem_signs_iff.2 (.inr (.inl ⟨_, _, hoperator, .inl ⟨rfl, rfl⟩⟩)))
      · exact .sign (Kind.mem_signs_iff.2 (.inr (.inl ⟨_, _, hoperator, .inr ⟨rfl, rfl⟩⟩)))
    | none =>
      refine .inr ?_
      by_cases hclass : c = '/' ∨ c = '"' ∨ c.isDigit ∨ isWordStart c
      · simpa only [or_assoc] using Or.inl hclass
      · simp only [not_or] at hclass
        obtain ⟨hslash, hquote, hdigit, hword⟩ := hclass
        refine .inr (.inr (.inr (.inr ⟨by simpa using hspace, fun cs => ?_⟩)))
        simp [front, hspace, hsingle, hoperator, hslash, hquote, hdigit, hword]

end Piece

/-- A token with nothing behind it is found whole. -/
theorem Kind.Spells.front {kind : Kind} {c : Char} {cs : List Char} (h : Spells kind (c :: cs)) :
    front c cs = (.token kind, cs.length) := by
  rcases h.class with h | ⟨_, _, htext, hc, hcs, rfl⟩ | ⟨contents, hquote, htext, rfl⟩ |
    ⟨whole, places, hne, hdigits, htext, rfl⟩
  · simp only [signs, List.mem_cons, Prod.mk.injEq, List.cons.injEq, List.not_mem_nil,
      or_false] at h
    rcases h with h | h | h | h | h | h | h | h | h | h | h | h | h | h | h | h | h | h | h <;>
      obtain ⟨⟨rfl, rfl⟩, rfl⟩ := h <;> rfl
  · cases htext
    rw [front_of_isWordStart hc, List.takeWhile_eq_self_iff.2 hcs]
  · cases htext
    have htake : (contents ++ ['"']).takeWhile (· ≠ '"') = contents :=
      takeWhile_run (by simpa using fun d hd => ne_of_mem_of_not_mem hd hquote) (by simp)
    rw [front_quote, htake, if_pos (by simp)]
    simp
  · obtain ⟨d, run, rfl⟩ := List.exists_cons_of_ne_nil hne
    have hd : d.isDigit := hdigits d (by simp)
    have hrun : ∀ e ∈ run, e.isDigit := fun e he => hdigits e (by simp [he])
    rcases htext with ⟨rfl, htext⟩ | ⟨hplaces, htext⟩
    · cases htext
      have hend : ∀ d ∈ ([] : List Char).head?, d.isDigit = false := by simp
      have hnumeral := numeral_run (c := c) hrun hend
      rw [List.append_nil] at hnumeral
      simp [front_of_isDigit hd, hnumeral, fraction]
    · obtain ⟨rfl, rfl⟩ := List.cons.inj (htext.trans (List.cons_append ..))
      have hfraction : fraction ('.' :: places) = places :=
        List.takeWhile_eq_self_iff.2 fun e he => hdigits e (by simp [he])
      have hpoint : ∀ e ∈ ('.' :: places).head?, e.isDigit = false := by
        rintro _ ⟨⟩
        decide
      rw [front_of_isDigit hd, numeral_run hrun hpoint, hfraction]
      simp [hplaces]
      omega

/-- A text is a token of at most one kind. -/
theorem Kind.Spells.functional {kind kind' : Kind} {c : Char} {cs : List Char}
    (h : Spells kind (c :: cs)) (h' : Spells kind' (c :: cs)) : kind = kind' := by
  simpa using h.front.symm.trans h'.front

/-- A stretch without meaning is found whole. -/
theorem Skips.front {c : Char} {cs rest : List Char} (h : Skips (c :: cs) rest) :
    front c (cs ++ rest) = (.blank, cs.length) := by
  generalize htext : c :: cs = text at h
  cases h with
  | space h =>
    cases htext
    exact front_of_isSpace (isSpace_iff.2 h) rest
  | @lineComment body _ h hrest =>
    cases htext
    have htake : (body ++ rest).takeWhile (· ≠ '\n') = body :=
      takeWhile_run (by simpa using fun d hd => ne_of_mem_of_not_mem hd h) (by simpa using hrest)
    rw [List.cons_append, front_lineComment, htake]
    rfl
  | @blockComment body _ h =>
    cases htext
    rw [List.cons_append, front_blockComment]
    simp [commentLength_closed h]
  | @openComment body h =>
    cases htext
    rw [List.append_nil, front_blockComment, commentLength_open h]
    simp

/-- In front of more characters, what is found is no shorter than a token. -/
theorem Kind.Spells.length_le_front {kind : Kind} {c : Char} {cs : List Char}
    (h : Spells kind (c :: cs)) (rest : List Char) :
    cs.length ≤ (Piece.front c (cs ++ rest)).2 := by
  have hlength : (Piece.front c cs).2 = cs.length := congrArg Prod.snd h.front
  rcases front_cases c with hspace | ⟨kind', hfront, -⟩ | ⟨alone, withEqual, hfront, -⟩ | rfl |
    rfl | hc | hc | ⟨-, hfront⟩
  · simp [← hlength, front_of_isSpace hspace]
  · simp [← hlength, hfront]
  · rw [hfront] at hlength ⊢
    cases cs with
    | nil => simp
    | cons d cs =>
      by_cases hd : d = '='
      · subst hd
        exact hlength.ge
      · simp [hd] at hlength
  · by_cases hslash : cs.head? = some '/'
    · obtain ⟨cs, rfl⟩ := List.head?_eq_some_iff.1 hslash
      cases h.front
    by_cases hstar : cs.head? = some '*'
    · obtain ⟨cs, rfl⟩ := List.head?_eq_some_iff.1 hstar
      cases h.front
    · rw [front_slash fun d hd => ⟨fun h => hslash (h ▸ hd), fun h => hstar (h ▸ hd)⟩] at hlength
      simp [← hlength]
  · have hfront := h.front
    obtain ⟨contents, tail, rfl, hcontents, htail⟩ := exists_run (· ≠ '"') cs
    rw [front_quote, takeWhile_run hcontents htail] at hfront
    cases tail with
    | nil => simp at hfront
    | cons d tail =>
      have htail' : ∀ e ∈ (d :: (tail ++ rest)).head?, decide (e ≠ '"') = false := htail
      rw [List.append_assoc, List.cons_append, front_quote, takeWhile_run hcontents htail']
      simp_all
  · rw [front_of_isDigit hc] at hlength ⊢
    exact hlength ▸ numeral_le_append c cs rest
  · rw [front_of_isWordStart hc] at hlength ⊢
    exact hlength ▸ length_takeWhile_le_append isWordPart cs rest
  · simp [← hlength, hfront]

/-- What is found at the front of a source belongs there. -/
theorem Piece.front_sound (c : Char) (cs : List Char) :
    match front c cs with
    | (.token kind, n) => kind.Spells (c :: cs.take n)
    | (.blank, n) => Skips (c :: cs.take n) (cs.drop n)
    | (.fault (.unexpected d), n) =>
      d = c ∧ n = 0 ∧ isSpace c = false ∧ ∀ kind more, ¬ Kind.Spells kind (c :: more)
    | (.fault .unterminatedString, n) => c = '"' ∧ '"' ∉ cs ∧ n = cs.length := by
  rcases front_cases c with h | ⟨kind, hfront, h⟩ | ⟨alone, withEqual, hfront, ha, hw⟩ | rfl | rfl |
    h | h | ⟨hspace, hfront⟩
  · rw [front_of_isSpace h]
    exact .space (isSpace_iff.1 h)
  · rw [hfront]
    exact h
  · rw [hfront]
    by_cases heq : cs.head? = some '='
    · obtain ⟨cs, rfl⟩ := List.head?_eq_some_iff.1 heq
      exact hw
    · rw [if_neg heq]
      exact ha
  · by_cases hslash : cs.head? = some '/'
    · obtain ⟨cs, rfl⟩ := List.head?_eq_some_iff.1 hslash
      obtain ⟨body, rest, rfl, hbody, hrest⟩ := exists_run (· ≠ '\n') cs
      rw [front_lineComment, takeWhile_run hbody hrest]
      simpa using Skips.lineComment (fun h => by simpa using hbody _ h) (by simpa using hrest)
    by_cases hstar : cs.head? = some '*'
    · obtain ⟨cs, rfl⟩ := List.head?_eq_some_iff.1 hstar
      rw [front_blockComment]
      rcases comment_cases cs with ⟨body, rest, rfl, h⟩ | h
      · rw [commentLength_closed h]
        simpa [List.take_append, List.take_of_length_le] using (Skips.blockComment h : Skips _ rest)
      · rw [commentLength_open h]
        simpa using Skips.openComment h
    · rw [front_slash fun d hd => ⟨fun h => hslash (h ▸ hd), fun h => hstar (h ▸ hd)⟩]
      exact .sign (by simp [Kind.signs])
  · obtain ⟨contents, rest, rfl, hcontents, hrest⟩ := exists_run (· ≠ '"') cs
    have hmem : '"' ∉ contents := fun h => by simpa using hcontents _ h
    rw [front_quote, takeWhile_run hcontents hrest]
    cases rest with
    | nil => simp [hmem]
    | cons d rest =>
      have hd : d = '"' := by simpa using hrest
      subst hd
      simpa [List.take_append, List.take_of_length_le] using Kind.Spells.string hmem
  · obtain ⟨run, rest, rfl, hrun, hrest⟩ := exists_run Char.isDigit cs
    rw [front_of_isDigit h, numeral_run hrun hrest]
    have hfraction := fraction_cases rest
    generalize fraction rest = places at hfraction ⊢
    rcases hfraction with rfl | ⟨tail, rfl, hne, hplaces⟩
    · have hspells := Kind.Spells.integer (List.cons_ne_nil c run)
        (List.forall_mem_cons.2 ⟨isDigit_iff.1 h, fun d hd => isDigit_iff.1 (hrun d hd)⟩)
      simpa using hspells
    · have hdigits : ∀ d ∈ c :: run ++ places, d.isDigit :=
        List.forall_mem_append.2 ⟨List.forall_mem_cons.2 ⟨h, hrun⟩, hplaces⟩
      have hspells := Kind.Spells.decimal (List.cons_ne_nil c run) hne
        fun d hd => isDigit_iff.1 (hdigits d hd)
      have htake : (run ++ '.' :: (places ++ tail)).take (run.length + 1 + places.length) =
          run ++ '.' :: places := by
        rw [Nat.add_assoc, List.take_length_add_append, Nat.add_comm 1, List.take_succ_cons,
          List.take_left]
      simpa [hne, htake] using hspells
  · obtain ⟨more, rest, rfl, hmore, hrest⟩ := exists_run isWordPart cs
    rw [front_of_isWordStart h, takeWhile_run hmore hrest]
    simpa using Kind.spells_ofWord h hmore
  · rw [hfront]
    refine ⟨rfl, rfl, hspace, fun kind more h => ?_⟩
    have := h.front
    rw [hfront] at this
    cases this

/-! ## What fits -/

theorem Kind.Spells.ne_nil {kind : Kind} {text : List Char} (h : Spells kind text) : text ≠ [] := by
  rintro rfl
  rcases h.class with h | ⟨_, _, h, -⟩ | ⟨_, _, h, -⟩ | ⟨_, _, hne, -, ⟨-, h⟩ | ⟨-, h⟩, -⟩
  · simp [signs] at h
  · cases h
  · cases h
  · exact hne h.symm
  · simp at h

theorem Skips.ne_nil {text rest : List Char} (h : Skips text rest) : text ≠ [] := by
  cases h <;> exact List.cons_ne_nil _ _

/-- White space and comments begin in their own way. -/
theorem Skips.first {c : Char} {cs rest : List Char} (h : Skips (c :: cs) rest) :
    White c ∨ c = '/' := by
  generalize htext : c :: cs = text at h
  cases h with
  | space h => exact .inl ((List.cons.inj htext).1 ▸ h)
  | _ => exact .inr (List.cons.inj htext).1

/-- The grammar puts there what is found at the front of a source. -/
theorem Piece.front_fits (c : Char) (cs : List Char) :
    Fits ⟨(front c cs).1, c :: cs.take (front c cs).2⟩ (cs.drop (front c cs).2) := by
  have hsound := front_sound c cs
  rcases hfront : front c cs with ⟨shape, n⟩
  rw [hfront] at hsound
  rcases shape with kind | _ | d | _
  · refine .token hsound (fun kind' text' hspells hpre => ?_) fun text' rest' htext hskips => ?_
    · obtain ⟨d, more, rfl⟩ := List.exists_cons_of_ne_nil hspells.ne_nil
      obtain ⟨rest, hrest⟩ := hpre
      rw [List.cons_append] at hrest
      obtain ⟨rfl, rfl⟩ := List.cons.inj (hrest.trans (by simp) : d :: (more ++ rest) = c :: cs)
      have hle := hspells.length_le_front rest
      rw [hfront] at hle
      simp
      omega
    · obtain ⟨d, more, rfl⟩ := List.exists_cons_of_ne_nil hskips.ne_nil
      obtain ⟨rfl, rfl⟩ := List.cons.inj (htext.trans (by simp) : d :: (more ++ rest') = c :: cs)
      cases hfront.symm.trans hskips.front
  · exact .blank hsound
  · obtain ⟨rfl, rfl, hspace, h⟩ := hsound
    exact .unexpected (by simp [← isSpace_iff, hspace]) h
  · obtain ⟨rfl, hquote, rfl⟩ := hsound
    simpa using Fits.unterminated hquote

/-- What the grammar puts there is found at the front of a source. -/
theorem Piece.Fits.front {p : Piece} {rest : List Char} (h : p.Fits rest) :
    ∃ c cs, p.text = c :: cs ∧ Piece.front c (cs ++ rest) = (p.shape, cs.length) := by
  cases h with
  | @token kind text _ h hlongest hskips =>
    obtain ⟨c, cs, rfl⟩ := List.exists_cons_of_ne_nil h.ne_nil
    refine ⟨c, cs, rfl, ?_⟩
    have hle := h.length_le_front rest
    have hsound := front_sound c (cs ++ rest)
    rcases hfront : Piece.front c (cs ++ rest) with ⟨shape, n⟩
    rw [hfront] at hsound hle
    rcases shape with kind' | _ | d | _
    · replace hsound : Kind.Spells kind' (c :: (cs ++ rest).take n) := hsound
      have hpre : cs <+: (cs ++ rest).take n :=
        List.prefix_of_prefix_length_le (List.prefix_append ..) (List.take_prefix ..)
          (by simp; omega)
      have hlen := hlongest _ _ hsound (by simp [List.take_prefix])
      have htake := hpre.eq_of_length_le (by simpa using hlen)
      rw [← htake] at hsound
      rw [h.functional hsound]
      rcases Nat.lt_or_ge n (cs ++ rest).length with hn | hn
      · have hlen' := congrArg List.length htake
        rw [List.length_take_of_le hn.le] at hlen'
        rw [hlen']
      · rw [List.take_of_length_le hn] at htake
        rw [← htake] at hfront
        exact hfront.symm.trans hsound.front
    · exact absurd hsound (hskips _ _ (by simp))
    · exact absurd h (hsound.2.2.2 _ _)
    · obtain ⟨rfl, hquote, -⟩ := hsound
      have := h.front
      rw [front_unterminated (fun h => hquote (List.mem_append_left _ h))] at this
      cases this
  | blank h =>
    obtain ⟨c, cs, rfl⟩ := List.exists_cons_of_ne_nil h.ne_nil
    exact ⟨c, cs, rfl, h.front⟩
  | @unexpected c _ hspace h =>
    refine ⟨c, [], rfl, ?_⟩
    have hsound := front_sound c rest
    rcases hfront : Piece.front c rest with ⟨shape, n⟩
    rw [hfront] at hsound
    rcases shape with kind' | _ | d | _
    · exact absurd hsound (h _ _)
    · rcases hsound.first with hc | rfl
      · exact absurd hc hspace
      · exact absurd (.sign (by simp [Kind.signs])) (h .slash [])
    · obtain ⟨rfl, rfl, -⟩ := hsound
      exact hfront
    · obtain ⟨rfl, -⟩ := hsound
      exact absurd (Kind.Spells.string (List.not_mem_nil : '"' ∉ [])) (h _ _)
  | @unterminated contents h =>
    refine ⟨_, _, rfl, ?_⟩
    rw [List.append_nil, front_unterminated h]

end LoxLang
