import LoxLang.Token.Scan
import Mathlib.Data.List.Basic

/-!
# The lexical grammar

`Kind.Spells` lists the texts of the tokens and `Skips` the stretches without meaning; neither says
how a source is read. `Piece.Fits` says which piece belongs at the front of a source: a skipped
stretch where one begins, otherwise the longest token, and an error only where no token can begin or
where a string has no end. A source is cut by the grammar (`Piece.Cuts`) if every piece fits in
front of what is left.

Tokens fall into four classes (`Kind.Spells.class`): signs, words, strings and numerals.
-/

namespace LoxLang

open Piece

/-- The letters of words, the underscore among them. -/
def Letter (c : Char) : Prop := 'a' ≤ c ∧ c ≤ 'z' ∨ 'A' ≤ c ∧ c ≤ 'Z' ∨ c = '_'

/-- The digits. -/
def Digit (c : Char) : Prop := '0' ≤ c ∧ c ≤ '9'

/-- White space. -/
def White (c : Char) : Prop := c = ' ' ∨ c = '\t' ∨ c = '\r' ∨ c = '\n'

/-- The tokens of punctuation and how they are written. -/
def Kind.signs : List (List Char × Kind) :=
  [(['('], leftParen), ([')'], rightParen), (['{'], leftBrace), (['}'], rightBrace),
    ([','], comma), (['.'], dot), (['-'], minus), (['+'], plus), ([';'], semicolon),
    (['/'], slash), (['*'], star), (['!'], bang), (['!', '='], bangEqual), (['='], equal),
    (['=', '='], equalEqual), (['>'], greater), (['>', '='], greaterEqual), (['<'], less),
    (['<', '='], lessEqual)]

/-- The words that no identifier may be, and the tokens that they are. -/
def Kind.reserved : List (String × Kind) :=
  [("and", kwAnd), ("class", kwClass), ("else", kwElse), ("false", kwFalse), ("fun", kwFun),
    ("for", kwFor), ("if", kwIf), ("nil", kwNil), ("or", kwOr), ("print", kwPrint),
    ("return", kwReturn), ("super", kwSuper), ("this", kwThis), ("true", kwTrue), ("var", kwVar),
    ("while", kwWhile)]

/-- The texts of the tokens of a kind. -/
inductive Kind.Spells : Kind → List Char → Prop
  | sign {text : List Char} {kind : Kind} (h : (text, kind) ∈ signs) : Spells kind text
  | keyword {word : String} {kind : Kind} (h : (word, kind) ∈ reserved) : Spells kind word.toList
  | identifier {c : Char} {cs : List Char} (hc : Letter c) (hcs : ∀ d ∈ cs, Letter d ∨ Digit d)
      (h : ∀ kind, (String.ofList (c :: cs), kind) ∉ reserved) : Spells .identifier (c :: cs)
  | string {contents : List Char} (h : '"' ∉ contents) :
      Spells (.string (String.ofList contents)) ('"' :: (contents ++ ['"']))
  | integer {digits : List Char} (hne : digits ≠ []) (h : ∀ d ∈ digits, Digit d) :
      Spells (.number (Binary64.ofDecimal (natOfDigits digits) 0)) digits
  | decimal {whole places : List Char} (hwhole : whole ≠ []) (hplaces : places ≠ [])
      (h : ∀ d ∈ whole ++ places, Digit d) :
      Spells (.number (Binary64.ofDecimal (natOfDigits (whole ++ places)) places.length))
        (whole ++ '.' :: places)

/-- `Skips text rest`: in front of `rest`, the text has no meaning. A line comment leaves the end of
its line alone; a block comment ends at the first closing behind its opening, or else it never
does. -/
inductive Skips : List Char → List Char → Prop
  | space {c : Char} {rest : List Char} (h : White c) : Skips [c] rest
  | lineComment {body rest : List Char} (h : '\n' ∉ body) (hrest : ∀ c ∈ rest.head?, c = '\n') :
      Skips ('/' :: '/' :: body) rest
  | blockComment {body rest : List Char} (h : ¬ ['*', '/'] <:+: body ++ ['*']) :
      Skips ('/' :: '*' :: (body ++ ['*', '/'])) rest
  | openComment {body : List Char} (h : ¬ ['*', '/'] <:+: body) : Skips ('/' :: '*' :: body) []

/-- `p.Fits rest`: the grammar puts the piece in front of `rest`. -/
inductive Piece.Fits : Piece → List Char → Prop
  | token {kind : Kind} {text rest : List Char} (h : kind.Spells text)
      (hlongest : ∀ kind' text', Kind.Spells kind' text' → text' <+: text ++ rest →
        text'.length ≤ text.length)
      (hskips : ∀ text' rest', text' ++ rest' = text ++ rest → ¬ Skips text' rest') :
      Fits ⟨.token kind, text⟩ rest
  | blank {text rest : List Char} (h : Skips text rest) : Fits ⟨.blank, text⟩ rest
  | unexpected {c : Char} {rest : List Char} (hspace : ¬ White c)
      (h : ∀ kind more, ¬ Kind.Spells kind (c :: more)) : Fits ⟨.fault (.unexpected c), [c]⟩ rest
  | unterminated {contents : List Char} (h : '"' ∉ contents) :
      Fits ⟨.fault .unterminatedString, '"' :: contents⟩ []

/-- `Cuts source ps`: the grammar cuts the source into these pieces. -/
inductive Piece.Cuts : List Char → List Piece → Prop
  | nil : Cuts [] []
  | cons {p : Piece} {rest : List Char} {ps : List Piece} (h : p.Fits rest) (hrest : Cuts rest ps) :
      Cuts (p.text ++ rest) (p :: ps)

/-! ## Characters and words of the scanner -/

theorem Piece.isSpace_iff {c : Char} : isSpace c ↔ White c := by
  rw [isSpace, decide_eq_true_iff, White]
  tauto

theorem isDigit_iff {c : Char} : c.isDigit ↔ Digit c := by
  simp [Char.isDigit, Digit, Char.le_def]

theorem Piece.isWordStart_iff {c : Char} : isWordStart c ↔ Letter c := by
  delta isWordStart Char.isAlpha Char.isLower Char.isUpper
  simp [Letter, Char.le_def]
  tauto

theorem Piece.isWordPart_iff {c : Char} : isWordPart c ↔ Letter c ∨ Digit c := by
  rw [← isWordStart_iff, ← isDigit_iff]
  simp [isWordPart, isWordStart, Char.isAlphanum, or_right_comm]

theorem Kind.reserved_eq : reserved = keywords := rfl

/-! ## Classes of tokens -/

theorem Kind.mem_signs_iff {c : Char} {cs : List Char} {kind : Kind} :
    (c :: cs, kind) ∈ signs ↔
      (single? c = some kind ∧ cs = []) ∨
      (∃ alone withEqual, operator? c = some (alone, withEqual) ∧
        (kind = alone ∧ cs = [] ∨ kind = withEqual ∧ cs = ['='])) ∨
      (c = '/' ∧ kind = .slash ∧ cs = []) := by
  constructor
  · intro h
    simp only [signs, List.mem_cons, Prod.mk.injEq, List.cons.injEq, List.not_mem_nil,
      or_false] at h
    rcases h with h | h | h | h | h | h | h | h | h | h | h | h | h | h | h | h | h | h | h <;>
      obtain ⟨⟨rfl, rfl⟩, rfl⟩ := h <;> simp [single?, operator?]
  · rintro (⟨h, rfl⟩ | ⟨alone, withEqual, h, h'⟩ | ⟨rfl, rfl, rfl⟩)
    · unfold single? at h
      split at h <;> simp_all [signs]
    · unfold operator? at h
      split at h
      case h_5 => cases h
      all_goals
        cases h
        rcases h' with ⟨rfl, rfl⟩ | ⟨rfl, rfl⟩ <;> simp [signs]
    · simp [signs]

/-- Reserved words are words. -/
theorem Kind.exists_cons_of_mem_reserved {word : String} {kind : Kind}
    (h : (word, kind) ∈ reserved) :
    ∃ c cs, word.toList = c :: cs ∧ isWordStart c ∧ ∀ d ∈ cs, isWordPart d := by
  simp only [reserved, List.mem_cons, Prod.mk.injEq, List.not_mem_nil, or_false] at h
  rcases h with h | h | h | h | h | h | h | h | h | h | h | h | h | h | h | h <;>
    obtain ⟨rfl, rfl⟩ := h <;> exact ⟨_, _, rfl, rfl, List.all_eq_true.1 rfl⟩

theorem Kind.ofWord_of_mem {word : String} {kind : Kind} (h : (word, kind) ∈ reserved) :
    ofWord word = kind := by
  simp only [reserved, List.mem_cons, Prod.mk.injEq, List.not_mem_nil, or_false] at h
  rcases h with h | h | h | h | h | h | h | h | h | h | h | h | h | h | h | h <;>
    obtain ⟨rfl, rfl⟩ := h <;> rfl

theorem Kind.ofWord_of_notMem {word : String} (h : ∀ kind, (word, kind) ∉ reserved) :
    ofWord word = .identifier := by
  rw [ofWord, ← reserved_eq, List.lookup_eq_none_iff.2]
  · rfl
  · rintro ⟨w, kind⟩ hmem
    refine bne_iff_ne.2 ?_
    rintro rfl
    exact h kind hmem

/-- A reserved word spells its own token and every other word an identifier. -/
theorem Kind.spells_ofWord {c : Char} {cs : List Char} (hc : isWordStart c)
    (hcs : ∀ d ∈ cs, isWordPart d) : Spells (ofWord (String.ofList (c :: cs))) (c :: cs) := by
  by_cases h : ∃ kind, (String.ofList (c :: cs), kind) ∈ reserved
  · obtain ⟨kind, h⟩ := h
    rw [ofWord_of_mem h]
    simpa using Spells.keyword h
  · simp only [not_exists] at h
    rw [ofWord_of_notMem h]
    exact .identifier (isWordStart_iff.1 hc) (fun d hd => isWordPart_iff.1 (hcs d hd)) h

/-- The classes of tokens: signs, words, strings and numerals. -/
theorem Kind.Spells.class {kind : Kind} {text : List Char} (h : Spells kind text) :
    (text, kind) ∈ signs ∨
    (∃ c cs, text = c :: cs ∧ isWordStart c ∧ (∀ d ∈ cs, isWordPart d) ∧
      kind = ofWord (String.ofList text)) ∨
    (∃ contents, '"' ∉ contents ∧ text = '"' :: (contents ++ ['"']) ∧
      kind = .string (String.ofList contents)) ∨
    (∃ whole places, whole ≠ [] ∧ (∀ d ∈ whole ++ places, d.isDigit) ∧
      (places = [] ∧ text = whole ∨ places ≠ [] ∧ text = whole ++ '.' :: places) ∧
      kind = .number (Binary64.ofDecimal (natOfDigits (whole ++ places)) places.length)) := by
  cases h with
  | sign h => exact .inl h
  | keyword h =>
    obtain ⟨c, cs, hword, hc, hcs⟩ := exists_cons_of_mem_reserved h
    refine .inr (.inl ⟨c, cs, hword, hc, hcs, ?_⟩)
    rw [String.ofList_toList, ofWord_of_mem h]
  | identifier hc hcs h =>
    exact .inr (.inl ⟨_, _, rfl, isWordStart_iff.2 hc, fun d hd => isWordPart_iff.2 (hcs d hd),
      (ofWord_of_notMem h).symm⟩)
  | string h => exact .inr (.inr (.inl ⟨_, h, rfl, rfl⟩))
  | integer hne h =>
    exact .inr (.inr (.inr ⟨text, [], hne, by simpa [isDigit_iff] using h, .inl ⟨rfl, rfl⟩,
      by simp⟩))
  | decimal hwhole hplaces h =>
    exact .inr (.inr (.inr ⟨_, _, hwhole, fun d hd => isDigit_iff.2 (h d hd),
      .inr ⟨hplaces, rfl⟩, rfl⟩))

end LoxLang
