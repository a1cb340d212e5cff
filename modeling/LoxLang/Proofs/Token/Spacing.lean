import LoxLang.Proofs.Token.Joining
import LoxLang.Proofs.Token.Lines
import LoxLang.Text.Quoted
import Mathlib

/-!
# Sources written anew and put together

White space ends every token (`Kind.Spells.front_append_space`). So the texts of tokens with single
spaces between them are cut into these very tokens and spaces (`Piece.cut_intersperse`), and a
source that is written anew from its lexemes has the same tokens (`Token.scan_spaced`). Together
with what is known of a source that is followed by another on the next line, this is
`scanning_stable`.
-/

namespace LoxLang

open Piece

/-- White space behind a token leaves it as it is. -/
theorem Kind.Spells.front_append_space {kind : Kind} {c : Char} {cs : List Char}
    (h : Spells kind (c :: cs)) {d : Char} (hd : isSpace d) (more : List Char) :
    Piece.front c (cs ++ d :: more) = (.token kind, cs.length) := by
  have hfront := h.front
  rw [Piece.front_append_space hd, hfront]
  · rw [hfront]
    rintro ⟨⟩
  · rintro rfl e he
    obtain ⟨cs, rfl⟩ := List.head?_eq_some_iff.1 he
    refine ⟨?_, ?_⟩ <;> rintro rfl
    · rw [front_lineComment] at hfront
      cases hfront
    · rw [front_blockComment] at hfront
      cases hfront

namespace Piece

/-! ## Tokens with spaces between them -/

/-- The kind and the text of a piece that is a token. -/
def spelling? (p : Piece) : Option (Kind × String) :=
  match p.shape with
  | .token kind => some (kind, p.lexeme)
  | _ => none

/-- The pieces that are tokens. -/
def tokenPieces (ps : List Piece) : List Piece := ps.filter (·.spelling?.isSome)

/-- A single space. -/
def gap : Piece := ⟨.blank, [' ']⟩

/-- A token of a source is spelled as the grammar says. -/
theorem spells_of_mem_cut {source : List Char} {p : Piece} (h : p ∈ cut source) {kind : Kind}
    (hp : p.shape = .token kind) : kind.Spells p.text := by
  obtain ⟨before, after, hcut⟩ := List.append_of_mem h
  obtain ⟨rest, hfits⟩ := (hcut ▸ cuts_cut source).exists_fits
  cases hfits with
  | token hspells =>
    cases hp
    exact hspells
  | _ => cases hp

/-- A token with white space behind it is cut off. -/
theorem cut_token_append {kind : Kind} {text : List Char} (h : kind.Spells text) {d : Char}
    (hd : isSpace d) (more : List Char) :
    cut (text ++ d :: more) = ⟨.token kind, text⟩ :: cut (d :: more) := by
  obtain ⟨c, cs, rfl⟩ := List.exists_cons_of_ne_nil h.ne_nil
  rw [List.cons_append, cut, h.front_append_space hd]
  simp

/-- A token alone is cut into itself. -/
theorem cut_token {kind : Kind} {text : List Char} (h : kind.Spells text) :
    cut text = [⟨.token kind, text⟩] := by
  obtain ⟨c, cs, rfl⟩ := List.exists_cons_of_ne_nil h.ne_nil
  rw [cut, h.front]
  simp [cut]

/-- **Tokens with spaces between them are cut into these tokens and spaces.** -/
theorem cut_intersperse {ps : List Piece}
    (h : ∀ p ∈ ps, ∃ kind, p.shape = .token kind ∧ kind.Spells p.text) :
    cut ((ps.intersperse gap).flatMap text) = ps.intersperse gap := by
  induction ps with
  | nil => simp [cut]
  | cons p ps ih =>
    obtain ⟨⟨kind, hshape, hspells⟩, hps⟩ := List.forall_mem_cons.1 h
    obtain ⟨shape, text⟩ := p
    cases hshape
    cases ps with
    | nil => simpa using cut_token hspells
    | cons q ps =>
      rw [List.intersperse_cons_cons, List.flatMap_cons, List.flatMap_cons]
      show cut (text ++ ' ' :: _) = _
      rw [cut_token_append hspells (by decide), cut, front_of_isSpace (by decide)]
      show _ :: gap :: cut ((List.intersperse gap (q :: ps)).flatMap Piece.text) = _
      rw [ih hps]

theorem flatMap_text_intersperse (ps : List Piece) :
    (ps.intersperse gap).flatMap text = [' '].intercalate (ps.map text) := by
  induction ps with
  | nil => rfl
  | cons p ps ih =>
    cases ps with
    | nil => simp
    | cons q ps =>
      rw [List.intersperse_cons_cons, List.flatMap_cons, List.flatMap_cons, ih, List.map_cons,
        List.map_cons, List.map_cons, List.intercalate_cons_cons, List.append_assoc]
      rfl

theorem eq_gap_or_mem {ps : List Piece} {p : Piece} (h : p ∈ ps.intersperse gap) :
    p = gap ∨ p ∈ ps := by
  induction ps with
  | nil => cases h
  | cons q ps ih =>
    cases ps with
    | nil => exact .inr h
    | cons r ps =>
      rw [List.intersperse_cons_cons] at h
      rcases List.mem_cons.1 h with rfl | h
      · exact .inr List.mem_cons_self
      rcases List.mem_cons.1 h with rfl | h
      · exact .inl rfl
      · exact (ih h).imp_right (List.mem_cons_of_mem q)

/-- Spaces between pieces add no token. -/
theorem filterMap_intersperse (ps : List Piece) :
    (ps.intersperse gap).filterMap spelling? = ps.filterMap spelling? := by
  induction ps with
  | nil => rfl
  | cons p ps ih =>
    cases ps with
    | nil => rfl
    | cons q ps =>
      rw [List.intersperse_cons_cons, List.filterMap_cons, List.filterMap_cons (l := q :: ps), ← ih]
      rfl

theorem filterMap_tokenPieces (ps : List Piece) :
    (tokenPieces ps).filterMap spelling? = ps.filterMap spelling? := by
  rw [tokenPieces, List.filterMap_filter]
  refine List.filterMap_congr fun p _ => ?_
  cases p.spelling? <;> rfl

/-- The tokens among the items are those among the pieces, with the end mark behind them. -/
theorem map_spelling_items (line : Nat) (ps : List Piece) :
    ((items line ps).filterMap Item.token?).map (fun t => (t.kind, t.lexeme)) =
      ps.filterMap spelling? ++ [(.eof, "")] := by
  induction ps generalizing line with
  | nil => rfl
  | cons p ps ih =>
    rw [items, List.filterMap_append, List.map_append, ih]
    rcases p with ⟨_ | _ | _, text⟩ <;> rfl

/-- Pieces without faults have no errors among their items. -/
theorem errors_items {ps : List Piece} (h : ∀ p ∈ ps, ∀ cause, p.shape ≠ .fault cause)
    (line : Nat) : (items line ps).filterMap Item.error? = [] := by
  induction ps generalizing line with
  | nil => rfl
  | cons p ps ih =>
    obtain ⟨hp, hps⟩ := List.forall_mem_cons.1 h
    rw [items, List.filterMap_append, ih hps, List.append_nil]
    rcases p with ⟨_ | _ | cause, text⟩
    · rfl
    · rfl
    · exact absurd rfl (hp cause)

end Piece

/-- Each token of a source stands for a piece. -/
theorem Token.map_spelling_scan (source : String) :
    (Token.scan source).map (fun t => (t.kind, t.lexeme)) =
      (cut source.toList).filterMap spelling? ++ [(.eof, "")] :=
  map_spelling_items 1 _

/-- The lexemes of a source with spaces between them are the tokens of the source with spaces
between them. -/
theorem Token.toList_spaced {source : String} {ts : List Token} {line : Nat}
    (h : Token.scan source = ts ++ [.endMark line]) :
    (Text.spaced (ts.map Token.lexeme)).toList =
      ((tokenPieces (cut source.toList)).intersperse gap).flatMap text := by
  have hspelling := Token.map_spelling_scan source
  rw [h, List.map_append] at hspelling
  replace hspelling := List.append_cancel_right hspelling
  have hlexemes : ts.map Token.lexeme = (tokenPieces (cut source.toList)).map Piece.lexeme := by
    calc ts.map Token.lexeme
        = (ts.map fun t => (t.kind, t.lexeme)).map Prod.snd := by simp
      _ = ((tokenPieces (cut source.toList)).filterMap spelling?).map Prod.snd := by
        rw [hspelling, filterMap_tokenPieces]
      _ = (tokenPieces (cut source.toList)).map Piece.lexeme := by
        rw [List.map_filterMap, ← List.filterMap_eq_map]
        refine List.filterMap_congr fun p hp => ?_
        have hsome : p.spelling?.isSome := (List.mem_filter.1 hp).2
        rcases p with ⟨_ | _ | _, text⟩
        · rfl
        · cases hsome
        · cases hsome
  rw [Text.spaced, String.toList_intercalate, hlexemes, flatMap_text_intersperse, List.map_map]
  refine congrArg _ (List.map_congr_left fun p _ => ?_)
  exact String.toList_ofList

/-- The tokens of a source end with the end mark. -/
theorem Token.exists_scan_eq_append (source : String) :
    ∃ ts line, Token.scan source = ts ++ [.endMark line] := by
  obtain ⟨items, -, hitems⟩ := exists_items_append 1 (cut source.toList)
  have hscan := hitems []
  rw [List.append_nil] at hscan
  refine ⟨items.filterMap Item.token?, 1 + lineFeeds (cut source.toList), ?_⟩
  rw [Token.scan, Item.scan, hscan, List.filterMap_append]
  rfl

/-- **The lexemes of a source with spaces between them are scanned into the same tokens.** -/
theorem Token.scan_spaced {source : String} {ts : List Token} {line : Nat}
    (h : Token.scan source = ts ++ [.endMark line]) :
    LexicalError.scan (Text.spaced (ts.map Token.lexeme)) = [] ∧
      (Token.scan (Text.spaced (ts.map Token.lexeme))).map (fun t => (t.kind, t.lexeme)) =
        (Token.scan source).map (fun t => (t.kind, t.lexeme)) := by
  have hspells : ∀ p ∈ tokenPieces (cut source.toList), ∃ kind, p.shape = .token kind ∧
      kind.Spells p.text := by
    intro p hp
    obtain ⟨hp, hsome⟩ := List.mem_filter.1 hp
    unfold spelling? at hsome
    split at hsome
    next kind hkind => exact ⟨kind, hkind, spells_of_mem_cut hp hkind⟩
    · cases hsome
  have hcut := cut_intersperse hspells
  rw [← Token.toList_spaced h] at hcut
  refine ⟨?_, ?_⟩
  · rw [LexicalError.scan, Item.scan, hcut]
    refine errors_items (fun p hp cause hcause => ?_) 1
    rcases eq_gap_or_mem hp with rfl | hp
    · cases hcause
    · obtain ⟨kind, hkind, -⟩ := hspells p hp
      cases hkind.symm.trans hcause
  · rw [Token.map_spelling_scan, hcut, filterMap_intersperse, filterMap_tokenPieces,
      Token.map_spelling_scan]

/-- A string without end among the pieces is an error of the source. -/
theorem LexicalError.exists_unterminated {source : String} {p : Piece} (h : p ∈ cut source.toList)
    (hp : p.shape = .fault .unterminatedString) :
    ∃ e ∈ LexicalError.scan source, e.cause = .unterminatedString := by
  obtain ⟨before, after, hcut⟩ := List.append_of_mem h
  have hsolid : p.shape ≠ .blank := by simp [hp]
  have hitem := @getElem?_items 1 before after p hsolid
  rw [← hcut, item?, hp] at hitem
  exact ⟨_, List.mem_filterMap.2 ⟨_, List.mem_of_getElem? hitem, rfl⟩, rfl⟩

/-- **Scanning is stable and compositional.** The lexemes of a source without the end mark, written
with single spaces between them, are scanned without an error into tokens of the same kinds with the
same contents and the same lexemes. And a source in which every string is closed and that does not
end inside a block comment can be followed by another source on the next line: the items are those
of the first without its end mark and then those of the second, as many lines further down as the
first has bytes that are line feeds, and one more. -/
theorem scanning_stable :
    (∀ source : String, ∃ ts line, Token.scan source = ts ++ [.endMark line] ∧
      LexicalError.scan (Text.spaced (ts.map Token.lexeme)) = [] ∧
      (Token.scan (Text.spaced (ts.map Token.lexeme))).map (fun t => (t.kind, t.lexeme)) =
        (Token.scan source).map (fun t => (t.kind, t.lexeme))) ∧
    ∀ first : String, (∀ e ∈ LexicalError.scan first, e.cause ≠ .unterminatedString) →
      ¬ EndsInComment first.toList →
      ∃ items line, Item.scan first = items ++ [.token (.endMark line)] ∧ ∀ second : String,
        Item.scan (first ++ "\n" ++ second) = items ++
          (Item.scan second).map (Item.reline (· + (lineFeedBytes first.toUTF8 + 1))) := by
  refine ⟨fun source => ?_, fun first hstring hclosed => ?_⟩
  · obtain ⟨ts, line, hscan⟩ := Token.exists_scan_eq_append source
    exact ⟨ts, line, hscan, Token.scan_spaced hscan⟩
  · have hpieces : ∀ p ∈ cut first.toList, p.shape ≠ .fault .unterminatedString := by
      intro p hp hshape
      obtain ⟨e, he, hcause⟩ := LexicalError.exists_unterminated hp hshape
      exact hstring e he hcause
    obtain ⟨items, hfirst, hitems⟩ := Item.scan_append_of_closed hpieces hclosed
    rw [lineFeeds_cut] at hitems
    exact ⟨items, _, hfirst, hitems⟩

/-- A string over two lines behind a stray character, and a word on the line below them. -/
theorem word_below_string :
    let first := "@ \"a\nb\""
    ((∀ e ∈ LexicalError.scan first, e.cause ≠ .unterminatedString) ∧
      ¬ EndsInComment first.toList) ∧
    Item.scan (first ++ "\n" ++ "c") =
      [.error ⟨1, .unexpected '@'⟩, .token ⟨.string "a\nb", "\"a\nb\"", 2⟩,
        .token ⟨.identifier, "c", 3⟩, .token (.endMark 3)] := by
  intro first
  have hstring : ∀ e ∈ LexicalError.scan first, e.cause ≠ .unterminatedString := by
    have herrors : LexicalError.scan first = [⟨1, .unexpected '@'⟩] := by cbv
    rw [herrors]
    decide
  have hclosed : ¬ EndsInComment first.toList := by
    rintro ⟨ps, body, hcuts, -⟩
    have hlast : (cut first.toList).getLast? =
        some ⟨.token (.string "a\nb"), ['"', 'a', '\n', 'b', '"']⟩ := by
      cbv
    rw [← cuts_iff.1 hcuts, List.getLast?_append] at hlast
    cases hlast
  have hfirst : Item.scan first = [.error ⟨1, .unexpected '@'⟩,
      .token ⟨.string "a\nb", "\"a\nb\"", 2⟩, .token (.endMark 2)] := by
    cbv
  have hsecond : Item.scan "c" = [.token ⟨.identifier, "c", 1⟩, .token (.endMark 1)] := by cbv
  have hlines : lineFeedBytes first.toUTF8 = 1 := by cbv
  obtain ⟨items, line, hscan, hitems⟩ := scanning_stable.2 first hstring hclosed
  have hbefore : items = (Item.scan first).dropLast := by rw [hscan, List.dropLast_concat]
  refine ⟨⟨hstring, hclosed⟩, ?_⟩
  rw [hitems, hbefore, hfirst, hsecond, hlines]
  rfl

end LoxLang
