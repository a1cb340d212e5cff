import LoxLang.Proofs.Token.Front

/-!
# Cutting by the lexical grammar

The grammar cuts every source in one way, and `Piece.cut` cuts it so (`Piece.cuts_iff`). The pieces
cover the bytes of the source without a gap or an overlap, their ends fall between characters, and
the items come in the order of their pieces, each on the line on which its piece ends
(`scan_follows_grammar`).
-/

namespace LoxLang

namespace Piece

/-- Cutting follows the grammar. -/
theorem cuts_cut (source : List Char) : Cuts source (cut source) := by
  fun_induction cut source with
  | case1 => exact .nil
  | case2 c cs shape more hfront ih =>
    have hfits := front_fits c cs
    rw [hfront] at hfits
    simpa using Cuts.cons hfits ih

/-- The grammar leaves no choice. -/
theorem Cuts.eq_cut {source : List Char} {ps : List Piece} (h : Cuts source ps) :
    ps = cut source := by
  induction h with
  | nil => simp [cut]
  | @cons p rest ps h _ ih =>
    obtain ⟨c, cs, htext, hfront⟩ := h.front
    obtain ⟨shape, text⟩ := p
    cases htext
    rw [List.cons_append, cut, hfront, ih]
    simp

theorem cuts_iff {source : List Char} {ps : List Piece} : Cuts source ps ↔ ps = cut source :=
  ⟨Cuts.eq_cut, fun h => h ▸ cuts_cut source⟩

/-- The text of a piece as a string. -/
def lexeme (p : Piece) : String := String.ofList p.text

/-- The number of bytes of consecutive pieces. -/
def width : List Piece → Nat
  | [] => 0
  | p :: ps => p.lexeme.utf8ByteSize + width ps

/-- The number of line feeds in consecutive pieces. -/
def lineFeeds (ps : List Piece) : Nat := (ps.flatMap text).count '\n'

theorem width_eq (ps : List Piece) : width ps = (String.ofList (ps.flatMap text)).utf8ByteSize := by
  induction ps with
  | nil => rfl
  | cons p ps ih =>
    rw [List.flatMap_cons, String.ofList_append, String.utf8ByteSize_append, ← ih]
    simp [width, lexeme]

/-- The pieces that are no blanks. -/
def solid (ps : List Piece) : List Piece := ps.filter (·.shape ≠ .blank)

/-- The items of pieces with others behind them: one for each solid piece. -/
theorem exists_items_append (line : Nat) (ps : List Piece) :
    ∃ items : List Item, items.length = (solid ps).length ∧
      ∀ qs, Piece.items line (ps ++ qs) = items ++ Piece.items (line + lineFeeds ps) qs := by
  induction ps generalizing line with
  | nil => exact ⟨[], rfl, fun qs => rfl⟩
  | cons p ps ih =>
    obtain ⟨items, hlength, hitems⟩ := ih (line + p.text.count '\n')
    refine ⟨(p.item? (line + p.text.count '\n')).toList ++ items, ?_, fun qs => ?_⟩
    · rw [List.length_append, hlength, solid, solid, List.filter_cons]
      rcases p with ⟨_ | _ | _, text⟩ <;> simp [item?, Nat.add_comm]
    · rw [List.cons_append, Piece.items, hitems, List.append_assoc]
      simp [lineFeeds, Nat.add_assoc]

/-- The solid piece behind some pieces has the item of its number. -/
theorem getElem?_items {line : Nat} {before after : List Piece} {p : Piece} (h : p.shape ≠ .blank) :
    (Piece.items line (before ++ p :: after))[(solid before).length]? =
      p.item? (line + lineFeeds (before ++ [p])) := by
  obtain ⟨items, hlength, hitems⟩ := exists_items_append line before
  rw [hitems, ← hlength, Piece.items]
  rcases p with ⟨_ | _ | _, text⟩
  case blank => exact absurd rfl h
  all_goals simp [item?, lineFeeds, Nat.add_assoc]

/-- The last item is the end mark. -/
theorem getLast?_items (line : Nat) (ps : List Piece) :
    (Piece.items line ps).getLast? = some (.token (.endMark (line + lineFeeds ps))) := by
  obtain ⟨items, -, hitems⟩ := exists_items_append line ps
  have h := hitems []
  rw [List.append_nil] at h
  rw [h]
  simp [Piece.items]

theorem length_items (line : Nat) (ps : List Piece) :
    (Piece.items line ps).length = (solid ps).length + 1 := by
  obtain ⟨items, hlength, hitems⟩ := exists_items_append line ps
  have h := hitems []
  rw [List.append_nil] at h
  rw [h, List.length_append, hlength]
  rfl

/-- A source is the text in front of a piece, the text of the piece and the text behind it. -/
theorem eq_append_of_cut {source : String} {before after : List Piece} {p : Piece}
    (h : cut source.toList = before ++ p :: after) :
    source = String.ofList (before.flatMap text) ++
      (p.lexeme ++ String.ofList (after.flatMap text)) := by
  have htext := flatMap_text_cut source.toList
  rw [h, List.flatMap_append, List.flatMap_cons] at htext
  have hsource := congrArg String.ofList htext
  rw [String.ofList_toList, String.ofList_append, String.ofList_append] at hsource
  exact hsource.symm

/-- The bytes of a piece among those of its source. -/
theorem extract_eq_of_cut {source : String} {before after : List Piece} {p : Piece}
    (h : cut source.toList = before ++ p :: after) :
    source.toUTF8.extract (width before) (width before + p.lexeme.utf8ByteSize) =
      p.lexeme.toUTF8 := by
  rw [eq_append_of_cut h, width_eq]
  generalize String.ofList (before.flatMap text) = front
  generalize String.ofList (after.flatMap text) = back
  rw [String.toUTF8_eq_toByteArray, String.toUTF8_eq_toByteArray, ← String.append_assoc,
    String.toByteArray_append, String.toByteArray_append, ByteArray.extract_append,
    ByteArray.extract_append_eq_right]
  · simp
  · rw [String.size_toByteArray]
  · rw [String.size_toByteArray, String.size_toByteArray]

/-- Only the end of the source leaves a string open. -/
theorem Cuts.eq_nil_of_unterminated {source : List Char} {before after : List Piece} {p : Piece}
    (h : Cuts source (before ++ p :: after)) (hp : p.shape = .fault .unterminatedString) :
    after = [] := by
  induction before generalizing source with
  | nil =>
    cases h with
    | cons hfits hrest =>
      cases hfits with
      | unterminated =>
        generalize hnil : ([] : List Char) = rest at hrest
        cases hrest with
        | nil => rfl
        | cons hfits =>
          obtain ⟨c, cs, htext, -⟩ := hfits.front
          simp [htext] at hnil
      | _ => cases hp
  | cons q before ih =>
    cases h with
    | cons _ hrest => exact ih hrest

end Piece

end LoxLang
