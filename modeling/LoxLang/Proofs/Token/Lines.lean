import LoxLang.Proofs.Token.Cutting
import Mathlib.Tactic.SplitIfs

/-!
# Lines and line feeds

The number of a line is one more than the number of line feeds before it, wherever these stand: in
white space, in a comment or in a string. A line feed is one byte in UTF-8, and no other character
has this byte in it (`lineFeedBytes_ofList`), so the lines that cutting counts by characters are
those that the bytes of the source have (`lines_exact`).
-/

namespace LoxLang

/-- The number of line feeds among bytes. -/
def lineFeedBytes (bytes : ByteArray) : Nat := bytes.data.count 10

/-- The line on which an item stands. -/
def Item.line : Item → Nat
  | .token t => t.line
  | .error e => e.line

/-- The item is on its line, where its piece has the bytes of the source from `start` to `stop`: a
token on the line of its end, a stray character on that of its beginning, and a string that is never
closed on that of the end of the source. -/
def Item.OnLine (source : String) (start stop : Nat) : Item → Prop
  | .token t => source.toUTF8.extract start stop = t.lexeme.toUTF8 ∧
    t.line = 1 + lineFeedBytes (source.toUTF8.extract 0 stop)
  | .error ⟨line, .unexpected c⟩ => source.toUTF8.extract start stop = c.toString.toUTF8 ∧
    line = 1 + lineFeedBytes (source.toUTF8.extract 0 start)
  | .error ⟨line, .unterminatedString⟩ => stop = source.utf8ByteSize ∧
    line = 1 + lineFeedBytes source.toUTF8

/-! ## Bytes -/

/-- The byte of a line feed is in no other character. -/
theorem not_mem_utf8EncodeChar {c : Char} (h : c ≠ '\n') : 10 ∉ String.utf8EncodeChar c := by
  have hvalue : c.val.toNat ≠ 10 := fun hc => h (Char.val_inj.1 (UInt32.toNat_inj.1 hc))
  -- The bytes of a character that takes more than one are all larger than 127.
  have hbyte : ∀ k : Nat, k < 256 → k ≠ 10 → 10 ≠ UInt8.ofNat k := by
    intro k hk hne heq
    have hmod : 10 = k % 256 := congrArg UInt8.toNat heq
    omega
  unfold String.utf8EncodeChar
  dsimp only
  split_ifs
  · rw [List.mem_singleton]
    exact hbyte _ (by omega) hvalue
  all_goals
    simp only [List.mem_cons, List.not_mem_nil, or_false, not_or]
    repeat' apply And.intro
    all_goals exact hbyte _ (by omega) (by omega)

theorem count_utf8EncodeChar (c : Char) :
    (String.utf8EncodeChar c).count 10 = [c].count '\n' := by
  by_cases h : c = '\n'
  · subst h
    rfl
  · rw [List.count_eq_zero.2 (not_mem_utf8EncodeChar h), List.count_eq_zero.2]
    simpa using Ne.symm h

theorem lineFeedBytes_ofList (cs : List Char) :
    lineFeedBytes (String.ofList cs).toUTF8 = cs.count '\n' := by
  rw [lineFeedBytes, String.toUTF8_eq_toByteArray, String.toByteArray_ofList, List.utf8Encode,
    List.data_toByteArray, List.count_toArray]
  induction cs with
  | nil => rfl
  | cons c cs ih =>
    rw [List.flatMap_cons, List.count_append, ih, count_utf8EncodeChar, ← List.count_append]
    rfl

namespace Piece

/-! ## Pieces -/

/-- The bytes of a source in front of those of the last pieces. -/
theorem extract_zero_of_cut {source : String} {before after : List Piece}
    (h : cut source.toList = before ++ after) :
    source.toUTF8.extract 0 (width before) = (String.ofList (before.flatMap text)).toUTF8 := by
  have htext := flatMap_text_cut source.toList
  rw [h, List.flatMap_append] at htext
  have hsource := congrArg String.ofList htext
  rw [String.ofList_toList, String.ofList_append] at hsource
  rw [width_eq, ← hsource, String.toUTF8_eq_toByteArray, String.toUTF8_eq_toByteArray,
    String.toByteArray_append, ByteArray.extract_append_eq_left]
  exact String.size_toByteArray.symm

/-- The line feeds in the first pieces are those among the bytes. -/
theorem lineFeeds_of_cut {source : String} {before after : List Piece}
    (h : cut source.toList = before ++ after) :
    lineFeeds before = lineFeedBytes (source.toUTF8.extract 0 (width before)) := by
  rw [extract_zero_of_cut h, lineFeedBytes_ofList]
  rfl

theorem lineFeeds_cut (source : String) :
    lineFeeds (cut source.toList) = lineFeedBytes source.toUTF8 := by
  rw [lineFeeds, flatMap_text_cut, ← lineFeedBytes_ofList, String.ofList_toList]

/-- A solid piece is behind as many others as its number says. -/
theorem exists_of_lt_solid {ps : List Piece} {i : Nat} (h : i < (solid ps).length) :
    ∃ before p after, ps = before ++ p :: after ∧ p.shape ≠ .blank ∧ (solid before).length = i := by
  induction ps generalizing i with
  | nil => cases h
  | cons p ps ih =>
    by_cases hp : p.shape ≠ .blank
    · have hsolid : ∀ qs, solid (p :: qs) = p :: solid qs :=
        fun qs => List.filter_cons_of_pos (by simpa using hp)
      cases i with
      | zero => exact ⟨[], p, ps, rfl, hp, rfl⟩
      | succ i =>
        rw [hsolid, List.length_cons] at h
        obtain ⟨before, q, after, rfl, hq, hlength⟩ := ih (Nat.lt_of_succ_lt_succ h)
        exact ⟨p :: before, q, after, rfl, hq, by rw [hsolid, List.length_cons, hlength]⟩
    · have hblank : ∀ qs, solid (p :: qs) = solid qs :=
        fun qs => List.filter_cons_of_neg (by simpa using hp)
      rw [hblank] at h
      obtain ⟨before, q, after, rfl, hq, hlength⟩ := ih h
      exact ⟨p :: before, q, after, rfl, hq, by rw [hblank, hlength]⟩

theorem width_concat (ps : List Piece) (p : Piece) :
    width (ps ++ [p]) = width ps + p.lexeme.utf8ByteSize := by
  induction ps with
  | nil => exact Nat.add_comm _ 0
  | cons q ps ih => rw [List.cons_append, width, ih, width, Nat.add_assoc]

/-- A piece of a source fits in front of what is left behind it. -/
theorem Cuts.exists_fits {source : List Char} {before after : List Piece} {p : Piece}
    (h : Cuts source (before ++ p :: after)) : ∃ rest, p.Fits rest := by
  induction before generalizing source with
  | nil =>
    cases h with
    | cons hfits _ => exact ⟨_, hfits⟩
  | cons q before ih =>
    cases h with
    | cons _ hrest => exact ih hrest

/-- A stray character is no line feed. -/
theorem Fits.count_of_unexpected {p : Piece} {rest : List Char} {c : Char} (h : p.Fits rest)
    (hp : p.shape = .fault (.unexpected c)) : p.text = [c] ∧ p.text.count '\n' = 0 := by
  cases h with
  | unexpected hspace _ =>
    cases hp
    refine ⟨rfl, List.count_eq_zero.2 fun hmem => hspace ?_⟩
    rw [← List.mem_singleton.1 hmem]
    exact .inr (.inr (.inr rfl))
  | _ => cases hp

/-- The item of a solid piece is on its line. -/
theorem onLine_of_cut {source : String} {before after : List Piece} {p : Piece} {item : Item}
    (h : cut source.toList = before ++ p :: after)
    (hitem : p.item? (1 + lineFeeds (before ++ [p])) = some item) :
    item.OnLine source (width before) (width before + p.lexeme.utf8ByteSize) := by
  have hbytes := extract_eq_of_cut h
  have hcuts : Cuts source.toList (before ++ p :: after) := h ▸ cuts_cut source.toList
  have hthrough : cut source.toList = before ++ [p] ++ after := by
    rw [h, List.append_assoc, List.singleton_append]
  unfold item? at hitem
  cases hshape : p.shape with
  | token kind =>
    rw [hshape] at hitem
    cases hitem
    refine ⟨hbytes, ?_⟩
    rw [lineFeeds_of_cut hthrough, width_concat]
  | blank =>
    rw [hshape] at hitem
    cases hitem
  | fault cause =>
    rw [hshape] at hitem
    cases hitem
    cases cause with
    | unexpected c =>
      obtain ⟨rest, hfits⟩ := hcuts.exists_fits
      obtain ⟨htext, hcount⟩ := hfits.count_of_unexpected hshape
      refine ⟨?_, ?_⟩
      · rw [hbytes, lexeme, htext]
        rfl
      · rw [← lineFeeds_of_cut h, lineFeeds, List.flatMap_append, List.count_append, lineFeeds]
        simp [hcount]
    | unterminatedString =>
      obtain rfl := hcuts.eq_nil_of_unterminated hshape
      refine ⟨?_, ?_⟩
      · rw [← width_concat, ← h, width_eq, flatMap_text_cut, String.ofList_toList]
      · rw [← h, lineFeeds_cut]

/-- The items come line by line, none of them before the first line. -/
theorem pairwise_items (line : Nat) (ps : List Piece) :
    (Piece.items line ps).Pairwise (·.line ≤ ·.line) ∧
      ∀ i ∈ Piece.items line ps, line ≤ i.line := by
  induction ps generalizing line with
  | nil => simp [Piece.items, Item.line, Token.endMark]
  | cons p ps ih =>
    obtain ⟨hpairs, hfirst⟩ := ih (line + p.text.count '\n')
    have hitem : ∀ i ∈ p.item? (line + p.text.count '\n'), i.line = line + p.text.count '\n' := by
      rcases p with ⟨_ | _ | _, text⟩ <;> rintro _ ⟨⟩ <;> rfl
    rw [Piece.items]
    refine ⟨List.pairwise_append.2 ⟨?_, hpairs, fun i hi j hj => ?_⟩, fun i hi => ?_⟩
    · cases p.item? (line + p.text.count '\n') <;> simp
    · rw [hitem i (Option.mem_toList.1 hi)]
      exact hfirst j hj
    · rcases List.mem_append.1 hi with hi | hi
      · rw [hitem i (Option.mem_toList.1 hi)]
        exact Nat.le_add_right _ _
      · exact Nat.le_trans (Nat.le_add_right _ _) (hfirst i hi)

end Piece

/-- **Line numbers are exact.** Take the pieces into which the grammar cuts a source. Each item but
the last is that of a solid piece, in order, and stands on its line: a token has one more than the
line feeds among the bytes of the source before the end of its lexeme, an unexpected character one
more than those before it, a string without end one more than those of the whole source. The last
item is the end mark, which also has one more than those of the whole source. So the lines never
decrease from item to item. -/
theorem lines_exact (source : String) :
    ∃ ps, (∀ qs, Piece.Cuts source.toList qs ↔ qs = ps) ∧
      (Item.scan source).length = (Piece.solid ps).length + 1 ∧
      (∀ (i : Nat) item, (Item.scan source)[i]? = some item → i < (Piece.solid ps).length →
        ∃ before p after, ps = before ++ p :: after ∧ (Piece.solid before).length = i ∧
          p.shape ≠ .blank ∧
          item.OnLine source (Piece.width before)
            (Piece.width before + p.lexeme.utf8ByteSize)) ∧
      (Item.scan source)[(Piece.solid ps).length]? =
        some (.token (.endMark (1 + lineFeedBytes source.toUTF8))) ∧
      (Item.scan source).Pairwise (·.line ≤ ·.line) := by
  refine ⟨Piece.cut source.toList, fun qs => Piece.cuts_iff, Piece.length_items .., ?_, ?_,
    (Piece.pairwise_items 1 _).1⟩
  · intro i item hitem hlt
    obtain ⟨before, p, after, h, hsolid, rfl⟩ := Piece.exists_of_lt_solid hlt
    rw [Item.scan, h, Piece.getElem?_items hsolid] at hitem
    exact ⟨before, p, after, h, rfl, hsolid, Piece.onLine_of_cut h hitem⟩
  · have hlast := Piece.getLast?_items 1 (Piece.cut source.toList)
    rw [List.getLast?_eq_getElem?, Piece.length_items, Piece.lineFeeds_cut] at hlast
    exact hlast

example : (Item.scan "/* \n */ \"\n\" // é\n\n@ x").map Item.line = [3, 5, 5, 5] := by cbv

end LoxLang
