import LoxLang.Proofs.Lines.Reline
import LoxLang.Proofs.Token.Cutting

/-!
# Sources put together

A line feed ends every piece that is not a string or a block comment. So a source in which every
string and every comment is closed is cut in the same way when a line feed and another source stand
behind it, and the other source is cut as it would be on its own (`Piece.cut_append`). Its tokens
and errors come on lines that are as much larger as the first source has lines
(`Item.scan_append`).
-/

namespace LoxLang

open Piece

/-- The source ends inside a block comment. -/
def EndsInComment (source : List Char) : Prop :=
  ∃ ps body, Cuts source (ps ++ [⟨.blank, '/' :: '*' :: body⟩]) ∧ ¬ ['*', '/'] <:+: body

namespace EndsInComment

/-- A comment that is opened and not closed goes on to the end. -/
theorem of_open {body : List Char} (h : ¬ ['*', '/'] <:+: body) :
    EndsInComment ('/' :: '*' :: body) := by
  have hcuts := Cuts.cons (p := ⟨.blank, '/' :: '*' :: body⟩) (.blank (.openComment h)) .nil
  rw [List.append_nil] at hcuts
  exact ⟨[], body, hcuts, h⟩

/-- What stands in front of the comment does not matter. -/
theorem cons {p : Piece} {rest : List Char} (hp : p.Fits rest) (h : EndsInComment rest) :
    EndsInComment (p.text ++ rest) := by
  obtain ⟨ps, body, hcuts, hbody⟩ := h
  exact ⟨p :: ps, body, .cons hp hcuts, hbody⟩

end EndsInComment

namespace Piece

/-! ## Cutting -/

/-- A character outside a class ends a run of the class. -/
theorem takeWhile_append_of_neg {p : Char → Bool} {d : Char} (hd : p d = false)
    (cs more : List Char) : (cs ++ d :: more).takeWhile p = cs.takeWhile p := by
  obtain ⟨run, rest, rfl, hrun, hrest⟩ := exists_run p cs
  rw [takeWhile_run hrun hrest, List.append_assoc, takeWhile_run hrun]
  cases rest with
  | nil =>
    rintro _ ⟨⟩
    exact hd
  | cons e rest => exact hrest

/-- A numeral ends in front of a character that is neither a digit nor a point. -/
theorem numeral_append {d : Char} (hdigit : d.isDigit = false) (hpoint : d ≠ '.') (c : Char)
    (cs more : List Char) : numeral c (cs ++ d :: more) = numeral c cs := by
  obtain ⟨run, rest, rfl, hrun, hrest⟩ := exists_run Char.isDigit cs
  have hrest' : ∀ e ∈ (rest ++ d :: more).head?, e.isDigit = false := by
    cases rest with
    | nil =>
      rintro _ ⟨⟩
      exact hdigit
    | cons e rest => exact hrest
  have hfraction : fraction (rest ++ d :: more) = fraction rest := by
    cases rest with
    | nil => simp [fraction, hpoint]
    | cons e rest =>
      by_cases he : e = '.'
      · subst he
        exact takeWhile_append_of_neg hdigit rest more
      · simp [fraction, he]
  rw [List.append_assoc, numeral_run hrun hrest', numeral_run hrun hrest, hfraction]

/-- White space ends what stands at the front, unless that is a string without end or a comment. -/
theorem front_append_space {d : Char} (hd : isSpace d) {c : Char} {cs : List Char}
    (hstring : (front c cs).1 ≠ .fault .unterminatedString)
    (hcomment : c = '/' → ∀ e ∈ cs.head?, e ≠ '/' ∧ e ≠ '*') (more : List Char) :
    front c (cs ++ d :: more) = front c cs := by
  have hspace : d = ' ' ∨ d = '\r' ∨ d = '\t' ∨ d = '\n' := by simpa [isSpace] using hd
  rcases front_cases c with h | ⟨kind, hfront, -⟩ | ⟨alone, withEqual, hfront, -⟩ | rfl | rfl | h |
    h | ⟨-, hfront⟩
  · rw [front_of_isSpace h, front_of_isSpace h]
  · rw [hfront, hfront]
  · rw [hfront, hfront]
    cases cs with
    | nil => rcases hspace with rfl | rfl | rfl | rfl <;> rfl
    | cons e cs => rfl
  · have hother := hcomment rfl
    rw [front_slash hother, front_slash]
    cases cs with
    | nil =>
      rintro _ ⟨⟩
      rcases hspace with rfl | rfl | rfl | rfl <;> decide
    | cons e cs => exact hother
  · rw [front_quote] at hstring
    have hlength : (cs.takeWhile (· ≠ '"')).length < cs.length := by
      by_contra h
      exact hstring (by rw [if_neg h])
    obtain ⟨contents, rest, rfl, hcontents, hrest⟩ := exists_run (· ≠ '"') cs
    rw [takeWhile_run hcontents hrest] at hlength
    cases rest with
    | nil => simp at hlength
    | cons e rest =>
      have hrest' : ∀ f ∈ (e :: (rest ++ d :: more)).head?, decide (f ≠ '"') = false := hrest
      rw [front_quote, front_quote, List.append_assoc, takeWhile_run hcontents hrest,
        List.cons_append, takeWhile_run hcontents hrest', if_pos hlength, if_pos (by simp)]
  · have hdigit : d.isDigit = false ∧ d ≠ '.' := by
      rcases hspace with rfl | rfl | rfl | rfl <;> decide
    rw [front_of_isDigit h, front_of_isDigit h, numeral_append hdigit.1 hdigit.2]
  · have hpart : isWordPart d = false := by rcases hspace with rfl | rfl | rfl | rfl <;> decide
    rw [front_of_isWordStart h, front_of_isWordStart h, takeWhile_append_of_neg hpart]
  · rw [hfront, hfront]

/-- A line feed ends what stands at the front, unless that is a string or a comment without end. -/
theorem front_append_lineFeed {c : Char} {cs : List Char}
    (hstring : (front c cs).1 ≠ .fault .unterminatedString)
    (hcomment : ∀ body, c :: cs = '/' :: '*' :: body → ['*', '/'] <:+: body) (more : List Char) :
    front c (cs ++ '\n' :: more) = front c cs := by
  by_cases hslash : c = '/' ∧ cs.head? = some '/'
  · obtain ⟨rfl, hhead⟩ := hslash
    obtain ⟨cs, rfl⟩ := List.head?_eq_some_iff.1 hhead
    rw [List.cons_append, front_lineComment, front_lineComment, takeWhile_append_of_neg rfl]
  by_cases hstar : c = '/' ∧ cs.head? = some '*'
  · obtain ⟨rfl, hhead⟩ := hstar
    obtain ⟨cs, rfl⟩ := List.head?_eq_some_iff.1 hhead
    rcases comment_cases cs with ⟨body, rest, rfl, h⟩ | h
    · rw [List.cons_append, front_blockComment, front_blockComment, List.append_assoc,
        List.cons_append, List.cons_append, commentLength_closed h, commentLength_closed h]
    · exact absurd (hcomment cs rfl) h
  · refine front_append_space (by decide) hstring (fun hc e he => ?_) more
    exact ⟨fun h => hslash ⟨hc, h ▸ he⟩, fun h => hstar ⟨hc, h ▸ he⟩⟩

theorem front_le (c : Char) (cs : List Char) : (front c cs).2 ≤ cs.length := by
  obtain ⟨d, ds, htext, hfront⟩ := (front_fits c cs).front
  obtain ⟨rfl, rfl⟩ := List.cons.inj htext
  rw [List.take_append_drop] at hfront
  have hlength := congrArg Prod.snd hfront
  rw [List.length_take] at hlength
  dsimp only at hlength
  omega

/-- **A source with closed strings and comments is cut apart from what follows on the next
line.** -/
theorem cut_append {source : List Char}
    (hstring : ∀ p ∈ cut source, p.shape ≠ .fault .unterminatedString)
    (hclosed : ¬ EndsInComment source) (more : List Char) :
    cut (source ++ '\n' :: more) = cut source ++ ⟨.blank, ['\n']⟩ :: cut more := by
  fun_induction cut source with
  | case1 =>
    rw [List.nil_append, cut, front_of_isSpace (by decide)]
    rfl
  | case2 c cs shape n hfront ih =>
    obtain ⟨hshape, hstring⟩ := List.forall_mem_cons.1 hstring
    have hfits := front_fits c cs
    have hle := front_le c cs
    have hfront' : front c (cs ++ '\n' :: more) = (shape, n) := by
      rw [← hfront]
      refine front_append_lineFeed (by rwa [hfront]) (fun body hbody => ?_) more
      by_contra hopen
      exact hclosed (hbody ▸ .of_open hopen)
    rw [hfront] at hfits hle
    replace hle : n ≤ cs.length := hle
    have hrest : ¬ EndsInComment (cs.drop n) := fun h => by
      have hcons := h.cons hfits
      rw [List.cons_append, List.take_append_drop] at hcons
      exact hclosed hcons
    rw [List.cons_append, cut, hfront']
    dsimp only
    rw [List.take_append_of_le_length hle, List.drop_append_of_le_length hle, ih hstring hrest]
    rfl

/-- The end mark is not cut from the source. -/
theorem shape_ne_eof_of_mem_cut {source : List Char} {p : Piece} (h : p ∈ cut source) :
    p.shape ≠ .token .eof := by
  fun_induction cut source with
  | case1 => cases h
  | case2 c cs shape n hfront ih =>
    rcases List.mem_cons.1 h with rfl | h
    · rintro rfl
      have hsound := front_sound c cs
      rw [hfront] at hsound
      replace hsound : Kind.Spells .eof (c :: cs.take n) := hsound
      generalize c :: cs.take n = text at hsound
      cases hsound with
      | sign h => simp [Kind.signs] at h
      | keyword h => simp [Kind.reserved] at h
    · exact ih h

end Piece

/-! ## Items -/

/-- The error on the image of its line. -/
def LexicalError.reline (f : Nat → Nat) (e : LexicalError) : LexicalError :=
  { e with line := f e.line }

/-- The item on the image of its line. -/
def Item.reline (f : Nat → Nat) : Item → Item
  | .token t => .token (t.reline f)
  | .error e => .error (e.reline f)

namespace Piece

/-- Pieces that begin some lines further down have the same items, as many lines further down. -/
theorem items_add (line k : Nat) (ps : List Piece) :
    items (line + k) ps = (items line ps).map (Item.reline (· + k)) := by
  induction ps generalizing line with
  | nil => rfl
  | cons p ps ih =>
    rw [items, items, List.map_append, ← ih, Nat.add_right_comm]
    refine congrArg (· ++ _) ?_
    unfold item?
    cases p.shape <;> rfl

/-- The items of pieces without errors are tokens, and none of them is the end mark. -/
theorem exists_tokens_append {ps : List Piece} (hps : ∀ p ∈ ps, p.shape ≠ .token .eof)
    {line : Nat} (herrors : (items line ps).filterMap Item.error? = []) :
    ∃ ts : List Token, (∀ t ∈ ts, ¬ t.isEnd) ∧ (∀ p ∈ ps, ∀ cause, p.shape ≠ .fault cause) ∧
      ∀ qs, items line (ps ++ qs) = ts.map .token ++ items (line + lineFeeds ps) qs := by
  induction ps generalizing line with
  | nil => exact ⟨[], List.forall_mem_nil _, List.forall_mem_nil _, fun qs => rfl⟩
  | cons p ps ih =>
    obtain ⟨hp, hps⟩ := List.forall_mem_cons.1 hps
    rw [items, List.filterMap_append, List.append_eq_nil_iff] at herrors
    obtain ⟨ts, hts, hfaults, hitems⟩ := ih hps herrors.2
    have hlines : line + lineFeeds (p :: ps) = line + p.text.count '\n' + lineFeeds ps := by
      simp [lineFeeds, Nat.add_assoc]
    obtain ⟨shape, text⟩ := p
    cases shape with
    | token kind =>
      refine ⟨⟨kind, String.ofList text, line + text.count '\n'⟩ :: ts, ?_, ?_, fun qs => ?_⟩
      · refine List.forall_mem_cons.2 ⟨fun h => hp ?_, hts⟩
        exact congrArg Shape.token (of_decide_eq_true h)
      · exact List.forall_mem_cons.2 ⟨fun cause h => (by cases h), hfaults⟩
      · rw [List.cons_append, items, hitems, hlines]
        rfl
    | blank =>
      refine ⟨ts, hts, List.forall_mem_cons.2 ⟨fun cause h => (by cases h), hfaults⟩, fun qs => ?_⟩
      rw [List.cons_append, items, hitems, hlines]
      rfl
    | fault cause => cases herrors.1

end Piece

/-- **A source with closed strings and comments keeps its items when another source follows on the
next line**, and the other has its items as many lines further down. -/
theorem Item.scan_append_of_closed {first : String}
    (hstring : ∀ p ∈ cut first.toList, p.shape ≠ .fault .unterminatedString)
    (hclosed : ¬ EndsInComment first.toList) :
    ∃ items : List Item,
      Item.scan first = items ++ [.token (.endMark (1 + lineFeeds (cut first.toList)))] ∧
      ∀ second : String, Item.scan (first ++ "\n" ++ second) = items ++
        (Item.scan second).map (Item.reline (· + (lineFeeds (cut first.toList) + 1))) := by
  obtain ⟨items, -, hitems⟩ := exists_items_append 1 (cut first.toList)
  refine ⟨items, ?_, fun second => ?_⟩
  · have h := hitems []
    rw [List.append_nil] at h
    exact h
  · have hsource : (first ++ "\n" ++ second).toList = first.toList ++ '\n' :: second.toList := by
      simp
    rw [Item.scan, Item.scan, hsource, cut_append hstring hclosed, hitems, ← items_add,
      Piece.items]
    simp [item?, Nat.add_assoc]

/-- **The items of sources that are put together.** Behind a source without errors and with closed
comments the items of another source come as many lines further down as the first has lines. -/
theorem Item.scan_append {first : String} (hclosed : ¬ EndsInComment first.toList)
    (herrors : LexicalError.scan first = []) :
    ∃ (ts : List Token) (line : Nat), (∀ t ∈ ts, ¬ t.isEnd) ∧
      Token.scan first = ts ++ [.endMark line] ∧
      ∀ second : String, Item.scan (first ++ "\n" ++ second) =
        ts.map .token ++ (Item.scan second).map (Item.reline (· + line)) := by
  obtain ⟨ts, hts, hfaults, htokens⟩ :=
    Piece.exists_tokens_append (fun _ => Piece.shape_ne_eof_of_mem_cut) herrors
  obtain ⟨items, hfirst, hitems⟩ := Item.scan_append_of_closed (fun p hp => hfaults p hp _) hclosed
  have hscan := htokens []
  rw [List.append_nil] at hscan
  have heq : items = ts.map .token := List.append_cancel_right (hfirst.symm.trans hscan)
  refine ⟨ts, 1 + Piece.lineFeeds (Piece.cut first.toList), hts, ?_, fun second => ?_⟩
  · rw [Token.scan, hfirst, heq, List.filterMap_append, List.filterMap_map]
    exact congrArg (· ++ _) List.filterMap_some
  · rw [hitems, heq, Nat.add_comm 1]

theorem Item.token?_reline (f : Nat → Nat) (i : Item) :
    (i.reline f).token? = i.token?.map (Token.reline f) := by
  cases i <;> rfl

theorem Item.error?_reline (f : Nat → Nat) (i : Item) :
    (i.reline f).error? = i.error?.map (LexicalError.reline f) := by
  cases i <;> rfl

/-- **The tokens and errors of sources that are put together**: the tokens of the first without its
end mark, and then what the second comes to, further down. -/
theorem Token.scan_append {first : String} (hclosed : ¬ EndsInComment first.toList)
    (herrors : LexicalError.scan first = []) :
    ∃ (ts : List Token) (line : Nat), (∀ t ∈ ts, ¬ t.isEnd) ∧
      Token.scan first = ts ++ [.endMark line] ∧ ∀ second : String,
        Token.scan (first ++ "\n" ++ second) =
          ts ++ (Token.scan second).map (Token.reline (· + line)) ∧
        LexicalError.scan (first ++ "\n" ++ second) =
          (LexicalError.scan second).map (LexicalError.reline (· + line)) := by
  obtain ⟨ts, line, hts, hfirst, hitems⟩ := Item.scan_append hclosed herrors
  refine ⟨ts, line, hts, hfirst, fun second => ⟨?_, ?_⟩⟩
  · rw [Token.scan, hitems, List.filterMap_append, List.filterMap_map, List.filterMap_map,
      Token.scan, List.map_filterMap]
    refine congrArg₂ (· ++ ·) List.filterMap_some ?_
    exact List.filterMap_congr fun i _ => i.token?_reline _
  · have hnone : ts.filterMap (Item.error? ∘ Item.token) = [] :=
      List.filterMap_eq_nil_iff.2 fun _ _ => rfl
    rw [LexicalError.scan, hitems, List.filterMap_append, List.filterMap_map, List.filterMap_map,
      LexicalError.scan, List.map_filterMap, hnone]
    exact List.filterMap_congr fun i _ => i.error?_reline _

theorem Piece.exists_mem_items (line : Nat) (ps : List Piece) :
    ∃ last, .token (.endMark last) ∈ items line ps := by
  induction ps generalizing line with
  | nil => exact ⟨line, .head _⟩
  | cons p ps ih =>
    obtain ⟨last, h⟩ := ih (line + p.text.count '\n')
    exact ⟨last, List.mem_append_right _ h⟩

/-- The end mark is always there. -/
theorem Token.scan_ne_nil (source : String) : Token.scan source ≠ [] := by
  obtain ⟨last, h⟩ := Piece.exists_mem_items 1 (Piece.cut source.toList)
  exact List.ne_nil_of_mem (List.mem_filterMap.2 ⟨_, h, rfl⟩)

end LoxLang
