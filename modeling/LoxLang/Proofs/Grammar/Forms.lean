import LoxLang.Text.Quoted
import Mathlib.Data.List.Basic

/-!
# Atoms and lists

A `Form` is an atom or a list of forms. A list is written with spaces between its items and in
parentheses, and an atom as it is. If no atom is empty or has a space or a parenthesis in it
(`Form.Clean`), a form is read off the front of a text in one way only: an atom ends where a space
or a parenthesis stands, and a list where its parenthesis is closed (`Form.unique_front`). So
different forms have different texts (`Form.text_injective`).
-/

namespace LoxLang

open Text

/-- An atom, or a list of forms. -/
inductive Form
  | atom (text : String)
  | list (items : List Form)

/-- The characters that end an atom. -/
def isDelimiter (c : Char) : Bool := c = ' ' || c = '(' || c = ')'

namespace Form

mutual

/-- The text of a form. -/
def text : Form → String
  | .atom s => s
  | .list fs => parens (texts fs)

/-- The texts of forms. -/
def texts : List Form → List String
  | [] => []
  | f :: fs => f.text :: texts fs

end

mutual

/-- Each atom is a word on its own. -/
def Clean : Form → Prop
  | .atom s => s ≠ "" ∧ ∀ c ∈ s.toList, isDelimiter c = false
  | .list fs => AllClean fs

/-- Each atom of the forms is a word on its own. -/
def AllClean : List Form → Prop
  | [] => True
  | f :: fs => f.Clean ∧ AllClean fs

end

/-- What may stand behind a form. -/
def Ended (r : List Char) : Prop := ∀ c ∈ r.head?, c = ' ' ∨ c = ')'

/-- What stands behind the first item of a list, through its closing parenthesis. -/
def restText (fs : List Form) : List Char := (texts fs).flatMap (' ' :: ·.toList) ++ [')']

theorem restText_cons (f : Form) (fs : List Form) :
    restText (f :: fs) = ' ' :: (f.text.toList ++ restText fs) := by
  simp [restText, texts]

theorem ended_restText (fs : List Form) (r : List Char) : Ended (restText fs ++ r) := by
  cases fs with
  | nil =>
    rintro c ⟨⟩
    exact .inr rfl
  | cons f fs =>
    rw [restText_cons]
    rintro c ⟨⟩
    exact .inl rfl

theorem toList_text_nil : (list []).text.toList = ['(', ')'] := rfl

theorem toList_text_cons (f : Form) (fs : List Form) :
    (list (f :: fs)).text.toList = '(' :: (f.text.toList ++ restText fs) := by
  have hitems : ∀ (s : String) (ss : List String), (spaced (s :: ss)).toList =
      s.toList ++ ss.flatMap (' ' :: ·.toList) := by
    intro s ss
    induction ss generalizing s with
    | nil => simp [spaced]
    | cons t ss ih =>
      unfold spaced at ih ⊢
      rw [String.intercalate_cons_cons, String.toList_append, ih]
      simp
  rw [text, texts, parens, String.toList_append, String.toList_append, hitems]
  simp [restText]

theorem exists_atom_front {s : String} (h : (atom s).Clean) :
    ∃ c cs, s.toList = c :: cs ∧ isDelimiter c = false := by
  obtain ⟨c, cs, hcs⟩ := List.exists_cons_of_ne_nil (mt String.toList_eq_nil_iff.1 h.1)
  exact ⟨c, cs, hcs, h.2 c (hcs ▸ List.mem_cons_self)⟩

theorem exists_list_front (fs : List Form) : ∃ cs, (list fs).text.toList = '(' :: cs := by
  cases fs with
  | nil => exact ⟨_, toList_text_nil⟩
  | cons f fs => exact ⟨_, toList_text_cons f fs⟩

/-- An atom is no list. -/
theorem atom_ne_list {s : String} (h : (atom s).Clean) (fs : List Form) (r r' : List Char) :
    s.toList ++ r ≠ (list fs).text.toList ++ r' := by
  obtain ⟨c, cs, hs, hc⟩ := exists_atom_front h
  obtain ⟨cs', hfs⟩ := exists_list_front fs
  rw [hs, hfs]
  intro heq
  rw [(List.cons.inj heq).1] at hc
  exact absurd hc (by decide)

/-- No form begins with the parenthesis that closes a list. -/
theorem ne_close {f : Form} (h : f.Clean) (r r' : List Char) :
    f.text.toList ++ r ≠ ')' :: r' := by
  intro heq
  cases f with
  | atom s =>
    obtain ⟨c, cs, hs, hc⟩ := exists_atom_front h
    rw [text, hs] at heq
    rw [(List.cons.inj heq).1] at hc
    exact absurd hc (by decide)
  | list fs =>
    obtain ⟨cs, hfs⟩ := exists_list_front fs
    rw [hfs] at heq
    exact absurd (List.cons.inj heq).1 (by decide)

/-- A word ends where a delimiter stands. -/
theorem word_unique {s s' r r' : List Char} (hs : ∀ c ∈ s, isDelimiter c = false)
    (hs' : ∀ c ∈ s', isDelimiter c = false) (hr : Ended r) (hr' : Ended r')
    (h : s ++ r = s' ++ r') : s = s' ∧ r = r' := by
  have hstop : ∀ {c : Char} {s r : List Char}, isDelimiter c = false → Ended r → r ≠ c :: s := by
    rintro c s _ hc hr rfl
    rcases hr c rfl with rfl | rfl <;> exact absurd hc (by decide)
  induction s generalizing s' with
  | nil =>
    cases s' with
    | nil => exact ⟨rfl, h⟩
    | cons c s' => exact absurd h (hstop (hs' c List.mem_cons_self) hr)
  | cons c s ih =>
    cases s' with
    | nil => exact absurd h.symm (hstop (hs c List.mem_cons_self) hr')
    | cons c' s' =>
      obtain ⟨rfl, htail⟩ := List.cons.inj h
      obtain ⟨rfl, hr⟩ := ih (List.forall_mem_cons.1 hs).2 (List.forall_mem_cons.1 hs').2 htail
      exact ⟨rfl, hr⟩

mutual

/-- **A text has one form at its front**, by induction on the form. -/
theorem unique_front : ∀ {f f' : Form} {r r' : List Char}, f.Clean → f'.Clean → Ended r →
    Ended r' → f.text.toList ++ r = f'.text.toList ++ r' → f = f' ∧ r = r'
  | .atom s, .atom s', r, r', hf, hf', hr, hr', h => by
    obtain ⟨hs, hr⟩ := word_unique hf.2 hf'.2 hr hr' h
    exact ⟨congrArg atom (String.toList_inj.1 hs), hr⟩
  | .atom _, .list fs', r, r', hf, _, _, _, h => absurd h (atom_ne_list hf fs' r r')
  | .list fs, .atom _, r, r', _, hf', _, _, h => absurd h.symm (atom_ne_list hf' fs r' r)
  | .list [], .list [], r, r', _, _, _, _, h => ⟨rfl, List.append_cancel_left h⟩
  | .list [], .list (f' :: fs'), r, r', _, hf', _, _, h => by
    rw [toList_text_nil, toList_text_cons] at h
    simp only [List.cons_append, List.append_assoc] at h
    exact absurd (List.cons.inj h).2.symm (ne_close hf'.1 _ _)
  | .list (f :: fs), .list [], r, r', hf, _, _, _, h => by
    rw [toList_text_nil, toList_text_cons] at h
    simp only [List.cons_append, List.append_assoc] at h
    exact absurd (List.cons.inj h).2 (ne_close hf.1 _ _)
  | .list (f :: fs), .list (f' :: fs'), r, r', hf, hf', _, _, h => by
    rw [toList_text_cons, toList_text_cons, List.cons_append, List.cons_append, List.append_assoc,
      List.append_assoc] at h
    obtain ⟨rfl, hrest⟩ := unique_front hf.1 hf'.1 (ended_restText fs r) (ended_restText fs' r')
      (List.cons.inj h).2
    obtain ⟨rfl, hr⟩ := unique_rest hf.2 hf'.2 hrest
    exact ⟨rfl, hr⟩

/-- The items of a list end where its parenthesis is closed. -/
theorem unique_rest : ∀ {fs fs' : List Form} {r r' : List Char}, AllClean fs → AllClean fs' →
    restText fs ++ r = restText fs' ++ r' → fs = fs' ∧ r = r'
  | [], [], r, r', _, _, h => ⟨rfl, (List.cons.inj h).2⟩
  | [], f' :: fs', r, r', _, _, h => by
    rw [restText_cons] at h
    exact absurd (List.cons.inj h).1 (by decide)
  | f :: fs, [], r, r', _, _, h => by
    rw [restText_cons] at h
    exact absurd (List.cons.inj h).1 (by decide)
  | f :: fs, f' :: fs', r, r', hf, hf', h => by
    rw [restText_cons, restText_cons, List.cons_append, List.cons_append, List.append_assoc,
      List.append_assoc] at h
    obtain ⟨rfl, hrest⟩ := unique_front hf.1 hf'.1 (ended_restText fs r) (ended_restText fs' r')
      (List.cons.inj h).2
    obtain ⟨rfl, hr⟩ := unique_rest hf.2 hf'.2 hrest
    exact ⟨rfl, hr⟩

end

/-- **Different forms have different texts.** -/
theorem text_injective {f f' : Form} (hf : f.Clean) (hf' : f'.Clean) (h : f.text = f'.text) :
    f = f' := by
  have hend : Ended [] := fun _ hc => nomatch hc
  have hfront : f.text.toList ++ [] = f'.text.toList ++ [] := by rw [h]
  exact (unique_front hf hf' hend hend hfront).1

end Form

end LoxLang
