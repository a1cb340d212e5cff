import LoxLang.Proofs.Grammar.Precedence

/-!
# The dangling else

A statement can be read in several ways where one `if` stands inside another and only one of them
has an `else`. A reader takes an `else` as soon as it stands in front, so it needs to know whether a
statement is open, that is, whether an `else` behind it would belong to it. `Stated` derives the
statements with that distinction, and `Derives.stated` shows that it loses none of them: an `else`
behind an open statement moves inward (`Stated.otherwise`).
-/

namespace LoxLang

namespace Rhs

/-- What stands in front of the statement under a condition. -/
def ifHead : Rhs := token .kwIf ++ token .leftParen ++ sym .expression ++ token .rightParen

/-- What stands in front of the body of a `while` loop. -/
def whileHead : Rhs := token .kwWhile ++ token .leftParen ++ sym .expression ++ token .rightParen

/-- What stands in front of the body of a `for` loop. -/
def forHead : Rhs :=
  token .kwFor ++ token .leftParen ++ (sym .varDecl ||| sym .exprStmt ||| token .semicolon) ++
    opt (sym .expression) ++ token .semicolon ++ opt (sym .expression) ++ token .rightParen

/-- Statements that do not end with another statement. -/
def simple : Rhs := sym .exprStmt ||| sym .printStmt ||| sym .returnStmt ||| sym .block

end Rhs

/-- The tokens make up a statement, in which each `else` belongs to the nearest `if`. The statement
is open if one more `else` would belong to it. -/
inductive Stated : Bool → List Token → Prop
  | simple {w : List Token} : Derives .simple w → Stated false w
  | branch {isOpen : Bool} {x w : List Token} : Derives .ifHead x → Stated isOpen w →
      Stated true (x ++ w)
  | branches {isOpen : Bool} {x v w : List Token} {t : Token} : Derives .ifHead x →
      Stated false v → t.kind = .kwElse → Stated isOpen w → Stated isOpen (x ++ (v ++ t :: w))
  | whileLoop {isOpen : Bool} {x w : List Token} : Derives .whileHead x → Stated isOpen w →
      Stated isOpen (x ++ w)
  | forLoop {isOpen : Bool} {x w : List Token} : Derives .forHead x → Stated isOpen w →
      Stated isOpen (x ++ w)

/-- An `else` behind an open statement belongs to an `if` inside. -/
theorem Stated.otherwise {v w : List Token} {t : Token} {isOpen : Bool} (hv : Stated true v)
    (ht : t.kind = .kwElse) (hw : Stated isOpen w) : ∃ isOpen', Stated isOpen' (v ++ t :: w) := by
  generalize hb : true = b at hv
  induction hv with
  | simple => cases hb
  | @branch b x u hx hu ih =>
    rw [List.append_assoc]
    cases b with
    | false => exact ⟨isOpen, .branches hx hu ht hw⟩
    | true =>
      obtain ⟨_, hu'⟩ := ih rfl
      exact ⟨true, .branch hx hu'⟩
  | @branches _ x u u' t' hx hu ht' _ _ ih =>
    obtain ⟨o, hu'⟩ := ih hb
    refine ⟨o, ?_⟩
    rw [List.append_assoc, List.append_assoc]
    exact .branches hx hu ht' hu'
  | whileLoop hx _ ih =>
    obtain ⟨o, hu'⟩ := ih hb
    exact ⟨o, by rw [List.append_assoc]; exact .whileLoop hx hu'⟩
  | forLoop hx _ ih =>
    obtain ⟨o, hu'⟩ := ih hb
    exact ⟨o, by rw [List.append_assoc]; exact .forLoop hx hu'⟩

theorem Derives.head_pos {x : List Token} (h : Derives (.ifHead ||| .whileHead ||| .forHead) x) :
    0 < x.length := by
  have htoken : ∀ {kind : Kind} {b : Rhs}, Derives (.token kind ++ b) x → 0 < x.length := by
    intro kind b h
    obtain ⟨t, v, rfl, -⟩ := token_seq_iff.1 h
    exact Nat.succ_pos _
  simp only [alt_iff, Rhs.ifHead, Rhs.whileHead, Rhs.forHead, seq_assoc, or_assoc] at h
  rcases h with h | h | h
  · exact htoken h
  · exact htoken h
  · exact htoken h

/-- **Every statement can be read with each `else` at the nearest `if`.** -/
theorem Derives.stated {w : List Token} (h : Derives (.sym .statement) w) :
    ∃ isOpen, Stated isOpen w := by
  induction hlen : w.length using Nat.strongRecOn generalizing w with
  | ind len ih =>
    subst hlen
    have hinner : ∀ {x u : List Token}, Derives (.ifHead ||| .whileHead ||| .forHead) x →
        Derives (.sym .statement) u → x.length + u.length ≤ w.length →
        ∃ isOpen, Stated isOpen u := by
      intro x u hx hu hlen
      have hpos := hx.head_pos
      exact ih _ (by omega) hu rfl
    rcases derives_statement_iff.1 h with h | h | h | h | h | h | h
    · exact ⟨false, .simple (.left (.left (.left h)))⟩
    · obtain ⟨x, u, rfl, hx, hu⟩ := seq_iff.1 (sym_iff.1 h)
      obtain ⟨o, hu'⟩ := hinner (.right hx) hu (Nat.le_of_eq List.length_append.symm)
      exact ⟨o, .forLoop hx hu'⟩
    · obtain ⟨_, y, rfl, h, hy⟩ := seq_iff.1 (sym_iff.1 h)
      obtain ⟨x, u, rfl, hx, hu⟩ := seq_iff.1 h
      simp only [List.length_append] at hinner
      obtain ⟨o, hu'⟩ := hinner (.left (.left hx)) hu (by omega)
      rcases opt_iff.1 hy with rfl | hy
      · exact ⟨true, by rw [List.append_nil]; exact .branch hx hu'⟩
      · obtain ⟨t, z, rfl, ht, hz⟩ := token_seq_iff.1 hy
        obtain ⟨o', hz'⟩ := hinner (.left (.left hx)) hz (by rw [List.length_cons]; omega)
        rw [List.append_assoc]
        cases o with
        | false => exact ⟨o', .branches hx hu' ht hz'⟩
        | true =>
          obtain ⟨_, hinside⟩ := hu'.otherwise ht hz'
          exact ⟨true, .branch hx hinside⟩
    · exact ⟨false, .simple (.left (.left (.right h)))⟩
    · exact ⟨false, .simple (.left (.right h))⟩
    · obtain ⟨x, u, rfl, hx, hu⟩ := seq_iff.1 (sym_iff.1 h)
      obtain ⟨o, hu'⟩ := hinner (.left (.right hx)) hu (Nat.le_of_eq List.length_append.symm)
      exact ⟨o, .whileLoop hx hu'⟩
    · exact ⟨false, .simple (.right h)⟩

end LoxLang
