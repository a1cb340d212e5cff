import LoxLang.Proofs.Grammar.Congruence
import LoxLang.Proofs.Identity.Marks
import LoxLang.Proofs.Identity.Reader
import LoxLang.Proofs.Loops.Binding
import Mathlib.Data.List.Nodup

/-!
# What is drawn while reading

A drawing reads what the reading of the same name reads, and the numbers in its result are told
apart: each is one of the numbers drawn on the way or belongs to a tree that was already there, and
none is used more often than it was (`Drawing.Follows`). Numbers whose tree is thrown away are not
used again, since the next number only grows. This is shown for all drawings by one induction on the
fuel.

So the line drawn from tokens is the line read from them (`Style.draw_bare`), and its marks are
different numbers between the next number before and the next one after (`Style.marks_draw`).
-/

namespace LoxLang

/-- Something that is put together while numbers are drawn: it has marks, and it is something else
without them. -/
class Numbered (β : Type) (α : outParam Type) where
  marks : β → List Nat
  bare : β → α

namespace Numbered

instance : Numbered (Site Nat) Token := ⟨fun s => [s.mark], Site.name⟩

instance : Numbered (Expr Nat) (Expr Unit) := ⟨Expr.marks, Expr.bare⟩

instance : Numbered (List (Expr Nat)) (List (Expr Unit)) := ⟨Expr.marksAll, Expr.bareAll⟩

instance : Numbered (Stmt Nat) (Stmt Unit) := ⟨Stmt.marks, Stmt.bare⟩

instance : Numbered (List (Stmt Nat)) (List (Stmt Unit)) := ⟨Stmt.marksAll, Stmt.bareAll⟩

instance : Numbered (List (Method Nat)) (List (Method Unit)) := ⟨Method.marksAll, Method.bareAll⟩

instance : Numbered (Line Nat) (Line Unit) := ⟨Line.marks, Line.map fun _ => ()⟩

variable {α β γ : Type} [Numbered β α]

instance : Numbered (Option β) (Option α) := ⟨fun o => o.elim [] marks, Option.map bare⟩

instance : Numbered (γ × β) (γ × α) := ⟨fun p => marks p.2, fun p => (p.1, bare p.2)⟩

end Numbered

theorem Expr.marks_join {σ : Type} (op : Token) (left right : Expr σ) :
    (Expr.join op left right).marks = left.marks ++ right.marks := by
  unfold Expr.join
  split <;> rfl

theorem Expr.bare_join {σ : Type} (op : Token) (left right : Expr σ) :
    (Expr.join op left right).bare = .join op left.bare right.bare := by
  unfold Expr.join
  split <;> rfl

open Numbered (marks bare)

theorem Stmt.bare_forLoop (init : Option (Stmt Nat)) (test step : Option (Expr Nat))
    (body : Stmt Nat) : (Stmt.forLoop init test step body).bare =
      .forLoop (init.map Stmt.bare) (test.map Expr.bare) (step.map Expr.bare) body.bare := by
  cases init <;> cases test <;> cases step <;> rfl

/-- The order of the marks is that of the loop, not that of the text. -/
theorem Stmt.count_marks_forLoop (init : Option (Stmt Nat)) (test step : Option (Expr Nat))
    (body : Stmt Nat) (k : Nat) : (Stmt.forLoop init test step body).marks.count k =
      (Numbered.marks init).count k + (Numbered.marks test).count k +
        (Numbered.marks step).count k + body.marks.count k := by
  cases init <;> cases test <;> cases step <;>
    simp only [Stmt.forLoop, Numbered.marks, Stmt.marks, Stmt.marksAll, Expr.marks, Option.elim,
      Option.getD, List.count_append, List.count_nil] <;> omega

/-- The numbers of a list are those of a list `known`, none used more often than there, and numbers
from `lo` on and below `hi`, each used once more at most. -/
def DrawnFrom (known : List Nat) (lo hi : Nat) (numbers : List Nat) : Prop :=
  ∀ k, numbers.count k ≤ known.count k + if lo ≤ k ∧ k < hi then 1 else 0

namespace DrawnFrom

variable {known numbers numbers' : List Nat} {lo mid hi : Nat}

theorem of_count_le (h : ∀ k, numbers.count k ≤ known.count k) : DrawnFrom known lo hi numbers :=
  fun k => (h k).trans (Nat.le_add_right _ _)

/-- A number that is drawn. -/
theorem single (lo : Nat) : DrawnFrom [] lo (lo + 1) [lo] := by
  intro k
  simp only [List.count_singleton, List.count_nil, Nat.zero_add, beq_iff_eq]
  split_ifs <;> omega

/-- What is drawn first counts as known behind it. -/
theorem trans (h : DrawnFrom [] lo mid numbers) (h' : DrawnFrom (known ++ numbers) mid hi numbers')
    (hlo : lo ≤ mid) (hhi : mid ≤ hi) : DrawnFrom known lo hi numbers' := by
  intro k
  have hk := h k
  have hk' := h' k
  rw [List.count_append] at hk'
  rw [List.count_nil, Nat.zero_add] at hk
  split_ifs at hk hk' ⊢ <;> omega

/-- Where nothing is known, the numbers are different ones from the range. -/
theorem nodup (h : DrawnFrom [] lo hi numbers) :
    numbers.Nodup ∧ ∀ k ∈ numbers, lo ≤ k ∧ k < hi := by
  refine ⟨List.nodup_iff_count_le_one.2 fun k => (h k).trans ?_, fun k hk => ?_⟩
  · rw [List.count_nil, Nat.zero_add]
    split_ifs <;> decide
  · by_contra hout
    have hcount := h k
    rw [if_neg hout] at hcount
    exact absurd (List.count_pos_iff.2 hk) (Nat.not_lt.2 hcount)

end DrawnFrom

namespace Drawing

variable {α β γ : Type} {known : List Nat} {lo : Nat}

/-- How a drawing ends where a reading ends: as that does, with the next number not smaller, and a
result is numbered from what is known and drawn. -/
inductive Ends [Numbered β α] (known : List Nat) (lo : Nat) :
    EStateM.Result Stop Cursor α → EStateM.Result Stop (Cursor × Nat) β → Prop
  | ok {b : β} {c : Cursor} {hi : Nat} : lo ≤ hi → DrawnFrom known lo hi (marks b) →
      Ends known lo (.ok (bare b) c) (.ok b (c, hi))
  | error {stop : Stop} {c : Cursor} {hi : Nat} : lo ≤ hi →
      Ends known lo (.error stop c) (.error stop (c, hi))

/-- Nothing has no marks. -/
theorem Ends.none [Numbered β α] {hi : Nat} (h : lo ≤ hi) (c : Cursor) :
    Ends (β := Option β) [] lo (.ok Option.none c) (.ok Option.none (c, hi)) :=
  .ok (b := (Option.none : Option β)) h (.of_count_le fun _ => Nat.le_refl _)

/-- The drawing reads what the reading reads. What it is put together from may bear the numbers
`known`. -/
def Follows [Numbered β α] (known : List Nat) (d : Drawing β) (r : Reading α) : Prop :=
  ∀ c lo, Ends known lo (r c) (d (c, lo))

namespace Follows

section Steps

variable [Numbered β α] {d : Drawing β} {r : Reading α}

theorem pure {b : β} {a : α} (hbare : bare b = a)
    (h : ∀ k, (marks b).count k ≤ known.count k) :
    Follows known (pure b) (pure a) := by
  cases hbare
  exact fun _ lo => .ok (Nat.le_refl lo) (.of_count_le h)

/-- A result that bears just the known numbers. -/
theorem result {b : β} {a : α} (hbare : bare b = a) (hmarks : marks b = known) :
    Follows known (Pure.pure b) (Pure.pure a) :=
  .pure hbare fun _ => hmarks ▸ Nat.le_refl _

theorem outOfFuel : Follows known (Drawing.outOfFuel : Drawing β) Reading.outOfFuel :=
  fun _ lo => .error (Nat.le_refl lo)

theorem throw (e : GrammarError) :
    Follows known (throw (.error e) : Drawing β) (throw (.error e)) :=
  fun _ lo => .error (Nat.le_refl lo)

theorem fail (cause : GrammarCause) :
    Follows known (Drawing.fail cause : Drawing β) (Reading.fail cause) :=
  fun _ lo => .error (Nat.le_refl lo)

/-- What follows a step in which no number is drawn. -/
theorem after {s : Reading γ} {k' : γ → Drawing β} {k : γ → Reading α}
    (hk : ∀ x, Follows known (k' x) (k x)) : Follows known (lift s >>= k') (s >>= k) := by
  intro c lo
  change Ends known lo (EStateM.bind s k c) (EStateM.bind (lift s) k' (c, lo))
  unfold EStateM.bind lift
  rcases s c with ⟨x, c'⟩ | ⟨stop, c'⟩
  · exact hk x c' lo
  · exact .error (Nat.le_refl lo)

theorem get {k' : Cursor × Nat → Drawing β} {k : Cursor → Reading α}
    (hk : ∀ c n, Follows known (k' (c, n)) (k c)) :
    Follows known (MonadState.get >>= k') (MonadState.get >>= k) :=
  fun c lo => hk c lo c lo

/-- A drawn number is known from then on. -/
theorem fresh {name : Token} {k' : Site Nat → Drawing β}
    (hk : ∀ i, Follows (known ++ [i]) (k' ⟨i, name⟩) r) :
    Follows known (Drawing.fresh name >>= k') r := by
  intro c lo
  change Ends known lo (r c) (k' ⟨lo, name⟩ (c, lo + 1))
  have h := hk lo c (lo + 1)
  generalize r c = x, k' ⟨lo, name⟩ (c, lo + 1) = y at h
  cases h with
  | ok hle hb => exact .ok (Nat.le_of_succ_le hle) (.trans (.single lo) hb (Nat.le_succ lo) hle)
  | error hle => exact .error (Nat.le_of_succ_le hle)

/-- The results of two drawings are numbered apart. -/
theorem bind {α' β' : Type} [Numbered β' α'] {k' : β → Drawing β'} {k : α → Reading α'}
    (hd : Follows [] d r) (hk : ∀ b, Follows (known ++ marks b) (k' b) (k (bare b))) :
    Follows known (d >>= k') (r >>= k) := by
  intro c lo
  change Ends known lo (EStateM.bind r k c) (EStateM.bind d k' (c, lo))
  unfold EStateM.bind
  have h := hd c lo
  generalize r c = x, d (c, lo) = y at h
  cases h with
  | @ok b c' mid hmid hb =>
    have h' := hk b c' mid
    dsimp only
    generalize k (bare b) c' = x, k' b (c', mid) = y at h'
    cases h' with
    | ok hhi hb' => exact .ok (hmid.trans hhi) (hb.trans hb' hmid hhi)
    | error hhi => exact .error (hmid.trans hhi)
  | error hle => exact .error hle

/-- A site whose name was read. -/
theorem fresh_after (s : Reading Token) : Follows [] (lift s >>= Drawing.fresh) s := by
  have h : Follows [] (lift s >>= Drawing.fresh) (s >>= Pure.pure) :=
    .after fun name _ lo => .ok (b := Site.mk lo name) (Nat.le_succ lo) (.single lo)
  rwa [bind_pure] at h

/-- A result with its bare form wrapped. -/
theorem some (hd : Follows [] d r) : Follows [] (Option.some <$> d) (Option.some <$> r) := by
  rw [map_eq_pure_bind, map_eq_pure_bind]
  exact hd.bind fun b => .result rfl rfl

theorem unlessAt (kind : Kind) (hd : Follows [] d r) :
    Follows [] (Drawing.unlessAt kind d) (Reading.unlessAt kind r) := by
  refine .after fun t => ?_
  split
  · exact .result rfl rfl
  · exact hd.some

/-- Something that is only there behind a token of a kind. -/
theorem optional {α' β' : Type} [Numbered β' α'] (kind : Kind) {k' : Option β → Drawing β'}
    {k : Option α → Reading α'} (hd : Follows [] d r)
    (hk : ∀ o, Follows (known ++ marks o) (k' o) (k (bare o))) :
    Follows known
      (do
        let o ← if ← Drawing.accept kind then Option.some <$> d else Pure.pure none
        k' o)
      (do
        let o ← if ← Reading.accept kind then Option.some <$> r else Pure.pure none
        k o) := by
  refine .after fun there => ?_
  cases there with
  | true => exact hd.some.bind hk
  | false => exact .bind (.result (b := none) rfl rfl) hk

/-- Numbers of a declaration that is thrown away are not used again. -/
theorem recovered (hd : Follows [] d r) :
    Follows [] (Drawing.recovered d) (Reading.recovered r) := by
  intro c lo
  unfold Drawing.recovered Reading.recovered
  have h := hd c lo
  generalize r c = x, d (c, lo) = y at h
  cases h with
  | @ok b _ _ hle hb => exact .ok (b := Option.some b) hle hb
  | @error stop _ _ hle =>
    cases stop with
    | error e => exact .none hle _
    | outOfFuel => exact .error hle

/-- Numbers of an expression that is read once more are not used again. -/
theorem attempted (hd : Follows [] d r) :
    Follows [] (Drawing.attempted d) (Reading.attempted r) := by
  intro c lo
  unfold Drawing.attempted Reading.attempted
  have h := hd c lo
  generalize r c = x, d (c, lo) = y at h
  cases h with
  | @ok b _ _ hle hb =>
    dsimp only
    split_ifs
    · exact .ok (b := Option.some b) hle hb
    · exact .none hle _
  | @error stop _ _ hle =>
    cases stop with
    | error e => exact .none hle _
    | outOfFuel => exact .error hle

end Steps

end Follows

/-- All drawings on the given fuel follow the readings on it. -/
structure FollowsOn (n : Nat) : Prop where
  assignment : Follows [] (Drawing.assignment n) (Reading.assignment n)
  operators : ∀ l, Follows [] (Drawing.operators n l) (Reading.operators n l)
  operatorsAfter : ∀ l (left : Expr Nat),
    Follows left.marks (Drawing.operatorsAfter n l left) (Reading.operatorsAfter n l left.bare)
  unary : Follows [] (Drawing.unary n) (Reading.unary n)
  suffixes : ∀ e : Expr Nat, Follows e.marks (Drawing.suffixes n e) (Reading.suffixes n e.bare)
  arguments : ∀ count, Follows [] (Drawing.arguments n count) (Reading.arguments n count)
  primary : Follows [] (Drawing.primary n) (Reading.primary n)
  routine : ∀ role, Follows [] (Drawing.routine n role) (Reading.routine n role)
  block : Follows [] (Drawing.block n) (Reading.block n)
  declaration : Follows [] (Drawing.declaration n) (Reading.declaration n)
  declared : Follows [] (Drawing.declared n) (Reading.declared n)
  classDeclared : Follows [] (Drawing.classDeclared n) (Reading.classDeclared n)
  methods : Follows [] (Drawing.methods n) (Reading.methods n)
  named : ∀ role, Follows [] (Drawing.named n role) (Reading.named n role)
  variableDeclared : Follows [] (Drawing.variableDeclared n) (Reading.variableDeclared n)
  expressionStatement : Follows [] (Drawing.expressionStatement n) (Reading.expressionStatement n)
  forStatement : Follows [] (Drawing.forStatement n) (Reading.forStatement n)
  statement : Follows [] (Drawing.statement n) (Reading.statement n)

namespace FollowsOn

variable {n : Nat}

/-! ## Expressions -/

/-- The number of a variable that becomes the target of an assignment is left out. -/
theorem assignment_succ (ih : FollowsOn n) :
    Follows [] (Drawing.assignment (n + 1)) (Reading.assignment (n + 1)) := by
  refine (ih.operators 0).bind fun e => .after fun equals => ?_
  split
  · refine .after fun _ => ih.assignment.bind fun value => ?_
    cases e with
    | ref s =>
      refine .fresh fun i => .pure rfl fun k => ?_
      simp only [marks, Expr.marks, List.count_append, List.count_cons, List.count_nil]
      omega
    | get object name => exact .result rfl rfl
    | _ => exact .throw _
  · exact .result rfl rfl

theorem operators_succ (ih : FollowsOn n) (l : Nat) :
    Follows [] (Drawing.operators (n + 1) l) (Reading.operators (n + 1) l) :=
  ih.unary.bind fun left => ih.operatorsAfter l left

theorem operatorsAfter_succ (ih : FollowsOn n) (l : Nat) (left : Expr Nat) :
    Follows left.marks (Drawing.operatorsAfter (n + 1) l left)
      (Reading.operatorsAfter (n + 1) l left.bare) := by
  refine .after fun op => ?_
  cases op.kind.level? with
  | none => exact .result rfl rfl
  | some m =>
    dsimp only
    split
    · refine .after fun _ => (ih.operators _).bind fun right => ?_
      have h := ih.operatorsAfter l (.join op left right)
      rwa [Expr.marks_join, Expr.bare_join] at h
    · exact .result rfl rfl

theorem unary_succ (ih : FollowsOn n) :
    Follows [] (Drawing.unary (n + 1)) (Reading.unary (n + 1)) := by
  refine .after fun op => ?_
  cases op.kind
  case bang | minus =>
    exact .after fun _ => ih.unary.bind fun e => .result rfl rfl
  all_goals exact ih.primary.bind fun e => ih.suffixes e

theorem suffixes_succ (ih : FollowsOn n) (e : Expr Nat) :
    Follows e.marks (Drawing.suffixes (n + 1) e) (Reading.suffixes (n + 1) e.bare) := by
  refine .after fun t => ?_
  cases t.kind
  case leftParen =>
    refine .after fun _ => (Follows.unlessAt _ (ih.arguments 0)).bind fun args => ?_
    refine .after fun paren => ?_
    cases args with
    | none => exact ih.suffixes (.call e paren [])
    | some args => exact ih.suffixes (.call e paren args)
  case dot => exact .after fun _ => .after fun name => ih.suffixes (.get e name)
  all_goals exact .result rfl rfl

theorem arguments_succ (ih : FollowsOn n) (count : Nat) :
    Follows [] (Drawing.arguments (n + 1) count) (Reading.arguments (n + 1) count) := by
  have hlist : Follows []
      (do
        let e ← Drawing.assignment n
        if ← Drawing.accept .comma then return e :: (← Drawing.arguments n (count + 1))
        else return [e])
      (do
        let e ← Reading.assignment n
        if ← Reading.accept .comma then return e :: (← Reading.arguments n (count + 1))
        else return [e]) := by
    refine ih.assignment.bind fun e => .after fun comma => ?_
    cases comma with
    | true => exact (ih.arguments _).bind fun es => .result rfl rfl
    | false => exact .result rfl (List.append_nil _)
  rw [Drawing.arguments, Reading.arguments]
  split
  · exact .after fun _ => hlist
  · exact hlist

theorem primary_succ (ih : FollowsOn n) :
    Follows [] (Drawing.primary (n + 1)) (Reading.primary (n + 1)) := by
  refine .after fun t => ?_
  cases t.kind
  case kwFalse | kwTrue | kwNil | number | string =>
    exact .after fun _ => .result rfl rfl
  case kwSuper =>
    refine .after fun _ => .after fun _ => .after fun method => ?_
    exact .fresh fun i => .result rfl rfl
  case kwThis | identifier =>
    exact .after fun _ => .fresh fun i => .result rfl rfl
  case kwFun =>
    refine .after fun _ => .after fun _ => ?_
    exact (ih.routine _).bind fun r => .result rfl rfl
  case leftParen =>
    refine .after fun _ => ih.assignment.bind fun e => ?_
    exact .after fun _ => .result rfl rfl
  all_goals exact .fail _

/-! ## Bodies -/

theorem routine_succ (ih : FollowsOn n) (role : Role) :
    Follows [] (Drawing.routine (n + 1) role) (Reading.routine (n + 1) role) := by
  refine .after fun params => .after fun _ => .after fun _ => ?_
  exact ih.block.bind fun body => .result rfl rfl

theorem block_succ (ih : FollowsOn n) :
    Follows [] (Drawing.block (n + 1)) (Reading.block (n + 1)) := by
  refine .after fun t => ?_
  cases t.kind
  case rightBrace => exact .after fun _ => .result rfl rfl
  case eof => exact .fail _
  all_goals
    refine ih.declaration.bind fun s => ih.block.bind fun ss => ?_
    cases s <;> exact .result rfl rfl

theorem named_succ (ih : FollowsOn n) (role : Role) :
    Follows [] (Drawing.named (n + 1) role) (Reading.named (n + 1) role) := by
  refine .after fun name => .after fun _ => ?_
  exact (ih.routine role).bind fun r => .result rfl rfl

/-! ## Declarations -/

theorem declaration_succ (ih : FollowsOn n) :
    Follows [] (Drawing.declaration (n + 1)) (Reading.declaration (n + 1)) := by
  rw [Reading.declaration_eq]
  exact ih.declared.recovered

theorem declared_succ (ih : FollowsOn n) :
    Follows [] (Drawing.declared (n + 1)) (Reading.declared (n + 1)) := by
  refine .after fun t => ?_
  cases t.kind
  case kwClass => exact .after fun _ => ih.classDeclared
  case kwFun =>
    refine .get fun c _ => ?_
    dsimp only
    split
    · refine .after fun _ => ?_
      exact (ih.named _).bind fun r => .result rfl rfl
    · exact ih.statement
  case kwVar => exact .after fun _ => ih.variableDeclared
  all_goals exact ih.statement

theorem classDeclared_succ (ih : FollowsOn n) :
    Follows [] (Drawing.classDeclared (n + 1)) (Reading.classDeclared (n + 1)) := by
  refine .after fun name => .optional .less (.fresh_after _) fun superclass => .after fun _ => ?_
  refine ih.methods.bind fun ms => .after fun _ => ?_
  cases superclass <;> exact .result rfl rfl

theorem methods_succ (ih : FollowsOn n) :
    Follows [] (Drawing.methods (n + 1)) (Reading.methods (n + 1)) := by
  refine .after fun t => ?_
  cases t.kind
  case rightBrace | eof => exact .result rfl rfl
  all_goals
    refine (ih.named _).bind fun r => ih.methods.bind fun ms => ?_
    exact .result rfl rfl

theorem variableDeclared_succ (ih : FollowsOn n) :
    Follows [] (Drawing.variableDeclared (n + 1)) (Reading.variableDeclared (n + 1)) := by
  refine .after fun name => .optional _ ih.assignment fun value => .after fun _ => ?_
  cases value <;> exact .result rfl rfl

/-! ## Statements -/

theorem expressionStatement_succ (ih : FollowsOn n) :
    Follows [] (Drawing.expressionStatement (n + 1)) (Reading.expressionStatement (n + 1)) :=
  ih.assignment.bind fun _ => .after fun _ => .result rfl rfl

theorem forStatement_succ (ih : FollowsOn n) :
    Follows [] (Drawing.forStatement (n + 1)) (Reading.forStatement (n + 1)) := by
  have hrest : ∀ init : Option (Stmt Nat), Follows (marks init)
      (do
        let test ← Drawing.unlessAt .semicolon (Drawing.assignment n)
        let _ ← Drawing.expect .semicolon .forCondition
        let step ← Drawing.unlessAt .rightParen (Drawing.assignment n)
        let _ ← Drawing.expect .rightParen .forEnd
        let body ← Drawing.statement n
        return Stmt.forLoop init test step body)
      (do
        let test ← Reading.unlessAt .semicolon (Reading.assignment n)
        let _ ← Reading.expect .semicolon .forCondition
        let step ← Reading.unlessAt .rightParen (Reading.assignment n)
        let _ ← Reading.expect .rightParen .forEnd
        let body ← Reading.statement n
        return Stmt.forLoop (bare init) test step body) := by
    intro init
    refine (Follows.unlessAt _ ih.assignment).bind fun test => .after fun _ => ?_
    refine (Follows.unlessAt _ ih.assignment).bind fun step => .after fun _ => ?_
    refine ih.statement.bind fun body => .pure (Stmt.bare_forLoop init test step body) fun k => ?_
    simp only [List.count_append]
    exact (Stmt.count_marks_forLoop init test step body k).le
  refine .after fun _ => .after fun t => ?_
  cases t.kind
  case semicolon => exact .after fun _ => hrest none
  case kwVar => exact .after fun _ => ih.variableDeclared.some.bind hrest
  all_goals exact ih.expressionStatement.some.bind hrest

theorem statement_succ (ih : FollowsOn n) :
    Follows [] (Drawing.statement (n + 1)) (Reading.statement (n + 1)) := by
  refine .after fun t => ?_
  cases t.kind
  case kwFor => exact .after fun _ => ih.forStatement
  case kwIf =>
    refine .after fun _ => .after fun _ => ih.assignment.bind fun test => .after fun _ => ?_
    refine ih.statement.bind fun yes => .optional _ ih.statement fun no => ?_
    cases no with
    | none => exact .result rfl (List.append_nil _).symm
    | some no => exact .result rfl (List.append_assoc _ _ _).symm
  case kwWhile =>
    refine .after fun _ => .after fun _ => ih.assignment.bind fun test => .after fun _ => ?_
    exact ih.statement.bind fun body => .result rfl rfl
  case kwReturn =>
    refine .after fun _ => (Follows.unlessAt _ ih.assignment).bind fun value => .after fun _ => ?_
    cases value <;> exact .result rfl rfl
  case leftBrace =>
    exact .after fun _ => ih.block.bind fun body => .result rfl rfl
  case kwPrint =>
    refine .after fun _ => ih.assignment.bind fun e => ?_
    exact .after fun _ => .result rfl rfl
  all_goals exact ih.expressionStatement

end FollowsOn

/-- **Every drawing follows the reading of its name**, by induction on the fuel. -/
theorem followsOn (n : Nat) : FollowsOn n := by
  induction n with
  | zero => constructor <;> intros <;> exact .outOfFuel
  | succ n ih =>
    exact ⟨ih.assignment_succ, ih.operators_succ, ih.operatorsAfter_succ, ih.unary_succ,
      ih.suffixes_succ, ih.arguments_succ, ih.primary_succ, ih.routine_succ, ih.block_succ,
      ih.declaration_succ, ih.declared_succ, ih.classDeclared_succ, ih.methods_succ,
      ih.named_succ, ih.variableDeclared_succ, ih.expressionStatement_succ, ih.forStatement_succ,
      ih.statement_succ⟩

/-! ## Programs and lines -/

theorem program_follows (n : Nat) : Follows [] (Drawing.program n) (Reading.program n) := by
  induction n with
  | zero => exact .outOfFuel
  | succ n ih =>
    refine .get fun c _ => ?_
    dsimp only
    split
    · exact .result rfl rfl
    · refine (followsOn n).declaration.bind fun s => ih.bind fun ss => ?_
      cases s <;> exact .result rfl rfl

theorem line_follows (n : Nat) : Follows [] (Drawing.line n) (Reading.line n) := by
  induction n with
  | zero => exact .outOfFuel
  | succ n ih =>
    refine .get fun c _ => ?_
    dsimp only
    split
    · exact .result rfl rfl
    · split
      case' isTrue =>
        refine .bind (.result (b := none) rfl rfl) fun e => ?_
      case' isFalse =>
        rw [Reading.trailing?_eq]
        refine (followsOn n).assignment.attempted.bind fun e => ?_
      all_goals
        cases e with
        | some e => exact .result rfl (List.append_nil _)
        | none =>
          refine (followsOn n).declaration.bind fun s => ih.bind fun more => ?_
          cases s with
          | none => exact .result rfl rfl
          | some s => exact .result rfl (List.append_assoc _ _ _)

/-- What is drawn from all tokens is what is read from them, with different numbers. -/
theorem Follows.run {α β : Type} [Numbered β α] {d : Nat → Drawing β} {r : Nat → Reading α}
    (h : ∀ n, Follows [] (d n) (r n)) (tokens : List Token) (next : Nat) :
    next ≤ (run d tokens next).2 ∧
      (run d tokens next).1.map bare = Reading.run r tokens ∧
      ∀ b, (run d tokens next).1 = .ok b →
        (marks b).Nodup ∧ ∀ k ∈ marks b, next ≤ k ∧ k < (run d tokens next).2 := by
  unfold Drawing.run Reading.run
  have h := h (Reading.fuelFor tokens) (.start tokens) next
  generalize r (Reading.fuelFor tokens) (.start tokens) = x,
    d (Reading.fuelFor tokens) (.start tokens, next) = y at h
  cases h with
  | @ok b c hi hle hb =>
    dsimp only
    split_ifs
    · exact ⟨hle, rfl, fun _ h => by cases h; exact hb.nodup⟩
    · exact ⟨hle, rfl, nofun⟩
  | @error stop c hi hle =>
    cases stop with
    | error e => exact ⟨hle, rfl, nofun⟩
    | outOfFuel => exact ⟨hle, rfl, nofun⟩

end Drawing

namespace Style

variable (style : Style) (tokens : List Token) (next : Nat)

open Drawing (Follows program_follows line_follows)

/-- No number is given back. -/
theorem le_draw : next ≤ (style.draw tokens next).2 := by
  cases style with
  | program => exact (Follows.run program_follows tokens next).1
  | interactive => exact (Follows.run line_follows tokens next).1

/-- **What is drawn is what is read**, but for the numbers. -/
theorem draw_bare : (style.draw tokens next).1.map (Line.map fun _ => ()) = style.read tokens := by
  cases style with
  | program =>
    have h := (Follows.run program_follows tokens next).2.1
    change ((Drawing.run Drawing.program tokens next).1.map (Line.mk · none)).map _ =
      (Reading.run Reading.program tokens).map _
    rw [← h]
    cases (Drawing.run Drawing.program tokens next).1 <;> rfl
  | interactive => exact (Follows.run line_follows tokens next).2.1

/-- **The sites of a drawn line bear different numbers**, all of them drawn while it is read. -/
theorem marks_draw {line : Line Nat} (h : (style.draw tokens next).1 = .ok line) :
    line.marks.Nodup ∧ ∀ k ∈ line.marks, next ≤ k ∧ k < (style.draw tokens next).2 := by
  cases style with
  | program =>
    change (Drawing.run Drawing.program tokens next).1.map (Line.mk · none) = _ at h
    cases hss : (Drawing.run Drawing.program tokens next).1 with
    | error es => rw [hss] at h; cases h
    | ok ss =>
      rw [hss] at h
      cases h
      have hmarks := (Follows.run program_follows tokens next).2.2 ss hss
      rwa [← List.append_nil (marks ss)] at hmarks
  | interactive => exact (Follows.run line_follows tokens next).2.2 line h

/-- The reading as an expression and the variable on the left draw numbers that no site has. -/
example : (Style.interactive.draw (Token.scan "a = b;") 0).1.map Line.marks = .ok [5, 4] := by cbv

end Style

end LoxLang
