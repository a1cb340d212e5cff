import LoxLang.Proofs.Run.Tables
import LoxLang.Proofs.Scope.Context

/-!
# Renaming local variables

A `Renaming` replaces one name by another in chosen scopes: in the declaration of the variable or
parameter that has the name there, and at the sites that are bound to it. Which sites those are is
told by their distances, and a scope is told by the way to it from the root of the tree
(`Choice`). A scope in which the name is that of a function or a class is left alone, since such a
name shows when it is printed; so are properties, methods and the names that stand for the receiver
and the superclass.

The tree keeps its shape and the marks of its sites (`Stmt.labelAll_rename`).
-/

namespace LoxLang

variable {σ τ : Type}

/-- A name to be replaced, and the name that replaces it. Neither is a name under which methods see
their receiver or the superclass. -/
structure Renaming where
  old : String
  new : String
  old_ne_this : old ≠ thisName
  old_ne_super : old ≠ superName
  new_ne_this : new ≠ thisName
  new_ne_super : new ≠ superName

/-- For the scopes around a point of the text, from the innermost out, whether the name is replaced
in them. Outside of all scopes it is not. -/
abbrev Flags := List Bool

/-- Whether the name is replaced in the innermost scope. -/
def Flags.here (δ : Flags) : Bool := δ.headD false

/-- Whether the name is replaced in the scope at a distance; globals keep their names. -/
def Flags.there (δ : Flags) : Option Nat → Bool
  | some d => δ.getD d false
  | none => false

/-- The scopes in which a name is to be replaced. A scope is told by the way that leads to it from
the root: wherever the tree forks, the number of the part to go to. -/
abbrev Choice := List Nat → Bool

/-- The choice in one part of a tree that forks. -/
def Choice.part (c : Choice) (i : Nat) : Choice := fun way => c (i :: way)

/-- The names of the functions and classes that a statement declares in the scope it stands in. -/
def Stmt.routines : Stmt σ → List String
  | .function name _ _ | .classDecl name _ _ => [name.lexeme]
  | .cond _ yes none => yes.routines
  | .cond _ yes (some no) => yes.routines ++ no.routines
  | .loop _ body => body.routines
  | .var _ _ | .expression _ | .print _ | .block _ | .ret _ _ => []

/-- The names of the functions and classes that statements declare in the scope they stand in. -/
def Stmt.routinesAll (ss : List (Stmt σ)) : List String := ss.flatMap Stmt.routines

namespace Renaming

/-- The name of a variable, in a scope where the name is replaced and in one where it is not. -/
def name (ρ : Renaming) (picked : Bool) (s : String) : String :=
  if picked ∧ s = ρ.old then ρ.new else s

variable {ρ : Renaming} {picked : Bool} {s t : String}

@[simp] theorem name_false (ρ : Renaming) (s : String) : ρ.name false s = s := rfl

theorem name_of_ne (h : s ≠ ρ.old) : ρ.name picked s = s := if_neg fun hs => h hs.2

@[simp] theorem name_thisName (ρ : Renaming) (picked : Bool) : ρ.name picked thisName = thisName :=
  name_of_ne ρ.old_ne_this.symm

@[simp] theorem name_superName (ρ : Renaming) (picked : Bool) :
    ρ.name picked superName = superName :=
  name_of_ne ρ.old_ne_super.symm

/-- Different names stay different. -/
theorem name_inj (hs : s ≠ ρ.new) (ht : t ≠ ρ.new) : ρ.name picked s = ρ.name picked t ↔ s = t := by
  unfold name
  constructor
  · intro h
    split at h <;> split at h
    · next hs' ht' => exact hs'.2.trans ht'.2.symm
    · exact absurd h.symm ht
    · exact absurd h hs
    · exact h
  · exact fun h => h ▸ rfl

/-- A scope has the old name or the new one, but not both. -/
theorem name_ne (hs : s ≠ ρ.new) : ρ.name picked s ≠ ρ.name (!picked) ρ.old := by
  unfold name
  cases picked with
  | false => simpa using hs
  | true =>
    by_cases h : s = ρ.old
    · simpa [h] using fun h' : ρ.new = ρ.old => hs (h.trans h'.symm)
    · simp [h]

/-- A name that has nothing to do with the renaming is the same everywhere; the old one is
replaced or not. -/
theorem name_eq_or (ρ : Renaming) (picked other : Bool) (s : String) :
    ρ.name other s = ρ.name picked s ∨ ρ.name other s = ρ.name (!picked) ρ.old := by
  by_cases h : s = ρ.old
  · subst h
    cases other <;> cases picked <;> simp
  · exact .inl ((name_of_ne h).trans (name_of_ne h).symm)

/-- The token of a variable. -/
def token (ρ : Renaming) (picked : Bool) (t : Token) : Token :=
  { t with lexeme := ρ.name picked t.lexeme }

/-- A site, which has the name of the scope it is bound to. -/
def site (ρ : Renaming) (g : Nat → Option Nat) (δ : Flags) (s : Site Nat) : Site Nat :=
  ⟨s.mark, ρ.token (δ.there (g s.mark)) s.name⟩

/-- Whether the name is replaced in the scope of statements. -/
def picks (ρ : Renaming) (c : Choice) (ss : List (Stmt Nat)) : Bool :=
  c [] && !(Stmt.routinesAll ss).contains ρ.old

/-- Where the name is replaced it is not that of a function or a class. -/
theorem not_mem_routines {c : Choice} {ss : List (Stmt Nat)} (h : ρ.picks c ss = true) :
    ρ.old ∉ Stmt.routinesAll ss := by
  have h := (Bool.and_eq_true_iff.1 h).2
  simpa using h

end Renaming

section

variable (ρ : Renaming) (g : Nat → Option Nat)

mutual

/-- The expression with the name replaced in the chosen scopes; `g` gives the distances of the
sites. -/
def Expr.rename (δ : Flags) (c : Choice) : Expr Nat → Expr Nat
  | .literal v => .literal v
  | .group e => .group (e.rename δ c)
  | .unary op e => .unary op (e.rename δ c)
  | .binary op a b => .binary op (a.rename δ (c.part 0)) (b.rename δ (c.part 1))
  | .logical op a b => .logical op (a.rename δ (c.part 0)) (b.rename δ (c.part 1))
  | .ref s => .ref (ρ.site g δ s)
  | .assign s e => .assign (ρ.site g δ s) (e.rename δ c)
  | .call e paren args => .call (e.rename δ (c.part 0)) paren (Expr.renameAll δ (c.part 1) args)
  | .get e name => .get (e.rename δ c) name
  | .set e name v => .set (e.rename δ (c.part 0)) name (v.rename δ (c.part 1))
  | .this s => .this (ρ.site g δ s)
  | .super s m => .super (ρ.site g δ s) m
  | .lambda params body =>
    .lambda (params.map (ρ.token (ρ.picks c body))) (Stmt.renameAll (ρ.picks c body :: δ) c body)

/-- The expressions with the name replaced. -/
def Expr.renameAll (δ : Flags) (c : Choice) : List (Expr Nat) → List (Expr Nat)
  | [] => []
  | e :: es => e.rename δ (c.part 0) :: Expr.renameAll δ (c.part 1) es

/-- The statement with the name replaced. -/
def Stmt.rename (δ : Flags) (c : Choice) : Stmt Nat → Stmt Nat
  | .expression e => .expression (e.rename δ c)
  | .print e => .print (e.rename δ c)
  | .var name none => .var (ρ.token δ.here name) none
  | .var name (some e) => .var (ρ.token δ.here name) (some (e.rename δ c))
  | .block body => .block (Stmt.renameAll (ρ.picks c body :: δ) c body)
  | .cond e yes none => .cond (e.rename δ (c.part 0)) (yes.rename δ (c.part 1)) none
  | .cond e yes (some no) =>
    .cond (e.rename δ (c.part 0)) (yes.rename δ (c.part 1)) (some (no.rename δ (c.part 2)))
  | .loop e body => .loop (e.rename δ (c.part 0)) (body.rename δ (c.part 1))
  | .function name params body =>
    .function name (params.map (ρ.token (ρ.picks c body)))
      (Stmt.renameAll (ρ.picks c body :: δ) c body)
  | .ret keyword none => .ret keyword none
  | .ret keyword (some e) => .ret keyword (some (e.rename δ c))
  | .classDecl name none methods => .classDecl name none (Method.renameAll (false :: δ) c methods)
  | .classDecl name (some s) methods =>
    .classDecl name (some (ρ.site g δ s)) (Method.renameAll (false :: false :: δ) c methods)

/-- The statements of one scope with the name replaced. -/
def Stmt.renameAll (δ : Flags) (c : Choice) : List (Stmt Nat) → List (Stmt Nat)
  | [] => []
  | s :: ss => s.rename δ (c.part 0) :: Stmt.renameAll δ (c.part 1) ss

/-- The methods of a class with the name replaced. -/
def Method.renameAll (δ : Flags) (c : Choice) : List (Method Nat) → List (Method Nat)
  | [] => []
  | .mk name params body :: ms =>
    .mk name (params.map (ρ.token (ρ.picks (c.part 0) body)))
      (Stmt.renameAll (ρ.picks (c.part 0) body :: δ) (c.part 0) body) ::
        Method.renameAll δ (c.part 1) ms

end

end

/-! ## Names that do not occur -/

mutual

/-- No variable, parameter, function or class in the expression has the name. -/
def Expr.Lacks (x : String) : Expr σ → Prop
  | .literal _ => True
  | .group e | .unary _ e | .get e _ => e.Lacks x
  | .binary _ a b | .logical _ a b | .set a _ b => a.Lacks x ∧ b.Lacks x
  | .ref s | .this s | .super s _ => s.name.lexeme ≠ x
  | .assign s e => s.name.lexeme ≠ x ∧ e.Lacks x
  | .call e _ args => e.Lacks x ∧ Expr.LacksAll x args
  | .lambda params body => (∀ p ∈ params, p.lexeme ≠ x) ∧ Stmt.LacksAll x body

/-- None in the expressions has the name. -/
def Expr.LacksAll (x : String) : List (Expr σ) → Prop
  | [] => True
  | e :: es => e.Lacks x ∧ Expr.LacksAll x es

/-- None in the statement has the name. -/
def Stmt.Lacks (x : String) : Stmt σ → Prop
  | .expression e | .print e | .ret _ (some e) => e.Lacks x
  | .var name none => name.lexeme ≠ x
  | .var name (some e) => name.lexeme ≠ x ∧ e.Lacks x
  | .block body => Stmt.LacksAll x body
  | .cond e yes none => e.Lacks x ∧ yes.Lacks x
  | .cond e yes (some no) => e.Lacks x ∧ yes.Lacks x ∧ no.Lacks x
  | .loop e body => e.Lacks x ∧ body.Lacks x
  | .function name params body =>
    name.lexeme ≠ x ∧ (∀ p ∈ params, p.lexeme ≠ x) ∧ Stmt.LacksAll x body
  | .ret _ none => True
  | .classDecl name none methods => name.lexeme ≠ x ∧ Method.LacksAll x methods
  | .classDecl name (some s) methods =>
    name.lexeme ≠ x ∧ s.name.lexeme ≠ x ∧ Method.LacksAll x methods

/-- None in the statements has the name. -/
def Stmt.LacksAll (x : String) : List (Stmt σ) → Prop
  | [] => True
  | s :: ss => s.Lacks x ∧ Stmt.LacksAll x ss

/-- None in the methods has the name. -/
def Method.LacksAll (x : String) : List (Method σ) → Prop
  | [] => True
  | .mk _ params body :: ms =>
    (∀ p ∈ params, p.lexeme ≠ x) ∧ Stmt.LacksAll x body ∧ Method.LacksAll x ms

end

mutual

/-- Numbering the sites changes no name. -/
theorem Expr.lacks_label {x : String} : ∀ (e : Expr σ) (n : Nat), e.Lacks x → (e.label n).1.Lacks x
  | .literal _, _, h | .ref _, _, h | .this _, _, h | .super _ _, _, h => h
  | .group e, n, h | .unary _ e, n, h | .get e _, n, h => e.lacks_label n h
  | .binary _ a b, n, h | .logical _ a b, n, h | .set a _ b, n, h =>
    ⟨a.lacks_label n h.1, b.lacks_label _ h.2⟩
  | .assign _ e, _, h => ⟨h.1, e.lacks_label _ h.2⟩
  | .call e _ args, n, h => ⟨e.lacks_label n h.1, Expr.lacksAll_label args _ h.2⟩
  | .lambda _ body, n, h => ⟨h.1, Stmt.lacksAll_label body n h.2⟩

theorem Expr.lacksAll_label {x : String} : ∀ (es : List (Expr σ)) (n : Nat), Expr.LacksAll x es →
    Expr.LacksAll x (Expr.labelAll es n).1
  | [], _, h => h
  | e :: es, n, h => ⟨e.lacks_label n h.1, Expr.lacksAll_label es _ h.2⟩

theorem Stmt.lacks_label {x : String} : ∀ (s : Stmt σ) (n : Nat), s.Lacks x → (s.label n).1.Lacks x
  | .expression e, n, h | .print e, n, h | .ret _ (some e), n, h => e.lacks_label n h
  | .var _ none, _, h | .ret _ none, _, h => h
  | .var _ (some e), n, h => ⟨h.1, e.lacks_label n h.2⟩
  | .block body, n, h => Stmt.lacksAll_label body n h
  | .cond e yes none, n, h => ⟨e.lacks_label n h.1, yes.lacks_label _ h.2⟩
  | .cond e yes (some no), n, h =>
    ⟨e.lacks_label n h.1, yes.lacks_label _ h.2.1, no.lacks_label _ h.2.2⟩
  | .loop e body, n, h => ⟨e.lacks_label n h.1, body.lacks_label _ h.2⟩
  | .function _ _ body, n, h => ⟨h.1, h.2.1, Stmt.lacksAll_label body n h.2.2⟩
  | .classDecl _ none methods, n, h => ⟨h.1, Method.lacksAll_label methods n h.2⟩
  | .classDecl _ (some _) methods, _, h => ⟨h.1, h.2.1, Method.lacksAll_label methods _ h.2.2⟩

theorem Stmt.lacksAll_label {x : String} : ∀ (ss : List (Stmt σ)) (n : Nat), Stmt.LacksAll x ss →
    Stmt.LacksAll x (Stmt.labelAll ss n).1
  | [], _, h => h
  | s :: ss, n, h => ⟨s.lacks_label n h.1, Stmt.lacksAll_label ss _ h.2⟩

theorem Method.lacksAll_label {x : String} : ∀ (ms : List (Method σ)) (n : Nat),
    Method.LacksAll x ms → Method.LacksAll x (Method.labelAll ms n).1
  | [], _, h => h
  | .mk _ _ body :: ms, n, h =>
    ⟨h.1, Stmt.lacksAll_label body n h.2.1, Method.lacksAll_label ms _ h.2.2⟩

end

/-! ## The numbers of the sites -/

section

variable (ρ : Renaming) (g : Nat → Option Nat)

mutual

/-- The sites of the renamed tree have the numbers they get when it is numbered by itself. -/
theorem Expr.label_rename : ∀ (e : Expr σ) (n : Nat) (δ : Flags) (c : Choice),
    ((e.label n).1.rename ρ g δ c).label n = ((e.label n).1.rename ρ g δ c, (e.label n).2)
  | .literal _, _, _, _ | .ref _, _, _, _ | .this _, _, _, _ | .super _ _, _, _, _ => rfl
  | .group e, n, δ, c | .unary _ e, n, δ, c | .get e _, n, δ, c => by
    simp only [Expr.label, Expr.rename, e.label_rename n]
  | .binary _ a b, n, δ, c | .logical _ a b, n, δ, c | .set a _ b, n, δ, c => by
    simp only [Expr.label, Expr.rename, a.label_rename, b.label_rename]
  | .assign s e, n, δ, c => by
    simp only [Expr.label, Expr.rename, Site.label, Renaming.site, e.label_rename]
  | .call e _ args, n, δ, c => by
    simp only [Expr.label, Expr.rename, e.label_rename, Expr.labelAll_rename args]
  | .lambda _ body, n, δ, c => by
    simp only [Expr.label, Expr.rename, Stmt.labelAll_rename body]

theorem Expr.labelAll_rename : ∀ (es : List (Expr σ)) (n : Nat) (δ : Flags) (c : Choice),
    Expr.labelAll (Expr.renameAll ρ g δ c (Expr.labelAll es n).1) n =
      (Expr.renameAll ρ g δ c (Expr.labelAll es n).1, (Expr.labelAll es n).2)
  | [], _, _, _ => rfl
  | e :: es, n, δ, c => by
    simp only [Expr.labelAll, Expr.renameAll, e.label_rename, Expr.labelAll_rename es]

theorem Stmt.label_rename : ∀ (s : Stmt σ) (n : Nat) (δ : Flags) (c : Choice),
    ((s.label n).1.rename ρ g δ c).label n = ((s.label n).1.rename ρ g δ c, (s.label n).2)
  | .expression e, n, δ, c | .print e, n, δ, c | .ret _ (some e), n, δ, c
  | .var _ (some e), n, δ, c => by
    simp only [Stmt.label, Stmt.rename, e.label_rename]
  | .var _ none, _, _, _ | .ret _ none, _, _, _ => rfl
  | .block body, n, δ, c | .function _ _ body, n, δ, c => by
    simp only [Stmt.label, Stmt.rename, Stmt.labelAll_rename body]
  | .cond e yes none, n, δ, c => by
    simp only [Stmt.label, Stmt.rename, e.label_rename, yes.label_rename]
  | .cond e yes (some no), n, δ, c => by
    simp only [Stmt.label, Stmt.rename, e.label_rename, yes.label_rename, no.label_rename]
  | .loop e body, n, δ, c => by
    simp only [Stmt.label, Stmt.rename, e.label_rename, body.label_rename]
  | .classDecl _ none methods, n, δ, c => by
    simp only [Stmt.label, Stmt.rename, Method.labelAll_rename methods]
  | .classDecl _ (some s) methods, n, δ, c => by
    simp only [Stmt.label, Stmt.rename, Site.label, Renaming.site, Method.labelAll_rename methods]

theorem Stmt.labelAll_rename : ∀ (ss : List (Stmt σ)) (n : Nat) (δ : Flags) (c : Choice),
    Stmt.labelAll (Stmt.renameAll ρ g δ c (Stmt.labelAll ss n).1) n =
      (Stmt.renameAll ρ g δ c (Stmt.labelAll ss n).1, (Stmt.labelAll ss n).2)
  | [], _, _, _ => rfl
  | s :: ss, n, δ, c => by
    simp only [Stmt.labelAll, Stmt.renameAll, s.label_rename, Stmt.labelAll_rename ss]

theorem Method.labelAll_rename : ∀ (ms : List (Method σ)) (n : Nat) (δ : Flags) (c : Choice),
    Method.labelAll (Method.renameAll ρ g δ c (Method.labelAll ms n).1) n =
      (Method.renameAll ρ g δ c (Method.labelAll ms n).1, (Method.labelAll ms n).2)
  | [], _, _, _ => rfl
  | .mk _ _ body :: ms, n, δ, c => by
    simp only [Method.labelAll, Method.renameAll, Stmt.labelAll_rename body,
      Method.labelAll_rename ms]

end

end

/-! ## Names in tables -/

/-- Two tables with related values, where the second belongs to the renamed tree. -/
def Renaming.Tables {α β : Type} (ρ : Renaming) (picked : Bool) (R : α → β → Prop) (t : Table α)
    (t' : Table β) : Prop :=
  ∀ name ≠ ρ.new, Option.Rel R (t.find? name) (t'.find? (ρ.name picked name))

namespace Renaming.Tables

variable {α β : Type} {ρ : Renaming} {picked : Bool} {R : α → β → Prop} {t : Table α}
  {t' : Table β}

theorem empty : ρ.Tables picked R .empty .empty := fun _ _ => .none

theorem insert (h : ρ.Tables picked R t t') {name : String} (hname : name ≠ ρ.new) {a : α} {b : β}
    (hab : R a b) : ρ.Tables picked R (t.insert name a) (t'.insert (ρ.name picked name) b) := by
  intro x hx
  rw [Table.find?_insert, Table.find?_insert, if_congr (name_inj hname hx) rfl rfl]
  split
  · exact .some hab
  · exact h x hx

end Renaming.Tables

end LoxLang
