import LoxLang.Proofs.Run.Tables
import LoxLang.Value
import Mathlib.Tactic.Common

/-!
# Values with related code

A program cannot look into the code of its functions. Two values that differ in nothing but the
routines in them are the same to it: they are as true as each other, print the same text and equal
the same values, the operators fail for them alike and make related values of them, and calls of
them take as many arguments. The relation between the routines of functions and that between those
of methods are parameters; the routines only have to agree in what a program can see
(`Routine.Sees`).
-/

namespace LoxLang

variable {F M F' M' : Routine → Routine → Prop}

/-- Classes with related methods. -/
inductive Class.Related (M : Routine → Routine → Prop) : Class → Class → Prop
  | base {identity : Nat} {name : String} {methods methods' : Table Routine} :
      methods.Rel M methods' → Related M ⟨identity, name, none, methods⟩
        ⟨identity, name, none, methods'⟩
  | derived {identity : Nat} {name : String} {c c' : Class} {methods methods' : Table Routine} :
      Related M c c' → methods.Rel M methods' →
      Related M ⟨identity, name, some c, methods⟩ ⟨identity, name, some c', methods'⟩

/-- Values with related routines: `F` relates functions, `M` methods. -/
inductive Value.Related (F M : Routine → Routine → Prop) : Value → Value → Prop
  | nil : Related F M .nil .nil
  | bool (b : Bool) : Related F M (.bool b) (.bool b)
  | number (n : Float) : Related F M (.number n) (.number n)
  | string (s : String) : Related F M (.string s) (.string s)
  | clock : Related F M .clock .clock
  | function (identity : Nat) {r r' : Routine} : F r r' →
      Related F M (.function identity r) (.function identity r')
  | cls {c c' : Class} : c.Related M c' → Related F M (.cls c) (.cls c')
  | object (address : Nat) {c c' : Class} : c.Related M c' →
      Related F M (.object ⟨address, c⟩) (.object ⟨address, c'⟩)

/-- Things to call with related routines. -/
inductive Callee.Related (F M : Routine → Routine → Prop) : Callee → Callee → Prop
  | clock : Related F M .clock .clock
  | routine {r r' : Routine} : F r r' → Related F M (.routine r) (.routine r')
  | construct {c c' : Class} : c.Related M c' → Related F M (.construct c) (.construct c')

/-- Results of operations: two values that are related by `V`, or one failure. -/
inductive Value.SameResult (V : Value → Value → Prop) :
    Except RuntimeCause Value → Except RuntimeCause Value → Prop
  | ok {v v' : Value} : V v v' → SameResult V (.ok v) (.ok v')
  | error (cause : RuntimeCause) : SameResult V (.error cause) (.error cause)

/-- What a program can see of a routine. -/
structure Routine.Sees (r r' : Routine) : Prop where
  name : r'.name = r.name
  arity : r'.params.length = r.params.length

/-! ## Classes -/

namespace Class.Related

variable {c c' : Class}

theorem mono (h : c.Related M c') (hM : ∀ r r', M r r' → M' r r') : c.Related M' c' := by
  induction h with
  | base hm => exact .base (hm.mono hM)
  | derived _ hm ih => exact .derived ih (hm.mono hM)

theorem identity (h : c.Related M c') : c'.identity = c.identity := by cases h <;> rfl

theorem name (h : c.Related M c') : c'.name = c.name := by cases h <;> rfl

/-- Related classes have related methods. -/
theorem method? (h : c.Related M c') (name : String) :
    Option.Rel M (c.method? name) (c'.method? name) := by
  induction h with
  | base hm => exact hm name
  | @derived _ _ c c' methods methods' _ hm ih =>
    have hn := hm name
    unfold Class.method?
    generalize methods.find? name = o at hn ⊢
    generalize methods'.find? name = o' at hn ⊢
    cases hn with
    | some hr => exact .some hr
    | none => exact ih

end Class.Related

/-! ## Values -/

namespace Value.Related

variable {a a' b b' v v' : Value}

theorem mono (h : v.Related F M v') (hF : ∀ r r', F r r' → F' r r')
    (hM : ∀ r r', M r r' → M' r r') : v.Related F' M' v' := by
  cases h with
  | nil => exact .nil
  | bool b => exact .bool b
  | number n => exact .number n
  | string s => exact .string s
  | clock => exact .clock
  | function identity hr => exact .function identity (hF _ _ hr)
  | cls hc => exact .cls (hc.mono hM)
  | object address hc => exact .object address (hc.mono hM)

theorem isTruthy (h : v.Related F M v') : v'.isTruthy = v.isTruthy := by
  cases h <;> rfl

theorem equals (ha : a.Related F M a') (hb : b.Related F M b') : a'.equals b' = a.equals b := by
  cases ha <;> cases hb <;> try rfl
  next hc _ _ hd => rw [Value.equals, Value.equals, hc.identity, hd.identity]

theorem text (h : v.Related F M v') (hF : ∀ r r', F r r' → r.Sees r') : v'.text = v.text := by
  cases h with
  | nil | number | string | clock => rfl
  | bool b => rfl
  | @function identity r r' hr =>
    have hn := (hF _ _ hr).name
    obtain ⟨name, _, _, _, _⟩ := r
    obtain ⟨name', _, _, _, _⟩ := r'
    cases hn
    cases name <;> rfl
  | cls hc => exact hc.name
  | object address hc => exact congrArg (· ++ " instance") hc.name

theorem ofLiteral (l : Literal) : (Value.ofLiteral l).Related F M (.ofLiteral l) := by
  cases l with
  | number n => exact .number n
  | string s => exact .string s
  | true => exact .bool _
  | false => exact .bool _
  | nil => exact .nil

theorem unary_self (op : Kind) (v : Value) :
    SameResult (Related F M) (v.unary op) (v.unary op) := by
  unfold Value.unary
  split
  · exact .ok (.number _)
  · exact .error _
  · exact .ok (.bool _)
  · exact .error _

theorem unary (op : Kind) (h : v.Related F M v') :
    SameResult (Related F M) (v.unary op) (v'.unary op) := by
  have hop : v'.unary op = v.unary op := by
    cases h with
    | nil | bool | number | string | clock => rfl
    | function | cls | object => cases op <;> rfl
  rw [hop]
  exact unary_self op v

theorem add (ha : a.Related F M a') (hb : b.Related F M b') :
    SameResult (Related F M) (a.add b) (a'.add b') := by
  cases ha <;> cases hb <;>
    first
    | exact .error _
    | exact .ok (.number _)
    | exact .ok (.string _)

theorem arithmetic (op : Kind) (x y : Float) :
    SameResult (Related F M) (Value.arithmetic op x y) (Value.arithmetic op x y) := by
  unfold Value.arithmetic
  split
  case h_3 =>
    split
    · exact .error _
    · exact .ok (.number _)
  all_goals
    first
    | exact .error _
    | exact .ok (.number _)
    | exact .ok (.bool _)

theorem binary (op : Kind) (ha : a.Related F M a') (hb : b.Related F M b') :
    SameResult (Related F M) (Value.binary op a b) (Value.binary op a' b') := by
  unfold Value.binary
  split
  · rw [ha.equals hb]
    exact .ok (.bool _)
  · rw [ha.equals hb]
    exact .ok (.bool _)
  · exact ha.add hb
  · next heq hne hplus =>
    cases ha
    cases hb
    split
    · exact (heq rfl).elim
    · exact (hne rfl).elim
    · exact (hplus rfl).elim
    · next h₁ h₂ => cases h₁; cases h₂; exact arithmetic _ _ _
    · next h => exact (h _ _ rfl rfl).elim
  · next heq hne hplus hnumbers =>
    split
    · exact (heq rfl).elim
    · exact (hne rfl).elim
    · exact (hplus rfl).elim
    · cases ha
      cases hb
      exact (hnumbers _ _ rfl rfl).elim
    · exact .error _

theorem callee? (h : v.Related F M v') :
    Option.Rel (Callee.Related F M) v.callee? v'.callee? := by
  cases h with
  | nil | bool | number | string | object => exact .none
  | clock => exact .some .clock
  | function identity hr => exact .some (.routine hr)
  | cls hc => exact .some (.construct hc)

end Value.Related

/-! ## Calls -/

namespace Callee.Related

variable {f f' : Callee}

theorem mono (h : f.Related F M f') (hF : ∀ r r', F r r' → F' r r')
    (hM : ∀ r r', M r r' → M' r r') : f.Related F' M' f' := by
  cases h with
  | clock => exact .clock
  | routine hr => exact .routine (hF _ _ hr)
  | construct hc => exact .construct (hc.mono hM)

theorem arity (h : f.Related F M f') (hF : ∀ r r', F r r' → r.Sees r')
    (hM : ∀ r r', M r r' → r.Sees r') : f'.arity = f.arity := by
  cases h with
  | clock => rfl
  | routine hr => exact (hF _ _ hr).arity
  | @construct c c' hc =>
    have hm := hc.method? initName
    simp only [Callee.arity]
    generalize c.method? initName = o at hm ⊢
    generalize c'.method? initName = o' at hm ⊢
    cases hm with
    | some hr => exact (hM _ _ hr).arity
    | none => rfl

end Callee.Related

end LoxLang
