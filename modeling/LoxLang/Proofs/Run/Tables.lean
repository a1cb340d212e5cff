import LoxLang.Table
import Mathlib.Data.Option.Basic

/-!
# Tables and arrays with related values

Two tables are related by a relation between values if every name has related values in them, or
none in both. The relation is kept when a name gets related values. Arrays are related element by
element, so they are of one size, and a change of one element or a new one at the end keeps them
related.
-/

/-- Options that are related are related by any weaker relation. -/
theorem Option.Rel.mono {α β : Type} {R S : α → β → Prop} {o : Option α} {o' : Option β}
    (h : Option.Rel R o o') (hRS : ∀ a b, R a b → S a b) : Option.Rel S o o' := by
  cases h with
  | some hab => exact .some (hRS _ _ hab)
  | none => exact .none

namespace LoxLang

/-- Tables whose values are related name by name. -/
def Table.Rel {α β : Type} (R : α → β → Prop) (t : Table α) (t' : Table β) : Prop :=
  ∀ name, Option.Rel R (t.find? name) (t'.find? name)

namespace Table.Rel

variable {α β : Type} {R S : α → β → Prop} {t : Table α} {t' : Table β}

theorem empty : Rel R .empty .empty := fun _ => .none

theorem insert (h : Rel R t t') (name : String) {a : α} {b : β} (hab : R a b) :
    Rel R (t.insert name a) (t'.insert name b) := by
  intro x
  rw [find?_insert, find?_insert]
  split
  · exact .some hab
  · exact h x

theorem single (name : String) {a : α} {b : β} (hab : R a b) :
    Rel R (.single name a) (.single name b) :=
  empty.insert name hab

theorem mono (h : Rel R t t') (hRS : ∀ a b, R a b → S a b) : Rel S t t' :=
  fun x => (h x).mono hRS

end Table.Rel

/-! ## Lists and arrays -/

section

variable {α β : Type} {R : α → β → Prop} {xs : Array α} {ys : Array β}

/-- A longer list has the elements of its beginning. -/
theorem getElem?_of_extends {l l' : List α} (h : l <+: l') {i : Nat} {a : α} (hi : l[i]? = some a) :
    l'[i]? = some a := by
  obtain ⟨t, rfl⟩ := h
  rw [List.getElem?_append_left (List.getElem?_eq_some_iff.1 hi).1, hi]

theorem size_eq_of_rel (h : ∀ i : Nat, Option.Rel R xs[i]? ys[i]?) : ys.size = xs.size := by
  have hx := h xs.size
  have hy := h ys.size
  rw [Array.getElem?_eq_none (Nat.le_refl xs.size)] at hx
  rw [Array.getElem?_eq_none (Nat.le_refl ys.size)] at hy
  generalize ho : ys[xs.size]? = o at hx
  generalize ho' : xs[ys.size]? = o' at hy
  cases hx
  cases hy
  exact Nat.le_antisymm (Array.getElem?_eq_none_iff.1 ho) (Array.getElem?_eq_none_iff.1 ho')

theorem rel_push (h : ∀ i : Nat, Option.Rel R xs[i]? ys[i]?) {a : α} {b : β} (hab : R a b)
    (i : Nat) : Option.Rel R (xs.push a)[i]? (ys.push b)[i]? := by
  rw [Array.getElem?_push, Array.getElem?_push, size_eq_of_rel h]
  split
  · exact .some hab
  · exact h i

theorem rel_modify (h : ∀ i : Nat, Option.Rel R xs[i]? ys[i]?) (k : Nat) {f : α → α} {g : β → β}
    (hfg : ∀ a b, R a b → R (f a) (g b)) (i : Nat) :
    Option.Rel R (xs.modify k f)[i]? (ys.modify k g)[i]? := by
  have hi := h i
  rw [Array.getElem?_modify, Array.getElem?_modify]
  split
  · generalize xs[i]? = o at hi ⊢
    generalize ys[i]? = o' at hi ⊢
    cases hi with
    | some hab => exact .some (hfg _ _ hab)
    | none => exact .none
  · exact hi

end

/-- What a name has in related tables of two arrays. -/
theorem Table.Rel.bind_find? {α β : Type} {R : α → β → Prop} {o : Option (Table α)}
    {o' : Option (Table β)} (h : Option.Rel (Table.Rel R) o o') (name : String) :
    Option.Rel R (o.bind (·.find? name)) (o'.bind (·.find? name)) := by
  cases h with
  | some ht => exact ht name
  | none => exact .none

end LoxLang
