/-!
# Tables of names

A `Table` maps names to values. It keeps one entry for each name, in the order in which the names
first came in.
-/

namespace LoxLang

/-- A finite map from names. -/
structure Table (α : Type) where
  entries : List (String × α)

namespace Table

variable {α : Type}

/-- The table without entries. -/
def empty : Table α := ⟨[]⟩

/-- The table with one entry. -/
def single (name : String) (value : α) : Table α := ⟨[(name, value)]⟩

/-- The value of a name among entries. -/
def findIn (name : String) : List (String × α) → Option α
  | [] => none
  | (key, value) :: rest => if key = name then some value else findIn name rest

/-- Entries with the value of a name replaced, or put at the end if the name is new. -/
def insertIn (name : String) (value : α) : List (String × α) → List (String × α)
  | [] => [(name, value)]
  | entry :: rest =>
    if entry.1 = name then (name, value) :: rest else entry :: insertIn name value rest

/-- The value of a name. -/
def find? (t : Table α) (name : String) : Option α := findIn name t.entries

/-- Whether a name has a value. -/
def contains (t : Table α) (name : String) : Bool := (t.find? name).isSome

/-- Gives a name a value, whether it had one or not. -/
def insert (t : Table α) (name : String) (value : α) : Table α :=
  ⟨insertIn name value t.entries⟩

@[simp] theorem find?_empty (name : String) : (empty : Table α).find? name = none := rfl

theorem findIn_insertIn (name key : String) (value : α) (entries : List (String × α)) :
    findIn name (insertIn key value entries) =
      if key = name then some value else findIn name entries := by
  induction entries with
  | nil => rfl
  | cons entry rest ih =>
    obtain ⟨k, v⟩ := entry
    by_cases h : k = key
    · subst h
      simp only [insertIn, ↓reduceIte, findIn]
      split <;> rfl
    · by_cases hk : k = name
      · subst hk
        simp [insertIn, findIn, h, Ne.symm h]
      · simp [insertIn, findIn, h, hk, ih]

/-- Insertion changes the value of the inserted name only. -/
theorem find?_insert (t : Table α) (name key : String) (value : α) :
    (t.insert key value).find? name = if key = name then some value else t.find? name :=
  findIn_insertIn name key value t.entries

end Table

end LoxLang
