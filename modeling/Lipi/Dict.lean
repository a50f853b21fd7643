set_option autoImplicit false

/-! # Dictionaries

A dictionary maps names to values. Its entries are kept in the order in which their names were
first inserted. **The view of a dictionary is `get?`**: inserting changes it at one name, and
nowhere else.
-/

namespace Lipi

/-- A finite map from names. -/
structure Dict (β : Type) where
  entries : List (String × β)
deriving Repr, Inhabited

namespace Dict

variable {β : Type}

/-- The dictionary without entries. -/
def empty : Dict β := ⟨[]⟩

/-- The value of a name in a list of entries. -/
def find? (name : String) : List (String × β) → Option β
  | [] => none
  | (key, value) :: rest => if key = name then some value else find? name rest

/-- A list of entries in which a name has a new value. -/
def put (name : String) (value : β) : List (String × β) → List (String × β)
  | [] => [(name, value)]
  | (key, old) :: rest =>
    if key = name then (name, value) :: rest else (key, old) :: put name value rest

/-- The value of a name. -/
def get? (d : Dict β) (name : String) : Option β :=
  find? name d.entries

/-- Whether a name has a value. -/
def contains (d : Dict β) (name : String) : Bool :=
  (d.get? name).isSome

/-- The dictionary in which a name has a new value. -/
def insert (d : Dict β) (name : String) (value : β) : Dict β :=
  ⟨put name value d.entries⟩

/-- The names with a value. -/
def names (d : Dict β) : List String :=
  d.entries.map (·.1)

@[simp] theorem get?_empty (name : String) : (empty : Dict β).get? name = none := rfl

theorem find?_put (name other : String) (value : β) (entries : List (String × β)) :
    find? other (put name value entries) =
      if name = other then some value else find? other entries := by
  induction entries with
  | nil => rfl
  | cons entry rest ih =>
    obtain ⟨key, old⟩ := entry
    by_cases hk : key = name
    · subst hk
      by_cases ho : key = other <;> simp [put, find?, ho]
    · by_cases ho : key = other
      · subst ho
        simp [put, find?, hk, Ne.symm hk]
      · simp [put, find?, hk, ho, ih]

@[simp] theorem get?_insert (d : Dict β) (name other : String) (value : β) :
    (d.insert name value).get? other = if name = other then some value else d.get? other :=
  find?_put name other value d.entries

end Dict

end Lipi
