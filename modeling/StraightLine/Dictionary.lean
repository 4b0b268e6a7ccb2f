/-!
# Dictionaries

A finite map kept as a list of its entries in the order in which the keys first came.  Overwriting a
key keeps its place, so two dictionaries that were filled in the same way are equal as data.

## Main statements

* `Dictionary.get?_insert` — what a look-up finds after an insertion.
* `Dictionary.keys_insert` — insertion only ever adds a key at the end.
-/

namespace StraightLine

/-- A finite map with its keys in order of insertion.  Iteration follows that
order, so what is listed from a dictionary does not depend on how keys compare. -/
structure Dictionary (κ : Type) (α : Type) where
  entries : List (κ × α)
  deriving DecidableEq, Repr

namespace Dictionary

variable {κ α : Type}

/-- The dictionary without entries. -/
def empty : Dictionary κ α := ⟨[]⟩

instance : Inhabited (Dictionary κ α) := ⟨empty⟩

/-- The keys in order of insertion. -/
def keys (d : Dictionary κ α) : List κ := d.entries.map Prod.fst

/-- The number of entries. -/
def size (d : Dictionary κ α) : Nat := d.entries.length

variable [DecidableEq κ]

/-- The value of the first entry with the given key. -/
def find (key : κ) : List (κ × α) → Option α
  | [] => none
  | (k, a) :: rest => if k = key then some a else find key rest

/-- The entries with the value of a key overwritten, or with a new entry at the
end.  A key that is given a new value keeps its place. -/
def put (key : κ) (value : α) : List (κ × α) → List (κ × α)
  | [] => [(key, value)]
  | (k, a) :: rest => if k = key then (k, value) :: rest else (k, a) :: put key value rest

/-- The value of a key. -/
def get? (d : Dictionary κ α) (key : κ) : Option α := find key d.entries

/-- Whether a key has a value. -/
def contains (d : Dictionary κ α) (key : κ) : Bool := (d.get? key).isSome

/-- The dictionary with a value given to a key. -/
def insert (d : Dictionary κ α) (key : κ) (value : α) : Dictionary κ α :=
  ⟨put key value d.entries⟩

@[simp] theorem get?_empty (key : κ) : (empty : Dictionary κ α).get? key = none := rfl

theorem find_put (key key' : κ) (value : α) (entries : List (κ × α)) :
    find key' (put key value entries) = if key = key' then some value else find key' entries := by
  induction entries with
  | nil => simp [put, find]
  | cons entry rest ih =>
    obtain ⟨k, a⟩ := entry
    by_cases hk : k = key <;> by_cases hk' : key = key' <;> simp_all [put, find]

/-- A look-up after an insertion finds the new value under its key and what was
there elsewhere.  It is the one law of look-ups that bindings and indices are
reasoned about with. -/
theorem get?_insert (d : Dictionary κ α) (key key' : κ) (value : α) :
    (d.insert key value).get? key' = if key = key' then some value else d.get? key' :=
  find_put key key' value d.entries

/-- A key has a value exactly if it is listed. -/
theorem mem_keys_iff (d : Dictionary κ α) (key : κ) : key ∈ d.keys ↔ (d.get? key).isSome := by
  obtain ⟨entries⟩ := d
  simp only [keys, get?]
  induction entries with
  | nil => simp [find]
  | cons entry rest ih =>
    obtain ⟨k, a⟩ := entry
    by_cases hk : k = key
    · simp [find, hk]
    · simp [find, hk, Ne.symm hk, ih]

/-- Insertion keeps the keys and their order, and adds a new key at the end. -/
theorem keys_insert (d : Dictionary κ α) (key : κ) (value : α) :
    (d.insert key value).keys = if key ∈ d.keys then d.keys else d.keys ++ [key] := by
  obtain ⟨entries⟩ := d
  simp only [keys, insert]
  induction entries with
  | nil => simp [put]
  | cons entry rest ih =>
    obtain ⟨k, a⟩ := entry
    by_cases hk : k = key
    · simp [put, hk]
    · by_cases hmem : key ∈ rest.map Prod.fst <;>
        simp_all [put, Ne.symm hk]

end Dictionary

end StraightLine
