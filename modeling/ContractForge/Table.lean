/-!
# Tables in insertion order

A table maps keys to values. Its entries stay in the order in which their keys
were first inserted; a later value of a key takes the earlier place. Keys are
names, unless a table says otherwise.
-/

namespace ContractForge

/-- A table from keys to values, in insertion order. -/
abbrev Table (α : Type) (κ : Type := String) := List (κ × α)

namespace Table

variable {α κ : Type}

/-- The keys in insertion order. -/
def names (table : Table α κ) : List κ :=
  table.map Prod.fst

def values (table : Table α κ) : List α :=
  table.map Prod.snd

variable [DecidableEq κ]

def get? (table : Table α κ) (name : κ) : Option α :=
  match table with
  | [] => none
  | (key, value) :: rest => if key = name then some value else get? rest name

def has (table : Table α κ) (name : κ) : Bool :=
  (get? table name).isSome

def put (table : Table α κ) (name : κ) (value : α) : Table α κ :=
  match table with
  | [] => [(name, value)]
  | (key, old) :: rest =>
    if key = name then (name, value) :: rest else (key, old) :: put rest name value

/-- Change the value of a key, or start from a given one. -/
def update (table : Table α κ) (name : κ) (start : α) (change : α → α) : Table α κ :=
  put table name (change ((get? table name).getD start))

theorem get?_put_self (table : Table α κ) (name : κ) (value : α) :
    get? (put table name value) name = some value := by
  induction table with
  | nil => simp [put, get?]
  | cons entry rest ih =>
    obtain ⟨key, old⟩ := entry
    by_cases same : key = name
    · simp [put, get?, same]
    · simp [put, get?, same, ih]

theorem get?_put_of_ne (table : Table α κ) {name other : κ} (value : α)
    (different : other ≠ name) : get? (put table name value) other = get? table other := by
  induction table with
  | nil => simp [put, get?, Ne.symm different]
  | cons entry rest ih =>
    obtain ⟨key, old⟩ := entry
    by_cases same : key = name
    · simp [put, get?, same, Ne.symm different]
    · by_cases found : key = other
      · subst found
        simp [put, get?, different]
      · simp [put, get?, same, found, ih]

theorem isSome_get?_put_iff (table : Table α κ) (name other : κ) (value : α) :
    ((table.put name value).get? other).isSome ↔ other = name ∨ (table.get? other).isSome := by
  by_cases same : other = name
  · simp [same, get?_put_self]
  · simp [same, get?_put_of_ne]

theorem has_iff_mem_names {table : Table α κ} {name : κ} :
    table.has name = true ↔ name ∈ table.names := by
  induction table with
  | nil => simp [has, get?, names]
  | cons entry rest ih =>
    obtain ⟨key, value⟩ := entry
    by_cases same : key = name
    · simp [has, get?, names, same]
    · simpa [has, get?, names, same, Ne.symm same] using ih

end Table

end ContractForge
