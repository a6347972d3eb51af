import AssetBridge.Text.Basic

/-!
# Tables

A table maps texts to values and remembers the order in which its keys were first written. Writing
a key again changes its value and leaves it in its place.

## Main definitions

* `Table`, `Table.get?`, `Table.keys`: a table as the list of its entries.
* `Table.insert`, `Table.erase`: writing and removing one entry.
* `Table.ofList`, `Table.insertAll`: writing entries one after the other.
-/

namespace AssetBridge

/-- The entries of a table, in the order in which their keys were first written. -/
abbrev Table (α : Type) := List (Text × α)

namespace Table

variable {α : Type}

/-- The value of a key. -/
def get? (key : Text) : Table α → Option α
  | [] => none
  | (k, v) :: t => if k = key then some v else get? key t

/-- The keys, in order. -/
def keys (t : Table α) : List Text := t.map Prod.fst

/-- Whether a key has a value. -/
def has (key : Text) (t : Table α) : Bool := (t.get? key).isSome

/-- **Writing an entry**: a new key goes to the end, a present one keeps its place. -/
def insert (key : Text) (value : α) : Table α → Table α
  | [] => [(key, value)]
  | (k, v) :: t => if k = key then (key, value) :: t else (k, v) :: insert key value t

/-- Removes the entry of a key. -/
def erase (key : Text) : Table α → Table α
  | [] => []
  | (k, v) :: t => if k = key then erase key t else (k, v) :: erase key t

/-- Writes entries one after the other. -/
def insertAll (t : Table α) (entries : List (Text × α)) : Table α :=
  entries.foldl (fun t (key, value) => t.insert key value) t

/-- The table that a list of entries leaves when they are written in turn. -/
def ofList (entries : List (Text × α)) : Table α := insertAll [] entries

/-- The written value is there, and the other values stay. -/
theorem get?_insert (key key' : Text) (value : α) (t : Table α) :
    (t.insert key value).get? key' = if key = key' then some value else t.get? key' := by
  induction t with
  | nil => simp [insert, get?]
  | cons e t ih =>
    obtain ⟨k, v⟩ := e
    by_cases h : k = key
    · subst h
      by_cases h' : k = key' <;> simp [insert, get?, h']
    · by_cases h' : k = key'
      · subst h'
        simp [insert, get?, h, Ne.symm h]
      · simp [insert, get?, h, h', ih]

/-- A new key goes to the end; a present one moves nothing. -/
theorem keys_insert (key : Text) (value : α) (t : Table α) :
    (t.insert key value).keys = if key ∈ t.keys then t.keys else t.keys ++ [key] := by
  induction t with
  | nil => simp [insert, keys]
  | cons e t ih =>
    obtain ⟨k, v⟩ := e
    by_cases h : k = key
    · subst h
      simp [insert, keys]
    · have hk : key ≠ k := Ne.symm h
      simp only [keys] at ih
      by_cases hm : key ∈ t.map Prod.fst
      · simp [insert, keys, h, ih, hm]
      · simp [insert, keys, h, hk, ih, hm]

theorem mem_keys_insert {key key' : Text} {value : α} {t : Table α} :
    key' ∈ (t.insert key value).keys ↔ key' ∈ t.keys ∨ key' = key := by
  rw [keys_insert]
  by_cases hm : key ∈ t.keys
  · rw [if_pos hm]
    exact ⟨.inl, fun h => h.elim id fun e => e ▸ hm⟩
  · rw [if_neg hm, List.mem_append, List.mem_singleton]

/-- The removed key has no value, and the other values stay. -/
theorem get?_erase (key key' : Text) (t : Table α) :
    (t.erase key).get? key' = if key = key' then none else t.get? key' := by
  induction t with
  | nil => simp [erase, get?]
  | cons e t ih =>
    obtain ⟨k, v⟩ := e
    by_cases h : k = key
    · subst h
      by_cases h' : k = key'
      · simpa [erase, h'] using ih
      · simpa [erase, get?, h'] using ih
    · by_cases h' : k = key'
      · subst h'
        simp [erase, get?, h, Ne.symm h]
      · simp [erase, get?, h, h', ih]

theorem insertAll_append (t : Table α) (a b : List (Text × α)) :
    t.insertAll (a ++ b) = (t.insertAll a).insertAll b := by
  simp [insertAll]

end Table

end AssetBridge
