/-!
# Insertion-ordered tables

A table is a list of key and value pairs in the order in which the keys first
arrived. JSON objects, node maps and metadata tables all are such tables.

* `Fields.get?` finds the value of a key.
* `Fields.set` overwrites a present key in place and appends a new one.
* `Fields.modify?` and `Fields.update` change a present value; the one fails on an
  absent key, the other leaves the table as it is.
* `Fields.erase` drops a key and keeps the order of the others.
-/

namespace NestedRecord

/-- A table whose keys stay in order of arrival. -/
abbrev Fields (α : Type) := List (String × α)

namespace Fields

variable {α β : Type}

/-- The value of a key, if the table has it. -/
def get? : Fields α → String → Option α
  | [], _ => none
  | (k, v) :: rest, key => if k = key then some v else get? rest key

/-- Writes a value: in place when the key is present, at the end otherwise. -/
def set : Fields α → String → α → Fields α
  | [], key, value => [(key, value)]
  | (k, v) :: rest, key, value =>
    if k = key then (k, value) :: rest else (k, v) :: set rest key value

/-- Changes the value of a present key. -/
def modify? (f : α → Option α) : Fields α → String → Option (Fields α)
  | [], _ => none
  | (k, v) :: rest, key =>
    if k = key then (f v).map fun v => (k, v) :: rest
    else (modify? f rest key).map ((k, v) :: ·)

/-- Changes the value of a key; a table without the key stays as it is. -/
def update (f : α → α) : Fields α → String → Fields α
  | [], _ => []
  | (k, v) :: rest, key => if k = key then (k, f v) :: rest else (k, v) :: update f rest key

/-- Appends to the list under a key. -/
def push (fields : Fields (List α)) (key : String) (value : α) : Fields (List α) :=
  set fields key ((get? fields key).getD [] ++ [value])

/-- Drops a key. -/
def erase (fields : Fields α) (key : String) : Fields α :=
  fields.filter fun field => field.1 ≠ key

/-- Whether the table has the key. -/
def has (fields : Fields α) (key : String) : Bool := (get? fields key).isSome

/-- The keys in order. -/
def keys (fields : Fields α) : List String := fields.map (·.1)

/-- The table of pairs written in order, a repeated key keeping its first place and
its last value. -/
def ofPairs (pairs : List (String × α)) : Fields α :=
  pairs.foldl (fun fields pair => set fields pair.1 pair.2) []

@[simp] theorem get?_nil (key : String) : get? ([] : Fields α) key = none := rfl

@[simp] theorem get?_set_self (fields : Fields α) (key : String) (value : α) :
    get? (set fields key value) key = some value := by
  induction fields with
  | nil => simp [set, get?]
  | cons field rest ih =>
    obtain ⟨k, v⟩ := field
    by_cases h : k = key <;> simp [set, get?, h, ih]

theorem get?_set_of_ne (fields : Fields α) {key other : String} (value : α)
    (h : other ≠ key) : get? (set fields key value) other = get? fields other := by
  induction fields with
  | nil => simp [set, get?, Ne.symm h]
  | cons field rest ih =>
    obtain ⟨k, v⟩ := field
    by_cases hk : k = key
    · subst hk; simp [set, get?, Ne.symm h]
    · by_cases ho : k = other
      · subst ho; simp [set, get?, hk]
      · simp [set, get?, hk, ho, ih]

theorem get?_append (fields fields' : Fields α) (key : String) :
    get? (fields ++ fields') key = (get? fields key).or (get? fields' key) := by
  induction fields with
  | nil => rfl
  | cons field rest ih =>
    obtain ⟨k, v⟩ := field
    by_cases h : k = key <;> simp [get?, h, ih]

theorem mem_of_get? {fields : Fields α} {key : String} {value : α}
    (h : get? fields key = some value) : (key, value) ∈ fields := by
  induction fields with
  | nil => simp at h
  | cons field rest ih =>
    obtain ⟨k, v⟩ := field
    by_cases hk : k = key
    · simp [get?, hk] at h
      simp [hk, h]
    · exact List.mem_cons_of_mem _ (ih (by simpa [get?, hk] using h))

theorem mem_keys_iff_has {fields : Fields α} {key : String} :
    key ∈ keys fields ↔ has fields key = true := by
  induction fields with
  | nil => simp [keys, has]
  | cons field rest ih =>
    obtain ⟨k, v⟩ := field
    rw [keys, has] at ih
    by_cases hk : k = key
    · simp [keys, has, get?, hk]
    · simp [keys, has, get?, hk, Ne.symm hk, ← ih]

/-- Writing a key that is present keeps the keys and their order. -/
theorem keys_set_of_has (fields : Fields α) (key : String) (value : α)
    (h : has fields key = true) : keys (set fields key value) = keys fields := by
  induction fields with
  | nil => simp [has] at h
  | cons field rest ih =>
    obtain ⟨k, v⟩ := field
    by_cases hk : k = key
    · simp [set, keys, hk]
    · have hr : has rest key = true := by simpa [has, get?, hk] using h
      simpa [set, keys, hk] using ih hr

/-- Writing a new key appends it. -/
theorem set_of_not_has (fields : Fields α) (key : String) (value : α)
    (h : has fields key = false) : set fields key value = fields ++ [(key, value)] := by
  induction fields with
  | nil => rfl
  | cons field rest ih =>
    obtain ⟨k, v⟩ := field
    by_cases hk : k = key
    · simp [has, get?, hk] at h
    · have hr : has rest key = false := by simpa [has, get?, hk] using h
      simp [set, hk, ih hr]

end Fields

end NestedRecord
