/-!
# Maps that remember the order of their keys

`OrderedMap κ α` is a finite map whose keys stand in the order in which they were first inserted. Inserting a key again
replaces its value and leaves its place. That no key stands twice is part of the type. The view of a map is its list of
entries; `get?_insert` and `keys_insert` say what an insertion does to it.
-/

namespace SoftTyping

/-- Put `value` in the place of `key`, or at the end when there is none. -/
def insertEntry {κ α : Type} [DecidableEq κ] (key : κ) (value : α) : List (κ × α) → List (κ × α)
  | [] => [(key, value)]
  | entry :: rest => if entry.1 = key then (key, value) :: rest else entry :: insertEntry key value rest

/-- The value that stands with `key`. -/
def lookupEntry {κ α : Type} [DecidableEq κ] (key : κ) : List (κ × α) → Option α
  | [] => none
  | entry :: rest => if entry.1 = key then some entry.2 else lookupEntry key rest

/-- The keys after an insertion: the same ones, or the new one behind them. -/
theorem map_fst_insertEntry {κ α : Type} [DecidableEq κ] (key : κ) (value : α) (entries : List (κ × α)) :
    (insertEntry key value entries).map Prod.fst =
      if key ∈ entries.map Prod.fst then entries.map Prod.fst else entries.map Prod.fst ++ [key] := by
  induction entries with
  | nil => simp [insertEntry]
  | cons entry rest ih =>
    by_cases h : entry.1 = key
    · simp [insertEntry, h]
    · by_cases hm : key ∈ rest.map Prod.fst
      · rw [if_pos hm] at ih
        simp [insertEntry, h, ih, List.mem_cons, hm]
      · rw [if_neg hm] at ih
        have : key ∉ (entry :: rest).map Prod.fst := by
          simp only [List.map_cons, List.mem_cons, not_or]
          exact ⟨Ne.symm h, hm⟩
        rw [if_neg this]
        simp [insertEntry, h, ih]

/-- An insertion keeps the keys apart. -/
theorem nodup_insertEntry {κ α : Type} [DecidableEq κ] (key : κ) (value : α) {entries : List (κ × α)}
    (h : (entries.map Prod.fst).Nodup) : ((insertEntry key value entries).map Prod.fst).Nodup := by
  rw [map_fst_insertEntry]
  split
  · exact h
  · next hm =>
    refine List.nodup_append.mpr ⟨h, by simp, fun a ha b hb => ?_⟩
    rw [List.mem_singleton.mp hb]
    exact fun he => hm (he ▸ ha)

/-- A finite map whose keys stand in the order of their first insertion. -/
structure OrderedMap (κ α : Type) where
  entries : List (κ × α)
  nodup : (entries.map Prod.fst).Nodup

namespace OrderedMap

variable {κ α β : Type}

/-- The map without entries. -/
def empty : OrderedMap κ α := ⟨[], by simp⟩

instance : EmptyCollection (OrderedMap κ α) := ⟨empty⟩

instance : Inhabited (OrderedMap κ α) := ⟨empty⟩

instance [DecidableEq κ] [DecidableEq α] : DecidableEq (OrderedMap κ α) := fun a b =>
  if h : a.entries = b.entries then isTrue (by cases a; cases b; simp_all)
  else isFalse (fun e => h (congrArg entries e))

/-- The keys, in the order of their first insertion. -/
def keys (m : OrderedMap κ α) : List κ := m.entries.map Prod.fst

/-- The values, in the order of their keys. -/
def values (m : OrderedMap κ α) : List α := m.entries.map Prod.snd

/-- How many keys the map has. -/
def size (m : OrderedMap κ α) : Nat := m.entries.length

/-- Whether the map has no key. -/
def isEmpty (m : OrderedMap κ α) : Bool := m.entries.isEmpty

@[simp] theorem keys_empty : (∅ : OrderedMap κ α).keys = [] := rfl

variable [DecidableEq κ]

/-- The value of a key. -/
def get? (m : OrderedMap κ α) (key : κ) : Option α := lookupEntry key m.entries

/-- Whether a key has a value. -/
def contains (m : OrderedMap κ α) (key : κ) : Bool := (m.get? key).isSome

/-- Give a key a value, in its old place if it has one and behind all others if not. -/
def insert (m : OrderedMap κ α) (key : κ) (value : α) : OrderedMap κ α :=
  ⟨insertEntry key value m.entries, nodup_insertEntry key value m.nodup⟩

/-- The map without a key; the others keep their order. -/
def erase (m : OrderedMap κ α) (key : κ) : OrderedMap κ α :=
  ⟨m.entries.filter (fun entry => entry.1 ≠ key), m.nodup.sublist (List.filter_sublist.map Prod.fst)⟩

/-- The entries that pass a test; they keep their order. -/
def filter (m : OrderedMap κ α) (test : κ × α → Bool) : OrderedMap κ α :=
  ⟨m.entries.filter test, m.nodup.sublist (List.filter_sublist.map Prod.fst)⟩

/-- Insert every entry of `other`, in its order. -/
def union (m other : OrderedMap κ α) : OrderedMap κ α :=
  other.entries.foldl (fun acc entry => acc.insert entry.1 entry.2) m

/-! ## What the operations do to the entries -/

@[simp] theorem get?_empty (key : κ) : (∅ : OrderedMap κ α).get? key = none := rfl

/-- A key is found with a value exactly when the pair is an entry. -/
theorem get?_eq_some_iff {m : OrderedMap κ α} {key : κ} {value : α} :
    m.get? key = some value ↔ (key, value) ∈ m.entries := by
  obtain ⟨entries, nodup⟩ := m
  simp only [get?]
  induction entries with
  | nil => simp [lookupEntry]
  | cons entry rest ih =>
    obtain ⟨k, v⟩ := entry
    simp only [List.map_cons, List.nodup_cons] at nodup
    by_cases h : k = key
    · subst h
      have : (k, value) ∉ rest := fun hw => nodup.1 (List.mem_map.mpr ⟨(k, value), hw, rfl⟩)
      simp [lookupEntry, this, eq_comm]
    · simp [lookupEntry, h, ih nodup.2, Ne.symm h]

/-- A key has a value exactly when it is one of the keys. -/
theorem contains_iff_mem_keys {m : OrderedMap κ α} {key : κ} : m.contains key = true ↔ key ∈ m.keys := by
  rw [contains, Option.isSome_iff_exists]
  simp only [get?_eq_some_iff, keys, List.mem_map, Prod.exists, exists_and_right, exists_eq_right]

/-- Inserting keeps the keys of a map, and puts a new one behind them. -/
theorem keys_insert (m : OrderedMap κ α) (key : κ) (value : α) :
    (m.insert key value).keys = if key ∈ m.keys then m.keys else m.keys ++ [key] :=
  map_fst_insertEntry key value m.entries

/-- After an insertion the key has the new value, and every other key the one it had. -/
@[simp] theorem get?_insert (m : OrderedMap κ α) (key other : κ) (value : α) :
    (m.insert key value).get? other = if key = other then some value else m.get? other := by
  simp only [insert, get?]
  induction m.entries with
  | nil => simp [insertEntry, lookupEntry]
  | cons entry rest ih => grind [insertEntry, lookupEntry]

/-- After an erasure the key has no value, and every other key the one it had. -/
@[simp] theorem get?_erase (m : OrderedMap κ α) (key other : κ) :
    (m.erase key).get? other = if key = other then none else m.get? other := by
  simp only [erase, get?]
  induction m.entries with
  | nil => simp [lookupEntry]
  | cons entry rest ih => grind [lookupEntry]

/-- In a union the values of the second map come first. -/
@[simp] theorem get?_union (m other : OrderedMap κ α) (key : κ) :
    (m.union other).get? key = (other.get? key).or (m.get? key) := by
  obtain ⟨entries, nodup⟩ := other
  simp only [union]
  induction entries generalizing m with
  | nil => rfl
  | cons entry rest ih =>
    obtain ⟨k, v⟩ := entry
    simp only [List.map_cons, List.nodup_cons] at nodup
    rw [List.foldl_cons, ih _ nodup.2, get?_insert]
    by_cases h : k = key
    · subst h
      have hrest : (⟨rest, nodup.2⟩ : OrderedMap κ α).get? k = none := by
        rw [Option.eq_none_iff_forall_ne_some]
        intro value hvalue
        exact nodup.1 (List.mem_map.mpr ⟨(k, value), get?_eq_some_iff.mp hvalue, rfl⟩)
      rw [hrest, if_pos rfl]
      simp [get?, lookupEntry]
    · simp [h, get?, lookupEntry]

end OrderedMap

end SoftTyping
