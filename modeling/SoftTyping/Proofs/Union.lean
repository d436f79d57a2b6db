import Mathlib.Data.List.Perm.Subperm
import SoftTyping.Text.LowerCase
import SoftTyping.Union

/-!
# Unions as sets of names

Whether a union is empty shows in its names, so equal unions are empty or not together. Where each type has a name, the names
in a union are those of its types if they were put in as such (`NamedBy`).
-/

namespace SoftTyping

open OrderedMap

namespace OrderedMap

variable {κ α : Type}

theorem size_eq_length_keys (m : OrderedMap κ α) : m.size = m.keys.length := by
  rw [size, keys, List.length_map]

end OrderedMap

namespace Union

variable {u v : Union} {name : String} {id : SymbolId}

/-- A union contains a name exactly if it is among its names. -/
theorem contains_iff_mem_names : u.contains name = true ↔ name ∈ u.names := contains_iff_mem_keys

/-- A union is empty exactly if it has no names. -/
theorem isEmpty_eq_isEmpty_names (u : Union) : u.isEmpty = u.names.isEmpty := List.isEmpty_map.symm

/-- Unions are equal if they have as many names and all names of the first are in the second. -/
theorem beq_iff : (u == v) = true ↔ u.names.length = v.names.length ∧ ∀ name ∈ u.names, name ∈ v.names := by
  change sameNames u v = true ↔ _
  rw [sameNames, Bool.and_eq_true, beq_iff_eq, List.all_eq_true, size, size, size_eq_length_keys,
    size_eq_length_keys]
  simp only [contains_iff_mem_names]
  rfl

instance : ReflBEq Union where
  rfl := beq_iff.mpr ⟨rfl, fun _ h => h⟩

/-- Equal unions are empty together. -/
theorem isEmpty_of_beq (h : (u == v) = true) : u.isEmpty = v.isEmpty := by
  have hlen := (beq_iff.mp h).1
  rw [isEmpty_eq_isEmpty_names, isEmpty_eq_isEmpty_names, Bool.eq_iff_iff, List.isEmpty_iff_length_eq_zero,
    List.isEmpty_iff_length_eq_zero, hlen]

@[simp] theorem isEmpty_empty : (∅ : Union).isEmpty = true := rfl

@[simp] theorem isEmpty_single (name : String) (id : SymbolId) : (single name id).isEmpty = false := rfl

/-- A union with a member is not empty. -/
@[simp] theorem isEmpty_insert (u : Union) (name : String) (id : SymbolId) : (u.insert name id).isEmpty = false := by
  have hmem : name ∈ (u.insert name id).names := by
    rw [← contains_iff_mem_names, contains, OrderedMap.contains, insert, OrderedMap.get?_insert, if_pos rfl]
    rfl
  rw [isEmpty_eq_isEmpty_names, List.isEmpty_eq_false_iff]
  exact List.ne_nil_of_mem hmem

/-- A union of two is empty exactly if both are. -/
theorem isEmpty_extend (u v : Union) : (u.extend v).isEmpty = (u.isEmpty && v.isEmpty) := by
  have hinsert : ∀ (entries : List (String × SymbolId)) (m : OrderedMap String SymbolId),
      (entries.foldl (fun acc entry => acc.insert entry.1 entry.2) m).isEmpty = (m.isEmpty && entries.isEmpty) := by
    intro entries
    induction entries with
    | nil => intro m; simp
    | cons entry rest ih =>
      intro m
      have hfst : (m.insert entry.1 entry.2).isEmpty = false := by
        obtain ⟨list, nodup⟩ := m
        cases list with
        | nil => rfl
        | cons head tail =>
          simp only [OrderedMap.insert, OrderedMap.isEmpty, insertEntry]
          split <;> rfl
      rw [List.foldl_cons, ih, hfst]
      simp
  exact hinsert v.members.entries u.members

/-! ## Members -/

/-- Two unions do not hold different types by one name. -/
def Agrees (u v : Union) : Prop :=
  ∀ ⦃name a b⦄, (name, a) ∈ u.members.entries → (name, b) ∈ v.members.entries → a = b

/-- The names are those of the members. -/
theorem mem_names {name : String} : name ∈ u.names ↔ ∃ id, (name, id) ∈ u.members.entries := by
  simp [names, keys]

/-- The symbols are those of the members. -/
theorem mem_symbols : id ∈ u.symbols ↔ ∃ name, (name, id) ∈ u.members.entries := by
  simp [symbols, values]

/-- What a union of two holds is in one of them. -/
theorem mem_or_mem_of_mem_extend {entry : String × SymbolId} (h : entry ∈ (u.extend v).members.entries) :
    entry ∈ u.members.entries ∨ entry ∈ v.members.entries := by
  have hget := get?_eq_some_iff.mpr h
  rw [extend, get?_union] at hget
  rcases Option.or_eq_some_iff.mp hget with hget | ⟨_, hget⟩
  · exact .inr (get?_eq_some_iff.mp hget)
  · exact .inl (get?_eq_some_iff.mp hget)

/-- A union of two that agree holds what one of them holds. -/
theorem mem_extend (h : u.Agrees v) {entry : String × SymbolId} :
    entry ∈ (u.extend v).members.entries ↔ entry ∈ u.members.entries ∨ entry ∈ v.members.entries := by
  refine ⟨mem_or_mem_of_mem_extend, fun he => ?_⟩
  rw [← get?_eq_some_iff, extend, get?_union, Option.or_eq_some_iff]
  rcases he with he | he
  · cases hoth : v.members.get? entry.1 with
    | none => exact .inr ⟨rfl, get?_eq_some_iff.mpr he⟩
    | some b => exact .inl (congrArg some (h he (get?_eq_some_iff.mp hoth)).symm)
  · exact .inl (get?_eq_some_iff.mpr he)

/-- Equality of unions is that of the sets of their names. -/
theorem beq_iff_names : (u == v) = true ↔ ∀ name, name ∈ u.names ↔ name ∈ v.names := by
  have hperm : u.names.Perm v.names ↔ ∀ name, name ∈ u.names ↔ name ∈ v.names :=
    List.perm_ext_iff_of_nodup u.members.nodup v.members.nodup
  rw [beq_iff, ← hperm]
  refine ⟨fun ⟨hlen, hsub⟩ => ?_, fun hperm => ⟨hperm.length_eq, fun _ => hperm.mem_iff.mp⟩⟩
  -- A list without repetitions has all of another that is no longer and has all of it.
  exact (List.subperm_of_subset u.members.nodup hsub).perm_of_length_le (Nat.le_of_eq hlen.symm)

/-- Unions with the same members are equal. -/
theorem beq_of_entries (h : ∀ {entry}, entry ∈ u.members.entries ↔ entry ∈ v.members.entries) : (u == v) = true :=
  beq_iff_names.mpr fun name => by
    rw [mem_names, mem_names]
    exact exists_congr fun _ => h

/-! ## Names of types -/

/-- The names in a union are those that its types have, but for the case of letters. -/
def NamedBy (hasName : SymbolId → String → Prop) (u : Union) : Prop :=
  ∀ entry ∈ u.members.entries, ∃ name, hasName entry.2 name ∧ Text.lowerCase name = Text.lowerCase entry.1

variable {hasName : SymbolId → String → Prop}

/-- A union stays named if types keep their names. -/
theorem NamedBy.mono {hasName' : SymbolId → String → Prop} (h : u.NamedBy hasName)
    (himp : ∀ {id name}, hasName id name → hasName' id name) : u.NamedBy hasName' := by
  intro entry he
  obtain ⟨name, hnm, hkey⟩ := h entry he
  exact ⟨name, himp hnm, hkey⟩

end Union

instance : ReflBEq Bounds where
  rfl := by
    intro bounds
    obtain ⟨lower, upper, fixed⟩ := bounds
    change (lower == lower && (upper == upper && fixed == fixed)) = true
    simp

/-- Equal bounds have equal lower bounds. -/
theorem Bounds.lower_of_beq {first second : Bounds} (h : (first == second) = true) :
    (first.lower == second.lower) = true := by
  obtain ⟨lower, upper, fixed⟩ := first
  obtain ⟨lower', upper', fixed'⟩ := second
  change (lower == lower' && (upper == upper' && fixed == fixed')) = true at h
  exact (Bool.and_eq_true_iff.mp h).1

end SoftTyping
