/-!
# Tables keyed by text

A table is a list of pairs in the order in which their keys first came. Storing under a key that is
present replaces the value where it stands, so the order of the keys never changes.
-/

namespace ApiClient

/-- Values under text keys, in the order of first appearance. -/
abbrev Table (α : Type u) := List (String × α)

namespace Table

variable {α : Type u}

def get? (key : String) : Table α → Option α
  | [] => none
  | (k, v) :: rest => if k = key then some v else get? key rest

def has (table : Table α) (key : String) : Bool :=
  table.any fun entry => entry.1 == key

/-- Stores a value, in place if the key is present and at the end otherwise. -/
def put (key : String) (value : α) : Table α → Table α
  | [] => [(key, value)]
  | (k, v) :: rest => if k = key then (k, value) :: rest else (k, v) :: put key value rest

def ofPairs (pairs : List (String × α)) : Table α :=
  pairs.foldl (fun table (k, v) => put k v table) []

def keys (table : Table α) : List String :=
  table.map (·.1)

def values (table : Table α) : List α :=
  table.map (·.2)

@[simp] theorem get?_nil (key : String) : get? key ([] : Table α) = none := rfl

theorem get?_put (table : Table α) (key other : String) (value : α) :
    get? other (put key value table) = if key = other then some value else get? other table := by
  induction table with
  | nil => simp [put, get?]
  | cons entry rest ih =>
    obtain ⟨k, v⟩ := entry
    by_cases hk : k = key
    · subst hk
      by_cases ho : k = other <;> simp [put, get?, ho]
    · by_cases ho : k = other
      · subst ho
        simp [put, get?, hk, Ne.symm hk]
      · simp [put, get?, hk, ho, ih]

theorem has_eq_isSome (table : Table α) (key : String) :
    table.has key = (get? key table).isSome := by
  induction table with
  | nil => rfl
  | cons entry rest ih =>
    obtain ⟨k, v⟩ := entry
    by_cases hk : k = key <;> simp_all [has, get?]

theorem has_iff_mem_keys {table : Table α} {key : String} : table.has key ↔ key ∈ table.keys := by
  simp [has, keys]

theorem has_put (table : Table α) (key other : String) (value : α) :
    (put key value table).has other ↔ other = key ∨ table.has other := by
  rw [has_eq_isSome, has_eq_isSome, get?_put]
  by_cases h : key = other
  · simp [h]
  · simp [h, Ne.symm h]

theorem keys_put (table : Table α) (key : String) (value : α) : (put key value table).keys =
    if key ∈ table.keys then table.keys else table.keys ++ [key] := by
  induction table with
  | nil => rfl
  | cons entry rest ih =>
    obtain ⟨k, v⟩ := entry
    by_cases hk : k = key
    · simp [put, keys, hk]
    · have hrest : keys (put key value ((k, v) :: rest)) = k :: keys (put key value rest) := by
        simp [put, keys, hk]
      have hmem : key ∈ keys ((k, v) :: rest) ↔ key ∈ keys rest := by
        simp [keys, Ne.symm hk]
      rw [hrest, ih]
      simp only [hmem]
      split <;> rfl

theorem ofPairs_concat (pairs : List (String × α)) (entry : String × α) :
    ofPairs (pairs ++ [entry]) = put entry.1 entry.2 (ofPairs pairs) :=
  List.foldl_append ..

theorem get?_eq_none_iff {table : Table α} {key : String} :
    get? key table = none ↔ ¬table.has key := by
  rw [has_eq_isSome, Option.not_isSome_iff_eq_none]

theorem mem_of_get? {table : Table α} {key : String} {value : α} (h : get? key table = some value) :
    (key, value) ∈ table := by
  induction table with
  | nil => simp [get?] at h
  | cons entry rest ih =>
    obtain ⟨k, v⟩ := entry
    by_cases hk : k = key
    · subst hk
      simp only [get?, if_pos, Option.some.injEq] at h
      exact h ▸ List.mem_cons_self
    · exact List.mem_cons_of_mem _ (ih (by simpa [get?, hk] using h))

theorem mem_of_mem_put {table : Table α} {key : String} {value : α} {entry : String × α}
    (h : entry ∈ put key value table) : entry ∈ table ∨ entry = (key, value) := by
  induction table with
  | nil => simpa [put] using h
  | cons first rest ih =>
    obtain ⟨k, v⟩ := first
    by_cases hk : k = key
    · subst hk
      simp only [put, if_pos, List.mem_cons] at h ⊢
      rcases h with rfl | h
      · exact .inr rfl
      · exact .inl (.inr h)
    · simp only [put, if_neg hk, List.mem_cons] at h ⊢
      rcases h with rfl | h
      · exact .inl (.inl rfl)
      · exact (ih h).imp_left .inr

theorem mem_of_mem_ofPairs {pairs : List (String × α)} {entry : String × α}
    (h : entry ∈ ofPairs pairs) : entry ∈ pairs := by
  have hfold : ∀ (pairs : List (String × α)) (table : Table α),
      entry ∈ pairs.foldl (fun table (k, v) => put k v table) table →
        entry ∈ table ∨ entry ∈ pairs := by
    intro pairs
    induction pairs with
    | nil => exact fun _ h => .inl h
    | cons first rest ih =>
      intro table h
      rcases ih _ h with h | h
      · rcases mem_of_mem_put h with h | rfl
        · exact .inl h
        · exact .inr List.mem_cons_self
      · exact .inr (List.mem_cons_of_mem _ h)
  simpa using hfold pairs [] h

end Table

end ApiClient
