import ApiClient.Proofs.Document.Distinct
import Mathlib.Data.List.Induction
import Mathlib.Data.List.Nodup

/-!
# Written records read back

What reading does with the node of a value. A member that was left out is absent, a member that
stands is read by the reading of its field, and since a record is written with the names of its
fields, reading it only goes from field to field.
-/

namespace ApiClient

open Json (Value)
open Json.Value (standing mem_standing)

variable {α β γ : Type}

def Json.Value.isNull : Value → Bool
  | .null => true
  | _ => false

/-! ## Maps that change nothing -/

theorem option_map_eq_self_iff {f : α → α} {x : Option α} : x.map f = x ↔ ∀ a ∈ x, f a = a := by
  cases x <;> simp

theorem list_map_eq_self_iff {f : α → α} {xs : List α} : xs.map f = xs ↔ ∀ a ∈ xs, f a = a := by
  induction xs with
  | nil => simp
  | cons a xs ih => rw [List.map_cons, List.cons.injEq, ih, List.forall_mem_cons]

namespace Table

theorem put_of_notMem {table : Table α} {key : String} (h : key ∉ table.keys) (a : α) :
    put key a table = table ++ [(key, a)] := by
  induction table with
  | nil => rfl
  | cons e rest ih =>
    have hne : e.1 ≠ key := fun heq ↦ h (heq ▸ List.mem_cons_self)
    have hrest : key ∉ keys rest := fun hmem ↦ h (List.mem_cons_of_mem _ hmem)
    rw [put, if_neg hne, ih hrest, List.cons_append]

theorem get?_of_mem {table : Table α} (h : table.keys.Nodup) {key : String} {a : α}
    (hmem : (key, a) ∈ table) : get? key table = some a := by
  induction table with
  | nil => cases hmem
  | cons e rest ih =>
    obtain ⟨k, v⟩ := e
    obtain ⟨hnew, hrest⟩ := List.nodup_cons.1 h
    rw [get?]
    rcases List.mem_cons.1 hmem with heq | hmem
    · cases heq
      rw [if_pos rfl]
    · have hne : k ≠ key := fun heq ↦ hnew (heq ▸ List.mem_map_of_mem (f := (·.1)) hmem)
      rw [if_neg hne, ih hrest hmem]

theorem nodup_put {table : Table α} (h : table.keys.Nodup) (key : String) (a : α) :
    (put key a table).keys.Nodup := by
  rw [keys_put]
  split
  next => exact h
  next hnew => exact List.concat_eq_append ▸ h.concat hnew

theorem nodup_ofPairs (pairs : List (String × α)) : (ofPairs pairs).keys.Nodup := by
  induction pairs using List.reverseRecOn with
  | nil => exact List.nodup_nil
  | append_singleton pairs entry ih =>
    rw [ofPairs_concat]
    exact nodup_put ih entry.1 entry.2

theorem ofPairs_of_nodup {table : Table α} (h : table.keys.Nodup) : ofPairs table = table := by
  have hfold : ∀ (rest start : Table α), (keys (start ++ rest)).Nodup →
      rest.foldl (fun table e ↦ put e.1 e.2 table) start = start ++ rest := by
    intro rest
    induction rest with
    | nil => simp
    | cons e rest ih =>
      intro start hnodup
      have hnew : e.1 ∉ keys start := by
        intro hmem
        rw [keys, List.map_append, List.nodup_append] at hnodup
        exact hnodup.2.2 _ hmem _ List.mem_cons_self rfl
      rw [List.foldl_cons, put_of_notMem hnew, List.append_cons start e rest]
      exact ih _ (by rwa [← List.append_cons])
  exact hfold table [] h

/-- The table with every value changed by what its key says. -/
def mapEntries (f : String → α → β) (table : Table α) : Table β :=
  table.map fun e ↦ (e.1, f e.1 e.2)

@[simp] theorem keys_mapEntries (f : String → α → β) (table : Table α) :
    (table.mapEntries f).keys = table.keys := by
  simp [mapEntries, keys]

theorem mem_mapEntries {f : String → α → β} {table : Table α} {key : String} {b : β} :
    (key, b) ∈ table.mapEntries f ↔ ∃ a, (key, a) ∈ table ∧ f key a = b := by
  simp only [mapEntries, List.mem_map, Prod.mk.injEq, Prod.exists]
  constructor
  · rintro ⟨_, a, ha, rfl, rfl⟩
    exact ⟨a, ha, rfl⟩
  · rintro ⟨a, ha, rfl⟩
    exact ⟨key, a, ha, rfl, rfl⟩

theorem get?_mapEntries (f : String → α → β) (table : Table α) (key : String) :
    get? key (table.mapEntries f) = (get? key table).map (f key) := by
  induction table with
  | nil => rfl
  | cons e rest ih =>
    rw [mapEntries, List.map_cons, get?, get?]
    by_cases hkey : e.1 = key
    · rw [if_pos hkey, if_pos hkey, Option.map_some, hkey]
    · rw [if_neg hkey, if_neg hkey, ← ih, mapEntries]

theorem mapEntries_congr {f g : String → α → β} {table : Table α}
    (h : ∀ e ∈ table, f e.1 e.2 = g e.1 e.2) : table.mapEntries f = table.mapEntries g :=
  List.map_congr_left fun e he ↦ Prod.ext rfl (h e he)

theorem mapEntries_eq_self {f : String → α → α} {table : Table α}
    (h : ∀ e ∈ table, f e.1 e.2 = e.2) : table.mapEntries f = table :=
  list_map_eq_self_iff.2 fun e he ↦ Prod.ext rfl (h e he)

theorem mapEntries_mapEntries (f : String → β → γ) (g : String → α → β) (table : Table α) :
    (table.mapEntries g).mapEntries f = table.mapEntries fun key a ↦ f key (g key a) :=
  List.map_map

/-- The table with every value changed. -/
def mapValues (f : α → β) (table : Table α) : Table β :=
  table.map fun e ↦ (e.1, f e.2)

@[simp] theorem keys_mapValues (f : α → β) (table : Table α) :
    (table.mapValues f).keys = table.keys := by
  simp [mapValues, keys]

theorem mapValues_eq_self_iff {f : α → α} {table : Table α} :
    table.mapValues f = table ↔ ∀ e ∈ table, f e.2 = e.2 := by
  rw [mapValues, list_map_eq_self_iff]
  simp only [Prod.ext_iff, true_and]

/-- Storing under a key that stands once changes what stands there. -/
theorem put_eq_mapEntries {table : Table α} (h : table.keys.Nodup) {key : String}
    (hkey : key ∈ table.keys) (a : α) :
    put key a table = table.mapEntries fun k v ↦ if k = key then a else v := by
  induction table with
  | nil => cases hkey
  | cons e rest ih =>
    obtain ⟨k, v⟩ := e
    obtain ⟨hnew, hrest⟩ := List.nodup_cons.1 h
    rw [put, mapEntries, List.map_cons]
    by_cases hk : k = key
    · have hsame : mapEntries (fun k v ↦ if k = key then a else v) rest = rest := by
        refine mapEntries_eq_self fun e he ↦ if_neg fun heq ↦ hnew ?_
        exact heq.trans hk.symm ▸ List.mem_map_of_mem (f := (·.1)) he
      rw [if_pos hk, if_pos hk]
      exact congrArg _ hsame.symm
    · have hkey := (List.mem_cons.1 hkey).resolve_left (Ne.symm hk)
      rw [if_neg hk, if_neg hk, ih hrest hkey, mapEntries]

end Table

theorem tableOfValues_eq (write : α → Value) (table : Table α) :
    tableOfValues write table = .obj (table.mapValues write) := rfl

namespace Node

/-! ## Nodes of values -/

theorem reach_ofValue (v : Value) : (ofValue v).reach = pure () := by
  cases v <;> rfl

theorem text_ofValue (s : String) : (ofValue (.str s)).text = pure s := rfl

mutual

theorem skip_ofValue : (v : Value) → skip (ofValue v) = none
  | .null | .bool _ | .num _ | .str _ => rfl
  | .arr items => by rw [ofValue, skip, skipItems_ofItems]; rfl
  | .obj members => by rw [ofValue, skip, skipMembers_ofMembers]; rfl

theorem skipItems_ofItems : (items : List Value) → skipItems (ofItems items) = none
  | [] => rfl
  | v :: rest => by rw [ofItems, skipItems, skip_ofValue, skipItems_ofItems]; rfl

theorem skipMembers_ofMembers :
    (members : List (String × Value)) → skipMembers (ofMembers members) = none
  | [] => rfl
  | (k, v) :: rest => by
    rw [ofMembers, skipMembers, skip_ofValue, skipMembers_ofMembers, skip]
    rfl

end

mutual

/-- The scalars in the node of a value have their types already. -/
theorem settled_ofValue : (v : Value) → settled (ofValue v) = pure (ofValue v)
  | .null | .bool _ | .num _ | .str _ => rfl
  | .arr items => by rw [ofValue, settled, settledItems_ofItems]; rfl
  | .obj members => by rw [ofValue, settled, settledMembers_ofMembers]; rfl

theorem settledItems_ofItems : (items : List Value) → settledItems (ofItems items) =
    pure (ofItems items)
  | [] => rfl
  | v :: rest => by rw [ofItems, settledItems, settled_ofValue, settledItems_ofItems]; rfl

theorem settledMembers_ofMembers : (members : List (String × Value)) →
    settledMembers (ofMembers members) = pure (ofMembers members)
  | [] => rfl
  | (k, v) :: rest => by
    rw [ofMembers, settledMembers, settled_ofValue, settledMembers_ofMembers]
    rfl

end

mutual

theorem value_ofValue : {v : Value} → v.Distinct → value (ofValue v) = pure v
  | .null, _ | .bool _, _ | .num _, _ | .str _, _ => rfl
  | .arr items, h => by
    rw [ofValue, value, valueItems_ofItems (Value.distinct_arr.1 h)]
    rfl
  | .obj members, h => by
    obtain ⟨hkeys, hvalues⟩ := Value.distinct_obj.1 h
    rw [ofValue, value, valueMembers_ofMembers hvalues, pure_bind, raise]
    show (pure (.obj (Table.ofPairs members)) : Read Value) = _
    rw [Table.ofPairs_of_nodup hkeys]

theorem valueItems_ofItems : {items : List Value} → (∀ v ∈ items, v.Distinct) →
    valueItems (ofItems items) = pure items
  | [], _ => rfl
  | v :: rest, h => by
    rw [List.forall_mem_cons] at h
    rw [ofItems, valueItems, value_ofValue h.1, valueItems_ofItems h.2]
    rfl

theorem valueMembers_ofMembers : {members : List (String × Value)} →
    (∀ m ∈ members, m.2.Distinct) → valueMembers (ofMembers members) = pure members
  | [], _ => rfl
  | (k, v) :: rest, h => by
    rw [List.forall_mem_cons] at h
    rw [ofMembers, valueMembers, value_ofValue h.1, valueMembers_ofMembers h.2]
    rfl

end

/-! ## Lists and tables -/

variable {reading : Node → Read β} {write : γ → Value} {f : γ → β}

theorem listItems_ofItems {bound : Nat} {xs : List γ}
    (h : ∀ x ∈ xs, reading (ofValue (write x)) = pure (f x))
    (small : ∀ n ∈ ofItems (xs.map write), sizeOf n < bound) :
    listItems (fun n _ ↦ reading n) (ofItems (xs.map write)) small = pure (xs.map f) := by
  induction xs with
  | nil => rfl
  | cons x xs ih =>
    rw [List.forall_mem_cons] at h
    show (do
      let a ← reading (ofValue (write x))
      let as ← listItems (fun n _ ↦ reading n) (ofItems (xs.map write)) _
      return a :: as) = _
    rw [h.1, ih h.2]
    rfl

theorem mapMembers_ofMembers {bound : Nat} {table : Table γ}
    (h : ∀ e ∈ table, reading (ofValue (write e.2)) = pure (f e.2))
    (small : ∀ m ∈ ofMembers (table.mapValues write), sizeOf m.2 < bound) :
    mapMembers (fun n _ ↦ reading n) (ofMembers (table.mapValues write)) small =
      pure (table.mapValues f) := by
  induction table with
  | nil => rfl
  | cons e table ih =>
    rw [List.forall_mem_cons] at h
    have hrest := ih h.2 fun m hm ↦ small m (List.mem_cons_of_mem _ hm)
    show (do
      let a ← reading (ofValue (write e.2))
      let as ← mapMembers (fun n _ ↦ reading n) (ofMembers (Table.mapValues write table))
        fun m hm ↦ small m (List.mem_cons_of_mem _ hm)
      return (e.1, a) :: as) = _
    rw [h.1, hrest]
    rfl

/-- A value that does not stand for nothing, and what its node is read as. -/
structure Reads (reading : Node → Read β) (v : Value) (b : β) : Prop where
  present : v ≠ .null
  result : reading (ofValue v) = pure b

theorem reads_text (s : String) : Reads text (.str s) s := ⟨nofun, rfl⟩

theorem reads_flag (b : Bool) : Reads flag (.bool b) b := ⟨nofun, rfl⟩

theorem reads_list {xs : List γ} (h : ∀ x ∈ xs, reading (ofValue (write x)) = pure (f x)) :
    Reads (fun n ↦ n.list fun m _ ↦ reading m) (.arr (xs.map write)) (xs.map f) where
  present := nofun
  result := by
    rw [list, reach_ofValue, pure_bind]
    show (do
      let as ← listItems (fun n _ ↦ reading n) (ofItems (xs.map write)) _
      raise none
      return as) = _
    rw [listItems_ofItems h, pure_bind]
    rfl

theorem reads_table {table : Table γ} (hkeys : table.keys.Nodup)
    (h : ∀ e ∈ table, reading (ofValue (write e.2)) = pure (f e.2)) :
    Reads (fun n ↦ n.table fun m _ ↦ reading m) (tableOfValues write table)
      (table.mapValues f) where
  present := nofun
  result := by
    rw [tableOfValues_eq, Node.table, reach_ofValue, pure_bind]
    show (do
      let as ← mapMembers (fun n _ ↦ reading n) (ofMembers (Table.mapValues write table)) _
      raise none
      return Table.ofPairs as) = _
    rw [mapMembers_ofMembers h, pure_bind]
    show (pure (Table.ofPairs (table.mapValues f)) : Read (Table β)) = _
    rw [Table.ofPairs_of_nodup (by rwa [Table.keys_mapValues])]

theorem reads_texts (ts : List String) : Reads texts (textsValue ts) ts := by
  have h : Reads texts (textsValue ts) (ts.map id) := reads_list fun t _ ↦ text_ofValue t
  rwa [List.map_id] at h

theorem reads_values {vs : List Value} (h : ∀ v ∈ vs, v.Distinct) : Reads values (.arr vs) vs := by
  have hread : Reads values (.arr (vs.map id)) (vs.map id) :=
    reads_list fun v hv ↦ value_ofValue (h v hv)
  rwa [List.map_id] at hread

/-! ## Records -/

section

variable {set : String → Node → α → Read α} {key : String} {a : α}
  {rest : List (String × Option Value)}

/-- Reads the members that stand, one after the other. -/
def fill (set : String → Node → α → Read α) : List (String × Option Value) → α → Read α
  | [], a => pure a
  | (_, none) :: rest, a => fill set rest a
  | (key, some v) :: rest, a => do fill set rest (← set key (ofValue v) a)

variable {r : Read α}

theorem fill_some {v : Value} {a' : α} (h : set key (ofValue v) a = pure a')
    (hrest : fill set rest a' = r) : fill set ((key, some v) :: rest) a = r := by
  rw [fill, h, pure_bind, hrest]

theorem fill_required {v : Value} {b : β} {put : β → α}
    (hset : ∀ n, set key n a = do return put (← reading n)) (h : Reads reading v b)
    (hrest : fill set rest (put b) = r) : fill set ((key, some v) :: rest) a = r :=
  fill_some (by rw [hset, h.result, pure_bind]) hrest

theorem optional_ofValue {v : Value} (hv : v ≠ .null) (reading : Read β) :
    optional (ofValue v) reading = do return some (← reading) := by
  cases v with
  | null => exact absurd rfl hv
  | _ => rfl

theorem fill_optional {x : Option γ} {put : Option β → α}
    (hset : ∀ n, set key n a = do return put (← optional n (reading n)))
    (h : ∀ c ∈ x, Reads reading (write c) (f c)) (hnone : put none = a)
    (hrest : fill set rest (put (x.map f)) = r) :
    fill set ((key, x.map write) :: rest) a = r := by
  cases x with
  | none =>
    subst hnone
    exact hrest
  | some c =>
    have hc := h c rfl
    refine fill_some ?_ hrest
    rw [hset, optional_ofValue hc.present, hc.result]
    rfl

/-- A field whose value stands for what was written. -/
theorem fill_same {x : Option γ} {reading : Node → Read γ} {put : Option γ → α}
    (hset : ∀ n, set key n a = do return put (← optional n (reading n)))
    (h : ∀ c ∈ x, Reads reading (write c) c) (hnone : put none = a)
    (hrest : fill set rest (put x) = r) : fill set ((key, x.map write) :: rest) a = r :=
  fill_optional (f := id) hset h hnone (by rwa [Option.map_id])

theorem fill_text {t? : Option String} {put : Option String → α}
    (hset : ∀ n, set key n a = do return put (← optional n n.text)) (hnone : put none = a)
    (hrest : fill set rest (put t?) = r) : fill set ((key, textValue t?) :: rest) a = r :=
  fill_same hset (fun t _ ↦ reads_text t) hnone hrest

theorem fill_flag {b? : Option Bool} {put : Option Bool → α}
    (hset : ∀ n, set key n a = do return put (← optional n n.flag)) (hnone : put none = a)
    (hrest : fill set rest (put b?) = r) : fill set ((key, flagValue b?) :: rest) a = r :=
  fill_same hset (fun b _ ↦ reads_flag b) hnone hrest

/-- A value that is null is taken for one that is absent. -/
theorem fill_value {v? : Option Value} {put : Option Value → α}
    (hset : ∀ n, set key n a = do return put (← optional n n.value))
    (h : Value.DistinctIn v?) (hnone : put none = a)
    (hrest : fill set rest (put (v?.filter fun v ↦ !v.isNull)) = r) :
    fill set ((key, v?) :: rest) a = r := by
  cases v? with
  | none =>
    subst hnone
    exact hrest
  | some v =>
    refine fill_some ?_ hrest
    rw [hset]
    by_cases hnull : v = .null
    · subst hnull
      rfl
    · have hkept : v.isNull = false := by
        cases v with
        | null => exact absurd rfl hnull
        | _ => rfl
      rw [optional_ofValue hnull, value_ofValue (h _ rfl), Option.filter_some, hkept]
      rfl

theorem fill_list {xs : List γ} {put : List β → α}
    (hset : ∀ n, set key n a = do return put (← n.list fun m _ ↦ reading m))
    (h : ∀ x ∈ xs, reading (ofValue (write x)) = pure (f x)) (hnil : put [] = a)
    (hrest : fill set rest (put (xs.map f)) = r) :
    fill set ((key, listValue write xs) :: rest) a = r := by
  cases xs with
  | nil =>
    subst hnil
    exact hrest
  | cons x xs => exact fill_required hset (reads_list h) hrest

theorem fill_sameList {xs : List γ} {reading : Node → Read γ} {put : List γ → α}
    (hset : ∀ n, set key n a = do return put (← n.list fun m _ ↦ reading m))
    (h : ∀ x ∈ xs, reading (ofValue (write x)) = pure x) (hnil : put [] = a)
    (hrest : fill set rest (put xs) = r) : fill set ((key, listValue write xs) :: rest) a = r :=
  fill_list (f := id) hset h hnil (by rwa [List.map_id])

theorem fill_table {table : Table γ} {put : Table β → α}
    (hset : ∀ n, set key n a = do return put (← n.table fun m _ ↦ reading m))
    (hkeys : table.keys.Nodup)
    (h : ∀ e ∈ table, reading (ofValue (write e.2)) = pure (f e.2)) (hnil : put [] = a)
    (hrest : fill set rest (put (table.mapValues f)) = r) :
    fill set ((key, tableValue write table) :: rest) a = r := by
  cases table with
  | nil =>
    subst hnil
    exact hrest
  | cons e table => exact fill_required hset (reads_table hkeys h) hrest

theorem fill_sameTable {table : Table γ} {reading : Node → Read γ} {put : Table γ → α}
    (hset : ∀ n, set key n a = do return put (← n.table fun m _ ↦ reading m))
    (hkeys : table.keys.Nodup)
    (h : ∀ e ∈ table, reading (ofValue (write e.2)) = pure e.2) (hnil : put [] = a)
    (hrest : fill set rest (put table) = r) :
    fill set ((key, tableValue write table) :: rest) a = r :=
  fill_table (f := id) hset hkeys h hnil
    (by rwa [Table.mapValues_eq_self_iff.2 fun _ _ ↦ rfl])

theorem find?_of_mem {fields : List Field} (hnodup : (fields.map (·.name)).Nodup)
    (hother : ∀ field ∈ fields, field.otherName = none) {field : Field} (h : field ∈ fields) :
    fields.find? (fun other ↦ other.name == field.name || other.otherName == some field.name) =
      some field := by
  induction fields with
  | nil => simp at h
  | cons first rest ih =>
    rw [List.map_cons, List.nodup_cons] at hnodup
    rw [List.forall_mem_cons] at hother
    rcases List.mem_cons.1 h with rfl | h
    · simp
    · have hne : first.name ≠ field.name := fun heq ↦ hnodup.1 (heq ▸ List.mem_map_of_mem h)
      rw [List.find?_cons_of_neg (by simp [hne, hother.1]), ih hnodup.2 hother.2 h]

theorem recordMembers_of_field {bound : Nat} {fields : List Field}
    {set : String → (n : Node) → sizeOf n < bound → α → Read α} {k v : Node}
    {rest : List (Node × Node)} (small : ∀ m ∈ (k, v) :: rest, sizeOf m.2 < bound) {field : Field}
    (hfield : fieldOf fields k = pure (some field)) {seen : List String} (hnew : field.name ∉ seen)
    (a : α) : recordMembers fields set ((k, v) :: rest) small seen a =
      set field.name v (small (k, v) List.mem_cons_self) a >>= fun a ↦
        recordMembers fields set rest (fun m hm ↦ small m (List.mem_cons_of_mem _ hm))
          (field.name :: seen) a := by
  have hseen : seen.contains field.name = false := by
    simpa using hnew
  rw [recordMembers, hfield, pure_bind]
  dsimp only
  rw [hseen, if_neg Bool.false_ne_true]

theorem recordMembers_ofMembers {bound : Nat} {fields : List Field}
    (hnodup : (fields.map (·.name)).Nodup) (hother : ∀ field ∈ fields, field.otherName = none)
    {members : List (String × Option Value)} (hnames : ∀ m ∈ members, m.1 ∈ fields.map (·.name))
    (hmembers : (members.map (·.1)).Nodup) {seen : List String} (hseen : ∀ m ∈ members, m.1 ∉ seen)
    (a : α)
    (small : ∀ m ∈ ofMembers (standing members), sizeOf m.2 < bound) :
    recordMembers fields (fun key n _ a ↦ set key n a)
        (ofMembers (standing members)) small seen a =
      (fill set members a >>= fun a ↦
        pure ((Table.keys (standing members)).reverse ++ seen, a)) := by
  induction members generalizing seen a with
  | nil => rfl
  | cons m rest ih =>
    obtain ⟨key, value⟩ := m
    rw [List.map_cons, List.nodup_cons] at hmembers
    rw [List.forall_mem_cons] at hnames hseen
    cases value with
    | none => exact ih hnames.2 hmembers.2 hseen.2 a small
    | some v =>
      obtain ⟨field, hfield, hkey⟩ := List.mem_map.1 hnames.1
      subst hkey
      have hfieldOf : fieldOf fields (.scalar (.str field.name)) = pure (some field) := by
        show (pure (fields.find? _) : Read (Option Field)) = _
        rw [find?_of_mem hnodup hother hfield]
      have hlater : ∀ m ∈ rest, m.1 ∉ field.name :: seen := by
        intro m hm hmem
        rcases List.mem_cons.1 hmem with heq | hmem
        · exact hmembers.1 (List.mem_map.2 ⟨m, hm, heq⟩)
        · exact hseen.2 m hm hmem
      have hrest := fun a ↦ ih hnames.2 hmembers.2 hlater a
        fun m hm ↦ small m (List.mem_cons_of_mem _ hm)
      refine (recordMembers_of_field small hfieldOf hseen.1 a).trans ?_
      rw [fill, bind_assoc]
      refine bind_congr fun a ↦ (hrest a).trans ?_
      simp [standing, member, Table.keys]

theorem standing_of_required {fields : List Field} {members : List (String × Option Value)}
    (hnames : members.map (·.1) = fields.map (·.name))
    (hrequired : (fields.zip members).all fun e ↦ e.1.presence != .required || e.2.2.isSome)
    {field : Field} (hfield : field ∈ fields) (h : field.presence = .required) :
    field.name ∈ Table.keys (standing members) := by
  induction fields generalizing members with
  | nil => simp at hfield
  | cons first fields ih =>
    obtain ⟨m, members, rfl⟩ : ∃ m rest, members = m :: rest := by
      cases members with
      | nil => cases hnames
      | cons m rest => exact ⟨m, rest, rfl⟩
    obtain ⟨hname, hnames⟩ := List.cons.inj hnames
    rw [List.zip_cons_cons, List.all_cons, Bool.and_eq_true] at hrequired
    rcases List.mem_cons.1 hfield with rfl | hfield
    · obtain ⟨v, hv⟩ := Option.isSome_iff_exists.1 (by simpa [h] using hrequired.1)
      exact List.mem_map.2 ⟨(m.1, v), mem_standing.2 (hv ▸ List.mem_cons_self), hname⟩
    · obtain ⟨other, hother, heq⟩ := List.mem_map.1 (ih hnames hrequired.2 hfield)
      exact List.mem_map.2 ⟨other, mem_standing.2
        (List.mem_cons_of_mem _ (mem_standing.1 hother)), heq⟩

/-- A record that is written with a member for each field is read field by field. -/
theorem record_ofValue {fields : List Field} {members : List (String × Option Value)} {start : α}
    (hnames : members.map (·.1) = fields.map (·.name)) (hnodup : (fields.map (·.name)).Nodup)
    (hother : fields.all fun field ↦ field.otherName.isNone)
    (hrequired : (fields.zip members).all fun e ↦ e.1.presence != .required || e.2.2.isSome) :
    (ofValue (.record members)).record fields start (fun key n _ a ↦ set key n a) =
      fill set members start := by
  have hother : ∀ field ∈ fields, field.otherName = none := by
    simpa using hother
  have hfinish : (fields.all fun field ↦ field.presence != .required ||
      ((Table.keys (standing members)).reverse ++ []).contains field.name) = true := by
    rw [List.all_eq_true]
    intro field hfield
    by_cases h : field.presence = .required
    · simp [standing_of_required hnames hrequired hfield h]
    · simp [h]
  have hsmall : ∀ m ∈ ofMembers (standing members),
      sizeOf m.2 < sizeOf (ofValue (.record members)) := fun m hm ↦ sizeOf_lt_of_mem_map rfl hm
  rw [record, reach_ofValue, pure_bind]
  show (do
    let r ← recordMembers fields (fun key n _ a ↦ set key n a)
      (ofMembers (standing members)) hsmall [] start
    raise none
    if fields.all fun field ↦ field.presence != .required || r.1.contains field.name then pure r.2
    else throw .mismatch : Read α) = _
  rw [recordMembers_ofMembers hnodup hother (fun m hm ↦ hnames ▸ List.mem_map_of_mem hm)
    (hnames ▸ hnodup) (by simp) start hsmall, bind_assoc]
  refine Eq.trans (bind_congr fun a ↦ ?_) (bind_pure (fill set members start))
  rw [pure_bind]
  dsimp only
  rw [hfinish]
  rfl

end

/-! ## References -/

theorem recordMembers_of_unknown {bound : Nat} {fields : List Field}
    {set : String → (n : Node) → sizeOf n < bound → α → Read α} {members : List (String × Value)}
    (h : ∀ m ∈ members, fieldOf fields (.scalar (.str m.1)) = pure none)
    (small : ∀ m ∈ ofMembers members, sizeOf m.2 < bound) (seen : List String) (a : α) :
    recordMembers fields set (ofMembers members) small seen a = pure (seen, a) := by
  induction members with
  | nil => rfl
  | cons m rest ih =>
    obtain ⟨key, v⟩ := m
    rw [List.forall_mem_cons] at h
    revert small
    rw [ofMembers]
    intro small
    rw [recordMembers, h.1, skip_ofValue]
    exact ih h.2 fun m hm ↦ small m (List.mem_cons_of_mem _ hm)

theorem reference?_referenceValue (path : String) :
    (ofValue (referenceValue path)).reference? = some path := rfl

/-- A record without a member for the reference is none. -/
theorem reference?_record {members : List (String × Option Value)}
    (h : ∀ m ∈ members, m.1 ≠ "$ref") : (ofValue (.record members)).reference? = none := by
  have hunknown : ∀ m ∈ standing members,
      fieldOf [⟨"$ref", .required, none⟩] (.scalar (.str m.1)) = pure none := by
    intro m hm
    have hne := h _ (mem_standing.1 hm)
    have hfind : List.find? (fun field : Field ↦ field.name == m.1 || field.otherName == some m.1)
        [⟨"$ref", .required, none⟩] = none := by
      simpa using Ne.symm hne
    show (pure (List.find? _ _) : Read (Option Field)) = _
    rw [hfind]
  have hrecord : (ofValue (.record members)).record [⟨"$ref", .required, none⟩] ""
      (fun _ n _ _ ↦ n.text) = throw .mismatch := by
    rw [record, reach_ofValue, pure_bind]
    refine (congrArg (· >>= _) (recordMembers_of_unknown hunknown
      (fun m hm ↦ sizeOf_lt_of_mem_map rfl hm) [] "")).trans ?_
    rfl
  show (Read.result _).toOption = none
  rw [hrecord]
  rfl

end Node

namespace RefOr

theorem ofNode_reference (path : String) (reading : Read α) :
    ofNode (Node.ofValue (referenceValue path)) reading = pure (.ref path) := by
  rw [ofNode, Node.reference?_referenceValue]

/-- The value of a record, none of whose members can be taken for a reference. -/
def Inlines (v : Value) : Prop :=
  ∃ members : List (String × Option Value), v = .record members ∧ members.all (·.1 != "$ref")

theorem ofNode_inline {v : Value} (h : Inlines v) {reading : Read α} {a : α}
    (hread : reading = pure a) : ofNode (Node.ofValue v) reading = pure (.inline a) := by
  obtain ⟨members, rfl, hkeys⟩ := h
  rw [ofNode, hread, Node.reference?_record (by simpa using hkeys)]
  rfl

/-- The object changed, if it stands in place. -/
def map (f : α → β) : RefOr α → RefOr β
  | .ref path => .ref path
  | .inline a => .inline (f a)

/-- What is written as a reference or as a record is read as the one that it is. -/
theorem read_toValue {write : α → Value} {reading : Node → Read β} {f : α → β} {c : RefOr α}
    (hwrite : ∀ a, Inlines (write a))
    (h : ∀ a, c = .inline a → reading (Node.ofValue (write a)) = pure (f a)) :
    read reading (Node.ofValue (c.toValue write)) = pure (c.map f) := by
  rw [read, Node.settled_ofValue, pure_bind]
  cases c with
  | ref path => exact ofNode_reference path _
  | inline a => exact ofNode_inline (hwrite a) (h a rfl)

end RefOr

end ApiClient
