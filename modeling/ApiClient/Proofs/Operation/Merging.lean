import ApiClient.Operation.Parameters
import ApiClient.Proofs.Operation.QueryGroups

/-!
# Merged parameters

A parameter of an operation takes the place of the first parameter with its key, or stands at the
end if there is none. This is done for one parameter after the other, so a later one can also
replace one that was put at the end before. What a key stands for in the end is said by one equation
for each step, and so is the order of the keys.
-/

namespace ApiClient

/-- What identifies a parameter within an operation. -/
def Parameter.key (p : Parameter) : String × Location :=
  (p.name, p.location)

theorem Parameter.same_iff {p q : Parameter} : p.same q ↔ p.key = q.key := by
  simp [same, key]

namespace Parameters

def keys (params : List Parameter) : List (String × Location) :=
  params.map Parameter.key

def first? (key : String × Location) (params : List Parameter) : Option Parameter :=
  params.find? fun p ↦ p.key == key

def last? (key : String × Location) (params : List Parameter) : Option Parameter :=
  first? key params.reverse

section

variable {key : String × Location} {params : List Parameter} {p q : Parameter}

theorem keys_append (params others : List Parameter) :
    keys (params ++ others) = keys params ++ keys others :=
  List.map_append

theorem keys_take (i : Nat) (params : List Parameter) :
    keys (params.take i) = (keys params).take i :=
  List.map_take

theorem first?_cons :
    first? key (p :: params) = if p.key = key then some p else first? key params := by
  by_cases h : p.key = key <;> simp [first?, h]

theorem last?_concat :
    last? key (params ++ [p]) = if p.key = key then some p else last? key params := by
  rw [last?, List.reverse_concat, first?_cons]
  rfl

theorem key_of_first? (h : first? key params = some p) : p.key = key := by
  have hkey : (p.key == key) = true := List.find?_some (p := fun p : Parameter ↦ p.key == key) h
  exact eq_of_beq hkey

/-! ## One parameter -/

theorem override_cons_of_eq (h : q.key = p.key) : override (q :: params) p = p :: params := by
  rw [override, if_pos (Parameter.same_iff.2 h)]

theorem override_cons_of_ne (h : q.key ≠ p.key) :
    override (q :: params) p = q :: override params p := by
  rw [override, if_neg (mt Parameter.same_iff.1 h)]

theorem first?_override :
    first? key (override params p) = if p.key = key then some p else first? key params := by
  induction params with
  | nil => exact first?_cons
  | cons q params ih =>
    by_cases hq : q.key = p.key
    · rw [override_cons_of_eq hq, first?_cons, first?_cons, hq]
      split <;> rfl
    · rw [override_cons_of_ne hq, first?_cons, first?_cons, ih]
      by_cases hkey : q.key = key
      · have hp : p.key ≠ key := fun h ↦ hq (hkey.trans h.symm)
        rw [if_pos hkey, if_neg hp, if_pos hkey]
      · rw [if_neg hkey, if_neg hkey]

theorem keys_override : keys (override params p) =
    if p.key ∈ keys params then keys params else keys params ++ [p.key] := by
  induction params with
  | nil => rfl
  | cons q params ih =>
    by_cases hq : q.key = p.key
    · have hmem : p.key ∈ keys (q :: params) := List.mem_cons.2 (.inl hq.symm)
      rw [override_cons_of_eq hq, if_pos hmem, keys, keys, List.map_cons, List.map_cons, hq]
    · have hcons : keys (q :: override params p) = q.key :: keys (override params p) := rfl
      have hmem : p.key ∈ keys (q :: params) ↔ p.key ∈ keys params :=
        List.mem_cons.trans (or_iff_right (Ne.symm hq))
      rw [override_cons_of_ne hq, hcons, ih]
      simp only [hmem]
      split <;> rfl

/-- The parameter at a place is another one only if it was the first with its key. -/
theorem getElem?_override {i : Nat} (hi : params[i]? = some q) : (override params p)[i]? =
    some (if q.key = p.key ∧ p.key ∉ keys (params.take i) then p else q) := by
  induction params generalizing i with
  | nil => cases hi
  | cons r params ih =>
    by_cases hr : r.key = p.key
    · rw [override_cons_of_eq hr]
      cases i with
      | zero =>
        obtain rfl : r = q := by simpa using hi
        simp [hr, keys]
      | succ i =>
        have hmem : p.key ∈ keys ((r :: params).take (i + 1)) := List.mem_cons.2 (.inl hr.symm)
        rw [if_neg fun h ↦ h.2 hmem]
        exact hi
    · rw [override_cons_of_ne hr]
      cases i with
      | zero =>
        obtain rfl : r = q := by simpa using hi
        rw [if_neg fun h ↦ hr h.1]
        rfl
      | succ i =>
        have hmem : p.key ∈ keys ((r :: params).take (i + 1)) ↔ p.key ∈ keys (params.take i) :=
          List.mem_cons.trans (or_iff_right (Ne.symm hr))
        simp only [hmem]
        exact ih hi

end

/-! ## All parameters of an operation -/

section

variable {ofPath ofOperation : List Parameter} {key : String × Location} {p : Parameter}

theorem merge_concat (ofPath ofOperation : List Parameter) (p : Parameter) :
    merge ofPath (ofOperation ++ [p]) = override (merge ofPath ofOperation) p :=
  List.foldl_concat ..

/-- The keys of an operation that its path does not have, as they first appear. -/
def newKeys (ofPath ofOperation : List Parameter) : List (String × Location) :=
  ((keys ofOperation).filter (· ∉ keys ofPath)).eraseDups

theorem mem_newKeys : key ∈ newKeys ofPath ofOperation ↔
    key ∈ keys ofOperation ∧ key ∉ keys ofPath := by
  rw [newKeys, List.mem_eraseDups, List.mem_filter, decide_eq_true_iff]

theorem newKeys_concat : newKeys ofPath (ofOperation ++ [p]) =
    if p.key ∈ keys ofPath ∨ p.key ∈ newKeys ofPath ofOperation then newKeys ofPath ofOperation
    else newKeys ofPath ofOperation ++ [p.key] := by
  have hlast : keys [p] = [p.key] := rfl
  simp only [mem_newKeys]
  rw [newKeys, keys_append, List.filter_append, hlast]
  by_cases hpath : p.key ∈ keys ofPath
  · rw [List.filter_cons_of_neg (by simpa using hpath), if_pos (.inl hpath)]
    exact congrArg _ (List.append_nil _)
  · rw [List.filter_cons_of_pos (by simpa using hpath), List.filter_nil, eraseDups_concat]
    simp [hpath, newKeys]

theorem first?_merge (key : String × Location) : first? key (merge ofPath ofOperation) =
    (last? key ofOperation).or (first? key ofPath) := by
  induction ofOperation using List.reverseRecOn with
  | nil => rfl
  | append_singleton ofOperation p ih =>
    rw [merge_concat, first?_override, last?_concat, ih]
    split <;> rfl

theorem keys_merge (ofPath ofOperation : List Parameter) :
    keys (merge ofPath ofOperation) = keys ofPath ++ newKeys ofPath ofOperation := by
  induction ofOperation using List.reverseRecOn with
  | nil => exact (List.append_nil _).symm
  | append_singleton ofOperation p ih =>
    rw [merge_concat, keys_override, newKeys_concat]
    simp only [ih, List.mem_append]
    split
    next => rfl
    next => exact List.append_assoc ..

/-- The parameter at a place of the path is replaced by the last one of the operation with its key
if it is the first one of the path with it, and else stays. -/
theorem getElem?_merge {i : Nat} {q : Parameter} (hi : ofPath[i]? = some q) :
    (merge ofPath ofOperation)[i]? =
      some (if q.key ∈ keys (ofPath.take i) then q else (last? q.key ofOperation).getD q) := by
  induction ofOperation using List.reverseRecOn with
  | nil =>
    rw [last?, List.reverse_nil]
    exact hi.trans (congrArg some (ite_self q).symm)
  | append_singleton ofOperation p ih =>
    have htake : keys ((merge ofPath ofOperation).take i) = keys (ofPath.take i) := by
      have hlength : i ≤ (keys ofPath).length := by
        rw [keys, List.length_map]
        exact Nat.le_of_lt (List.getElem?_eq_some_iff.1 hi).1
      rw [keys_take, keys_merge, List.take_append_of_le_length hlength, keys_take]
    have hkey : (if q.key ∈ keys (ofPath.take i) then q
        else (last? q.key ofOperation).getD q).key = q.key := by
      split
      next => rfl
      next =>
        cases h : last? q.key ofOperation with
        | none => rfl
        | some r => exact key_of_first? h
    -- What stands there may have been replaced before, but its key and the keys in front of it are
    -- still those of the path, and these alone decide on the next step.
    rw [merge_concat, getElem?_override ih, last?_concat, hkey]
    simp only [htake]
    by_cases hpath : q.key ∈ keys (ofPath.take i)
    · have hreplaced : ¬(q.key = p.key ∧ p.key ∉ keys (ofPath.take i)) := fun h ↦ h.2 (h.1 ▸ hpath)
      rw [if_neg hreplaced, if_pos hpath, if_pos hpath]
    · rw [if_neg hpath, if_neg hpath]
      by_cases hp : q.key = p.key
      · rw [if_pos ⟨hp, hp ▸ hpath⟩, if_pos hp.symm]
        rfl
      · rw [if_neg fun h ↦ hp h.1, if_neg (Ne.symm hp)]

/-- What merging the parameters of a path with those of an operation gives. -/
structure Merged (ofPath ofOperation merged : List Parameter) : Prop where
  /-- A key stands for the last parameter of the operation with it, and for the first of the path if
  the operation has none. -/
  first : ∀ key, first? key merged = (last? key ofOperation).or (first? key ofPath)
  mem_keys : ∀ key, key ∈ keys merged ↔ key ∈ keys ofPath ∨ key ∈ keys ofOperation
  /-- The places of the path are kept, and so is what stands there unless it is the first parameter
  with a key that the operation has too. -/
  kept : ∀ i q, ofPath[i]? = some q → merged[i]? =
    some (if q.key ∈ keys (ofPath.take i) then q else (last? q.key ofOperation).getD q)
  /-- New keys follow in the order in which they first appear. -/
  order : keys merged = keys ofPath ++ newKeys ofPath ofOperation
  nodup : (keys ofPath).Nodup → (keys merged).Nodup

/-- The parameters of the operation come before those of the path with the same keys, and the order
of the keys is kept. -/
theorem parameters_merged (ofPath ofOperation : List Parameter) :
    Merged ofPath ofOperation (merge ofPath ofOperation) where
  first := first?_merge
  mem_keys key := by
    rw [keys_merge, List.mem_append, mem_newKeys]
    by_cases hpath : key ∈ keys ofPath <;> simp [hpath]
  kept _ _ := getElem?_merge
  order := keys_merge ofPath ofOperation
  nodup hpath := by
    rw [keys_merge, List.nodup_append]
    refine ⟨hpath, nodup_eraseDups _, ?_⟩
    rintro key hkey _ hnew rfl
    exact (mem_newKeys.1 hnew).2 hkey

end

namespace ItemParameters

def ofPath : List Parameter :=
  [{ name := "id", location := .path, description := some "path" },
    { name := "trace", location := .header }]

def ofOperation : List Parameter :=
  [{ name := "id", location := .query },
    { name := "id", location := .path, description := some "operation" },
    { name := "id", location := .query, required := true }]

end ItemParameters

open ItemParameters in
/-- A parameter of the path is replaced in its place, and one of the operation that stood at the end
already is replaced there. -/
theorem item_parameters_merged : (keys ofPath).Nodup ∧ (keys (merge ofPath ofOperation)).Nodup ∧
    keys (merge ofPath ofOperation) = [("id", .path), ("trace", .header), ("id", .query)] ∧
    (first? ("id", .path) (merge ofPath ofOperation)).map (·.description) =
      some (some "operation") ∧
    (first? ("id", .query) (merge ofPath ofOperation)).map (·.required) = some true := by
  have hmerged := parameters_merged ofPath ofOperation
  have hpath : (keys ofPath).Nodup := by decide
  refine ⟨hpath, hmerged.nodup hpath, hmerged.order.trans (by decide), ?_, ?_⟩
  · rw [hmerged.first]
    rfl
  · rw [hmerged.first]
    rfl

end Parameters

end ApiClient
