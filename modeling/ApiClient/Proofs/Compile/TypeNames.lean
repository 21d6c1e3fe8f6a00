import ApiClient.Proofs.Text.Numbers
import Mathlib.Data.List.Induction
import Mathlib.Data.List.Nodup

/-!
# When names of types clash

A type that wants a name given before gets the name with the count of its requests. Nobody asks
whether that is free, so it can be one that another type has asked for, or one made from another
name. What the count comes to and which words lead to clashes is made precise here.
-/

namespace ApiClient.Names

abbrev typeNames (wanted : List String) : List String :=
  (giveAll allocate wanted []).1

abbrev typeCounts (wanted : List String) : Counts :=
  (giveAll allocate wanted []).2

/-- The requests with the names given for them, the last one first. -/
def requests (wanted : List String) : List (String × String) :=
  (wanted.zip (typeNames wanted)).reverse

/-- How often a name counts as asked for: once when it was given last, and once for each request
since then. -/
def tally (name : String) : List (String × String) → Nat
  | [] => 0
  | (wanted, given) :: earlier =>
    if given = name then 1
    else if wanted = name then tally name earlier + 1
    else tally name earlier

variable {word name : String} {counts : Counts} {wanted before : List String} {n : Nat}

theorem allocate_of_none (h : Table.get? word counts = none) :
    allocate word counts = (word, Table.put word 1 counts) := by
  rw [allocate, h]

theorem allocate_of_some (h : Table.get? word counts = some n) :
    allocate word counts = (word ++ toString (n + 1),
      Table.put (word ++ toString (n + 1)) 1 (Table.put word (n + 1) counts)) := by
  rw [allocate, h]

theorem has_allocate : Table.has (allocate word counts).2 name ↔
    name = (allocate word counts).1 ∨ Table.has counts name := by
  cases h : Table.get? word counts with
  | none => rw [allocate_of_none h, Table.has_put]
  | some n =>
    rw [allocate_of_some h, Table.has_put, Table.has_put]
    have hword : Table.has counts word := by
      rw [Table.has_eq_isSome, h]
      rfl
    constructor
    · rintro (rfl | rfl | hhas)
      · exact .inl rfl
      · exact .inr hword
      · exact .inr hhas
    · exact fun h ↦ h.imp_right .inr

theorem typeNames_append (before after : List String) :
    typeNames (before ++ after) =
      typeNames before ++ (giveAll allocate after (typeCounts before)).1 := by
  rw [typeNames, giveAll_append]

theorem typeNames_concat (wanted : List String) (word : String) :
    typeNames (wanted ++ [word]) =
      typeNames wanted ++ [(allocate word (typeCounts wanted)).1] :=
  typeNames_append wanted [word]

theorem typeCounts_concat (wanted : List String) (word : String) :
    typeCounts (wanted ++ [word]) = (allocate word (typeCounts wanted)).2 := by
  rw [typeCounts, giveAll_append]
  rfl

theorem length_typeNames (wanted : List String) : (typeNames wanted).length = wanted.length := by
  induction wanted using List.reverseRecOn with
  | nil => rfl
  | append_singleton wanted word ih => simp [typeNames_concat, ih]

theorem requests_concat (wanted : List String) (word : String) :
    requests (wanted ++ [word]) =
      (word, (allocate word (typeCounts wanted)).1) :: requests wanted := by
  unfold requests
  rw [typeNames_concat, List.zip_append (length_typeNames wanted).symm, List.reverse_append]
  rfl

theorem typeNames_pair (word : String) :
    typeNames [word, word] = [word, word ++ toString 2] := by
  simp [typeNames, giveAll_cons, allocate, Table.get?, Table.put]

theorem has_typeCounts : Table.has (typeCounts wanted) name ↔ name ∈ typeNames wanted := by
  induction wanted using List.reverseRecOn with
  | nil => simp [Table.has, typeNames, typeCounts]
  | append_singleton wanted word ih =>
    rw [typeCounts_concat, has_allocate, ih, typeNames_concat, List.mem_append, List.mem_singleton,
      or_comm]

theorem mem_typeNames_of_get? (h : Table.get? name (typeCounts wanted) = some n) :
    name ∈ typeNames wanted := by
  rw [← has_typeCounts, Table.has_eq_isSome, h]
  rfl

theorem getD_typeCounts (name : String) (wanted : List String) :
    (Table.get? name (typeCounts wanted)).getD 0 = tally name (requests wanted) := by
  induction wanted using List.reverseRecOn with
  | nil => rfl
  | append_singleton wanted word ih =>
    rw [typeCounts_concat, requests_concat, tally]
    cases hword : Table.get? word (typeCounts wanted) with
    | none =>
      rw [allocate_of_none hword, Table.get?_put]
      by_cases hname : word = name
      · rw [if_pos hname, if_pos hname]
        rfl
      · rw [if_neg hname, if_neg hname, if_neg hname]
        exact ih
    | some n =>
      rw [allocate_of_some hword, Table.get?_put, Table.get?_put]
      by_cases hgiven : word ++ toString (n + 1) = name
      · rw [if_pos hgiven, if_pos hgiven]
        rfl
      · rw [if_neg hgiven, if_neg hgiven]
        by_cases hname : word = name
        · subst hname
          rw [if_pos rfl, if_pos rfl, ← ih, hword]
          rfl
        · rw [if_neg hname, if_neg hname]
          exact ih

theorem tally_eq_zero (h : name ∉ typeNames wanted) : tally name (requests wanted) = 0 := by
  rw [← has_typeCounts, ← Table.get?_eq_none_iff] at h
  rw [← getD_typeCounts, h, Option.getD_none]

theorem tally_pos (h : name ∈ typeNames wanted) : 0 < tally name (requests wanted) := by
  induction wanted using List.reverseRecOn with
  | nil => cases h
  | append_singleton wanted word ih =>
    rw [typeNames_concat, List.mem_append, List.mem_singleton] at h
    rw [requests_concat, tally]
    split
    next => exact Nat.one_pos
    next hgiven =>
      have hpos := ih (h.resolve_right (Ne.symm hgiven))
      split <;> omega

theorem allocate_typeCounts (word : String) (before : List String) :
    (allocate word (typeCounts before)).1 = numbered word (tally word (requests before) + 1) := by
  have hcount := getD_typeCounts word before
  cases hword : Table.get? word (typeCounts before) with
  | none =>
    rw [hword] at hcount
    rw [allocate_of_none hword, ← hcount]
    rfl
  | some n =>
    have hpos := tally_pos (mem_typeNames_of_get? hword)
    rw [allocate_of_some hword, numbered_of_lt (by omega), ← hcount, hword, Option.getD_some]

theorem tally_concat_self (word : String) (wanted : List String) :
    tally word (requests (wanted ++ [word])) = tally word (requests wanted) + 1 := by
  rw [requests_concat, allocate_typeCounts, tally]
  split
  next hgiven =>
    have hone := numbered_injective (Nat.succ_pos _) Nat.one_pos (hgiven.trans rfl)
    omega
  next => rw [if_pos rfl]

theorem tally_concat_of_ne (hgiven : (allocate word (typeCounts wanted)).1 ≠ name)
    (hword : word ≠ name) :
    tally name (requests (wanted ++ [word])) = tally name (requests wanted) := by
  rw [requests_concat, tally, if_neg hgiven, if_neg hword]

theorem typeNames_nodup_iff : (typeNames wanted).Nodup ↔
    ∀ before word after, wanted = before ++ word :: after →
      (allocate word (typeCounts before)).1 ∉ typeNames before := by
  constructor
  · rintro h before word after rfl hmem
    rw [typeNames_append, giveAll_cons] at h
    exact List.disjoint_of_nodup_append h hmem List.mem_cons_self
  · intro h
    induction wanted using List.reverseRecOn with
    | nil => exact List.nodup_nil
    | append_singleton wanted word ih =>
      have hwanted : (typeNames wanted).Nodup := by
        refine ih fun before word' after hsplit ↦ h before word' (after ++ [word]) ?_
        rw [hsplit, List.append_assoc, List.cons_append]
      rw [typeNames_concat]
      exact hwanted.append (List.nodup_singleton _)
        (List.disjoint_singleton.2 (h wanted word [] rfl))

/-- None of the words is another one, or itself, with a number after it. -/
def Apart (words : String → Prop) : Prop :=
  ∀ word n, words word → 0 < n → ¬words (word ++ toString n)

section

variable {words : String → Prop}

theorem Apart.numbered_inj (hwords : Apart words) {u v : String} {m n : Nat} (hu : words u)
    (hv : words v) (hm : 0 < m) (hn : 0 < n) (h : numbered u m = numbered v n) :
    u = v ∧ m = n := by
  unfold numbered at h
  split at h <;> split at h
  · rcases Text.eq_or_number_between h with heq | ⟨k, hk, rfl⟩ | ⟨k, hk, rfl⟩
    · exact heq
    · exact absurd hu (hwords v k hv hk)
    · exact absurd hv (hwords u k hu hk)
  · exact absurd hv (h ▸ hwords u m hu hm)
  · exact absurd hu (h ▸ hwords v n hv hn)
  · exact ⟨h, by omega⟩

/-- The count of a word that is apart is never behind a number that was given with it. -/
theorem Apart.le_tally (hwords : Apart words) (hwanted : ∀ word ∈ wanted, words word) {m : Nat}
    (hword : words word) (hm : 0 < m) (hmem : numbered word m ∈ typeNames wanted) :
    m ≤ tally word (requests wanted) := by
  induction wanted using List.reverseRecOn generalizing word m with
  | nil => cases hmem
  | append_singleton wanted last ih =>
    have hlast : words last := hwanted last (List.mem_append_right _ List.mem_cons_self)
    have hbefore : ∀ word ∈ wanted, words word := fun w hw ↦ hwanted w (List.mem_append_left _ hw)
    rw [typeNames_concat, List.mem_append, List.mem_singleton, allocate_typeCounts] at hmem
    by_cases hsame : last = word
    · subst hsame
      rw [tally_concat_self]
      rcases hmem with hmem | hmem
      · exact Nat.le_succ_of_le (ih hbefore hword hm hmem)
      · exact (hwords.numbered_inj hword hword hm (Nat.succ_pos _) hmem).2 ▸ Nat.le_refl _
    · have hother : numbered last (tally last (requests wanted) + 1) ≠ numbered word 1 :=
        fun h ↦ hsame (hwords.numbered_inj hlast hword (Nat.succ_pos _) Nat.one_pos h).1
      rw [tally_concat_of_ne (by rwa [allocate_typeCounts]) hsame]
      rcases hmem with hmem | hmem
      · exact ih hbefore hword hm hmem
      · exact absurd (hwords.numbered_inj hword hlast hm (Nat.succ_pos _) hmem).1.symm hsame

theorem Apart.nodup (hwords : Apart words) (hwanted : ∀ word ∈ wanted, words word) :
    (typeNames wanted).Nodup := by
  rw [typeNames_nodup_iff]
  rintro before word after rfl hmem
  rw [allocate_typeCounts] at hmem
  have hle := hwords.le_tally (fun w hw ↦ hwanted w (List.mem_append_left _ hw))
    (hwanted word (List.mem_append_right _ List.mem_cons_self)) (Nat.succ_pos _) hmem
  omega

theorem tally_replicate (h : word ∉ typeNames before) (n : Nat) :
    tally word (requests (before ++ List.replicate n word)) = n := by
  induction n with
  | zero => rw [List.replicate_zero, List.append_nil, tally_eq_zero h]
  | succ n ih => rw [List.replicate_succ', ← List.append_assoc, tally_concat_self, ih]

theorem not_nodup_replicate (h : word ∉ typeNames before) (hn : 0 < n)
    (hgiven : numbered word n ∈ typeNames before) :
    ¬(typeNames (before ++ List.replicate n word)).Nodup := by
  obtain ⟨n, rfl⟩ := Nat.exists_eq_succ_of_ne_zero (Nat.ne_of_gt hn)
  rw [typeNames_nodup_iff]
  intro hnodup
  refine hnodup (before ++ List.replicate n word) word [] ?_ ?_
  · rw [List.replicate_succ', List.append_assoc]
  · rw [allocate_typeCounts, tally_replicate h, typeNames_append]
    exact List.mem_append_left _ hgiven

/-- Asking for the longer word twice gives the name that the shorter one has in the end. -/
theorem not_nodup_of_longer (hn : 0 < n) :
    ∃ m, ¬(typeNames
      ([word ++ toString n, word ++ toString n] ++ List.replicate m word)).Nodup := by
  have hpair : typeNames [word ++ toString n, word ++ toString n] =
      [word ++ toString n, word ++ toString (10 * n + 2)] := by
    rw [typeNames_pair, String.append_assoc, ← Text.number_append_digit hn (by decide)]
  have hgiven : numbered word (10 * n + 2) ∈
      typeNames [word ++ toString n, word ++ toString n] := by
    rw [hpair, numbered_of_lt (by omega)]
    exact List.mem_cons_of_mem _ List.mem_cons_self
  have hnew : word ∉ typeNames [word ++ toString n, word ++ toString n] := by
    rw [hpair]
    intro hmem
    rcases List.mem_pair.1 hmem with h | h
    · exact Text.append_number_ne word _ h.symm
    · exact Text.append_number_ne word _ h.symm
  exact ⟨10 * n + 2, not_nodup_replicate hnew (by omega) hgiven⟩

theorem Apart.of_nodup
    (h : ∀ wanted, (∀ word ∈ wanted, words word) → (typeNames wanted).Nodup) : Apart words := by
  intro word n hword hn hlonger
  obtain ⟨m, hm⟩ := not_nodup_of_longer hn
  apply hm
  apply h
  intro w hw
  rcases List.mem_append.1 hw with hw | hw
  · have hlong : w = word ++ toString n := by simpa using hw
    exact hlong ▸ hlonger
  · exact List.eq_of_mem_replicate hw ▸ hword

end

/-- A request gives a new name, unless its word and the word with the next number are both taken. -/
theorem allocate_notMem_iff : (allocate word (typeCounts before)).1 ∉ typeNames before ↔
    (word ∈ typeNames before →
      word ++ toString (tally word (requests before) + 1) ∉ typeNames before) := by
  rw [allocate_typeCounts]
  constructor
  · intro hnew hmem
    rwa [numbered_of_lt (Nat.succ_lt_succ (tally_pos hmem))] at hnew
  · intro hnew hgiven
    by_cases hmem : word ∈ typeNames before
    · rw [numbered_of_lt (Nat.succ_lt_succ (tally_pos hmem))] at hgiven
      exact hnew hmem hgiven
    · rw [tally_eq_zero hmem, Nat.zero_add, numbered_one] at hgiven
      exact hmem hgiven

/-- A name is given twice exactly if a name that was given before is asked for, and the name with
the number after its count was given before as well. Whatever of some words is asked for, in
whatever order, none is given twice exactly if none of them is another one with a number after it.
-/
theorem allocated_distinct_iff (wanted : List String) (words : String → Prop) :
    ((typeNames wanted).Nodup ↔
      ∀ before word after, wanted = before ++ word :: after → word ∈ typeNames before →
        word ++ toString (tally word (requests before) + 1) ∉ typeNames before) ∧
    ((∀ wanted, (∀ word ∈ wanted, words word) → (typeNames wanted).Nodup) ↔ Apart words) := by
  constructor
  · rw [typeNames_nodup_iff]
    exact forall₃_congr fun before word after ↦ imp_congr_right fun _ ↦ allocate_notMem_iff
  · exact ⟨.of_nodup, fun hwords wanted ↦ hwords.nodup⟩

/-- The name that the third type gets is the one that the second type has asked for. -/
theorem asked_name_given_twice :
    typeNames ["Category", "Category2", "Category"] = ["Category", "Category2", "Category2"] ∧
      ¬(typeNames ["Category", "Category2", "Category"]).Nodup := by
  refine ⟨by decide, fun h ↦ ?_⟩
  have hnew := (allocated_distinct_iff _ fun _ ↦ True).1.1 h
  exact hnew ["Category", "Category2"] "Category" [] rfl (by decide) (by decide)

end ApiClient.Names
