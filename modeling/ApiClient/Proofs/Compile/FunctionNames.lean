import ApiClient.Proofs.Text.Numbers
import Mathlib.Data.List.Nodup

/-!
# Names of functions do not clash

A function gets the name that it wants if that is free, and else the next number that makes the name
free. There are more numbers than names, so the search for one always comes to an end.
-/

namespace ApiClient.Names

/-- The search through the numbers from one on ends at a number: those before it have taken names,
and its own name is free. -/
inductive Search (wanted : String) (counts : Counts) : Nat → Nat → Prop where
  | free {n : Nat} (h : ¬Table.has counts (numbered wanted n)) : Search wanted counts n n
  | taken {n m : Nat} (h : Table.has counts (numbered wanted n))
      (hnext : Search wanted counts (n + 1) m) : Search wanted counts n m

variable {wanted : String} {counts : Counts}

theorem Search.not_has {n m : Nat} (h : Search wanted counts n m) :
    ¬Table.has counts (numbered wanted m) := by
  induction h with
  | free h => exact h
  | taken _ _ ih => exact ih

theorem Search.le {n m : Nat} (h : Search wanted counts n m) : n ≤ m := by
  induction h with
  | free _ => exact Nat.le_refl _
  | taken _ _ ih => exact Nat.le_of_succ_le ih

theorem has_of_has_firstFree {steps n : Nat}
    (h : Table.has counts (numbered wanted (firstFree wanted counts steps n))) :
    ∀ k ≤ steps, Table.has counts (numbered wanted (n + k)) := by
  induction steps generalizing n with
  | zero =>
    intro k hk
    obtain rfl := Nat.le_zero.1 hk
    exact h
  | succ steps ih =>
    rw [firstFree] at h
    split at h
    next htaken =>
      intro k hk
      cases k with
      | zero => exact htaken
      | succ k =>
        rw [← Nat.add_assoc, Nat.add_right_comm]
        exact ih h k (Nat.le_of_succ_le_succ hk)
    next hfree => exact absurd h hfree

/-- Among one more number than there are names, one makes a free name. -/
theorem not_has_firstFree {n : Nat} (hn : 0 < n) :
    ¬Table.has counts (numbered wanted (firstFree wanted counts counts.length n)) := by
  intro htaken
  have hnodup : ((List.range (counts.length + 1)).map fun k ↦ numbered wanted (n + k)).Nodup := by
    refine List.Pairwise.map _ (fun a b hab h ↦ hab ?_) List.nodup_range
    have hsum := numbered_injective (by omega) (by omega) h
    omega
  have hsub : ((List.range (counts.length + 1)).map fun k ↦ numbered wanted (n + k)) ⊆
      Table.keys counts := by
    intro name hname
    obtain ⟨k, hk, rfl⟩ := List.mem_map.1 hname
    have hle : k ≤ counts.length := Nat.le_of_lt_succ (List.mem_range.1 hk)
    exact Table.has_iff_mem_keys.1 (has_of_has_firstFree htaken k hle)
  have hle := hnodup.length_le_of_subset hsub
  simp only [List.length_map, List.length_range, Table.keys] at hle
  omega

theorem search_of_not_has {steps n : Nat}
    (h : ¬Table.has counts (numbered wanted (firstFree wanted counts steps n))) :
    Search wanted counts n (firstFree wanted counts steps n) := by
  induction steps generalizing n with
  | zero => exact .free h
  | succ steps ih =>
    rw [firstFree] at h ⊢
    split at h
    next htaken =>
      rw [if_pos htaken]
      exact .taken htaken (ih h)
    next hfree =>
      rw [if_neg hfree]
      exact .free hfree

theorem Search.eq_one {n : Nat} (h : Search wanted counts 1 n) (hfree : ¬Table.has counts wanted) :
    n = 1 := by
  cases h with
  | free => rfl
  | taken htaken => exact absurd htaken hfree

/-- What a reservation does: the search from the next number on ends, its name is given, and that
name is taken from then on. -/
theorem reserve_search (wanted : String) (counts : Counts) :
    ∃ n, Search wanted counts ((Table.get? wanted counts).getD 0 + 1) n ∧
      (reserve wanted counts).1 = numbered wanted n ∧
      ∀ name, Table.has (reserve wanted counts).2 name ↔
        name = numbered wanted n ∨ Table.has counts name := by
  have hfree : ¬Table.has counts (numbered wanted (firstFree wanted counts counts.length
      ((Table.get? wanted counts).getD 0 + 1))) := not_has_firstFree (Nat.succ_pos _)
  have hsearch := search_of_not_has hfree
  refine ⟨_, hsearch, rfl, fun name ↦ ?_⟩
  generalize hn : firstFree wanted counts counts.length ((Table.get? wanted counts).getD 0 + 1) = n
    at hsearch ⊢
  have hcounts : (reserve wanted counts).2 =
      Table.put wanted n (if n > 1 then Table.put (numbered wanted n) 1 counts else counts) := by
    simp only [reserve, hn]
  have hpos : 1 ≤ n := Nat.le_trans (Nat.le_add_left 1 _) hsearch.le
  rw [hcounts, Table.has_put]
  split
  next hmany =>
    -- only a name that is taken itself gets a number
    have hwanted : Table.has counts wanted := by
      by_contra hfree
      rw [Table.get?_eq_none_iff.2 hfree] at hsearch
      have hone := hsearch.eq_one hfree
      omega
    rw [Table.has_put]
    constructor
    · rintro (rfl | h)
      · exact .inr hwanted
      · exact h
    · exact .inr
  next hone =>
    obtain rfl : n = 1 := by omega
    rw [numbered_one]

theorem reserve_not_has (wanted : String) (counts : Counts) :
    ¬Table.has counts (reserve wanted counts).1 := by
  obtain ⟨n, hsearch, hname, -⟩ := reserve_search wanted counts
  exact hname ▸ hsearch.not_has

theorem has_reserve {name : String} : Table.has (reserve wanted counts).2 name ↔
    name = (reserve wanted counts).1 ∨ Table.has counts name := by
  obtain ⟨n, -, hname, hhas⟩ := reserve_search wanted counts
  rw [hname]
  exact hhas name

theorem reserve_eq_wanted : (reserve wanted counts).1 = wanted ↔ ¬Table.has counts wanted := by
  constructor
  · intro h
    exact h ▸ reserve_not_has wanted counts
  · intro hfree
    obtain ⟨n, hsearch, hname, -⟩ := reserve_search wanted counts
    rw [Table.get?_eq_none_iff.2 hfree] at hsearch
    rw [hname, hsearch.eq_one hfree, numbered_one]

theorem has_giveAll_reserve {names : List String} {name : String} :
    Table.has (giveAll reserve names counts).2 name ↔
      name ∈ (giveAll reserve names counts).1 ∨ Table.has counts name := by
  induction names generalizing counts with
  | nil => simp
  | cons wanted rest ih =>
    rw [giveAll_cons, ih, has_reserve, List.mem_cons]
    exact or_left_comm.trans or_assoc.symm

theorem giveAll_reserve_nodup (names : List String) (counts : Counts) :
    (giveAll reserve names counts).1.Nodup ∧
      ∀ name ∈ (giveAll reserve names counts).1, ¬Table.has counts name := by
  induction names generalizing counts with
  | nil => simp
  | cons wanted rest ih =>
    obtain ⟨hnodup, hfree⟩ := ih (reserve wanted counts).2
    rw [giveAll_cons]
    refine ⟨List.nodup_cons.2 ⟨fun hmem ↦ ?_, hnodup⟩, fun name hname hhas ↦ ?_⟩
    · exact hfree _ hmem (has_reserve.2 (.inl rfl))
    · rcases List.mem_cons.1 hname with rfl | hname
      · exact reserve_not_has wanted counts hhas
      · exact hfree name hname (has_reserve.2 (.inr hhas))

/-- A name that does not end in a digit is given exactly if it is wanted. -/
theorem mem_giveAll_reserve {wanted : List String} {name : String}
    (hlast : ∀ c ∈ name.toList.getLast?, c.isDigit = false) :
    name ∈ (giveAll reserve wanted []).1 ↔ name ∈ wanted := by
  constructor
  · intro h
    obtain ⟨w, hw, hsuffixed⟩ := exists_suffixed_of_mem_giveAll h
    exact hsuffixed.eq_wanted hlast ▸ hw
  · intro h
    obtain ⟨before, after, rfl⟩ := List.append_of_mem h
    rw [giveAll_append, giveAll_cons, List.mem_append]
    by_cases hgiven : name ∈ (giveAll reserve before []).1
    · exact .inl hgiven
    · have hfree : ¬Table.has (giveAll reserve before []).2 name := by
        rw [has_giveAll_reserve]
        simp [hgiven, Table.has]
      rw [reserve_eq_wanted.2 hfree]
      exact .inr List.mem_cons_self

/-- The names that are given for requests one after the other are distinct and taken afterwards. For
each request the search ends, the name with the number found is given, and it is the wanted name
exactly if that has not been given before. -/
theorem reserved_names_distinct (names : List String) :
    (giveAll reserve names []).1.Nodup ∧
    (∀ name ∈ (giveAll reserve names []).1, Table.has (giveAll reserve names []).2 name) ∧
    ∀ before wanted after, names = before ++ wanted :: after →
      ∃ given counts n rest, giveAll reserve before [] = (given, counts) ∧
        Search wanted counts ((Table.get? wanted counts).getD 0 + 1) n ∧
        (giveAll reserve names []).1 = given ++ numbered wanted n :: rest ∧
        (numbered wanted n = wanted ↔ wanted ∉ given) := by
  refine ⟨(giveAll_reserve_nodup names []).1, fun name hname ↦ has_giveAll_reserve.2 (.inl hname),
    ?_⟩
  rintro before wanted after rfl
  obtain ⟨n, hsearch, hname, -⟩ := reserve_search wanted (giveAll reserve before []).2
  have hnames : (giveAll reserve (before ++ wanted :: after) []).1 =
      (giveAll reserve before []).1 ++ numbered wanted n ::
        (giveAll reserve after (reserve wanted (giveAll reserve before []).2).2).1 := by
    rw [giveAll_append, giveAll_cons, hname]
  refine ⟨_, _, n, _, rfl, hsearch, hnames, ?_⟩
  rw [← hname, reserve_eq_wanted, has_giveAll_reserve]
  simp [Table.has]

/-- A number is passed over because a function has asked for the name with it. -/
theorem number_passed_over :
    (giveAll reserve ["getPets2", "getPets", "getPets"] []).1 =
        ["getPets2", "getPets", "getPets3"] ∧
      (giveAll reserve ["getPets2", "getPets", "getPets"] []).1.Nodup ∧
      ∃ n, Search "getPets" [("getPets2", 1), ("getPets", 1)] 2 n ∧
        numbered "getPets" n ≠ "getPets" := by
  obtain ⟨hnodup, -, hcalls⟩ := reserved_names_distinct ["getPets2", "getPets", "getPets"]
  obtain ⟨given, counts, n, rest, hbefore, hsearch, -, hwanted⟩ :=
    hcalls ["getPets2", "getPets"] "getPets" [] rfl
  have hstate : giveAll reserve ["getPets2", "getPets"] [] =
      (["getPets2", "getPets"], [("getPets2", 1), ("getPets", 1)]) := by decide
  rw [hstate] at hbefore
  cases hbefore
  refine ⟨by decide, hnodup, n, hsearch, fun h ↦ hwanted.1 h (by decide)⟩

end ApiClient.Names
