import ApiClient.Proofs.Operation.Arguments
import ApiClient.Proofs.Operation.Merging

/-!
# When the names of arguments are distinct

Names are given to the parameters with shorter names first, and in order among names of one length.
A parameter whose identifier was given before gets the identifier with its location, whether or not
that was given before as well. So two arguments have one name exactly if a parameter finds both of
its names given to parameters that come earlier in this order.
-/

namespace ApiClient

open TypeScript

namespace Parameters

/-! ## The order in which names are given -/

/-- Whether a parameter, with its position, gets its name before another. -/
def Earlier (a b : Nat × Parameter) : Prop :=
  byteLength a.2.name < byteLength b.2.name ∨
    byteLength a.2.name = byteLength b.2.name ∧ a.1 < b.1

theorem Earlier.irrefl (a : Nat × Parameter) : ¬Earlier a a := by
  rintro (h | ⟨-, h⟩) <;> exact Nat.lt_irrefl _ h

theorem Earlier.asymm {a b : Nat × Parameter} (h : Earlier a b) : ¬Earlier b a := by
  unfold Earlier at *
  omega

theorem Earlier.trans {a b c : Nat × Parameter} (hab : Earlier a b) (hbc : Earlier b c) :
    Earlier a c := by
  unfold Earlier at *
  omega

theorem pairwise_insertByLength {entry : Nat × Parameter} {sorted : List (Nat × Parameter)}
    (hsorted : sorted.Pairwise Earlier) (hlast : ∀ e ∈ sorted, e.1 < entry.1) :
    (insertByLength entry sorted).Pairwise Earlier := by
  induction sorted with
  | nil => exact List.pairwise_singleton _ _
  | cons e rest ih =>
    rw [List.pairwise_cons] at hsorted
    rw [List.forall_mem_cons] at hlast
    rw [insertByLength]
    split
    next hle =>
      refine List.pairwise_cons.2 ⟨fun other hother ↦ ?_, ih hsorted.2 hlast.2⟩
      rcases List.mem_cons.1 ((perm_insertByLength entry rest).mem_iff.1 hother) with rfl | hrest
      · exact (Nat.lt_or_eq_of_le hle).imp_right fun heq ↦ ⟨heq, hlast.1⟩
      · exact hsorted.1 other hrest
    next hle =>
      have hfirst : Earlier entry e := .inl (Nat.lt_of_not_le hle)
      refine List.pairwise_cons.2 ⟨?_, List.pairwise_cons.2 hsorted⟩
      refine List.forall_mem_cons.2 ⟨hfirst, fun other hother ↦ ?_⟩
      exact hfirst.trans (hsorted.1 other hother)

theorem byLength_concat (params : List Parameter) (p : Parameter) :
    byLength (params ++ [p]) = insertByLength (params.length, p) (byLength params) := by
  rw [byLength, List.zipIdx_append, List.foldl_append]
  simp [byLength]

theorem mem_byLength_iff {params : List Parameter} {i : Nat} {p : Parameter} :
    (i, p) ∈ byLength params ↔ params[i]? = some p := by
  rw [(perm_byLength params).mem_iff]
  simp [List.mem_zipIdx_iff_getElem?]

theorem pairwise_byLength (params : List Parameter) : (byLength params).Pairwise Earlier := by
  induction params using List.reverseRecOn with
  | nil => exact .nil
  | append_singleton params p ih =>
    rw [byLength_concat]
    refine pairwise_insertByLength ih fun entry hentry ↦ ?_
    exact (List.getElem?_eq_some_iff.1 (mem_byLength_iff.1 hentry)).1

/-! ## The name at a position -/

theorem nodup_keys_nameEach (params : List Parameter) :
    ((nameEach [] (byLength params)).map (·.1)).Nodup := by
  rw [keys_nameEach, (keys_byLength params).nodup_iff]
  exact List.nodup_range

theorem lookup_eq_some_iff_mem {β : Type} {entries : List (Nat × β)}
    (h : (entries.map (·.1)).Nodup) {i : Nat} {b : β} :
    entries.lookup i = some b ↔ (i, b) ∈ entries := by
  induction entries with
  | nil => simp
  | cons entry rest ih =>
    obtain ⟨j, c⟩ := entry
    rw [List.map_cons, List.nodup_cons] at h
    by_cases hij : i = j
    · subst hij
      have hrest : (i, b) ∉ rest := fun hmem ↦ h.1 (List.mem_map.2 ⟨(i, b), hmem, rfl⟩)
      simp [hrest, eq_comm]
    · rw [List.lookup_cons, beq_false_of_ne hij, ih h.2]
      simp [hij]

theorem getElem?_argumentNames_iff {params : List Parameter} {i : Nat} {x : String} :
    (argumentNames params)[i]? = some x ↔ (i, x) ∈ nameEach [] (byLength params) := by
  have hkeys : i ∈ (nameEach [] (byLength params)).map (·.1) ↔ i < params.length := by
    rw [keys_nameEach, (keys_byLength params).mem_iff, List.mem_range]
  have hlookup {y : String} := @lookup_eq_some_iff_mem _ _ (nodup_keys_nameEach params) i y
  rw [argumentNames, List.getElem?_map]
  by_cases hi : i < params.length
  · obtain ⟨⟨j, y⟩, hy, rfl⟩ := List.mem_map.1 (hkeys.2 hi)
    rw [List.getElem?_range hi, Option.map_some, hlookup.2 hy, ← hlookup, hlookup.2 hy]
    rfl
  · rw [List.getElem?_eq_none (by simpa using hi), Option.map_none]
    exact iff_of_false (by simp) fun hx ↦ hi (hkeys.1 (List.mem_map.2 ⟨(i, x), hx, rfl⟩))

theorem nameEach_append (taken : List String) (before after : List (Nat × Parameter)) :
    ∃ taken', nameEach taken (before ++ after) =
      nameEach taken before ++ nameEach taken' after := by
  induction before generalizing taken with
  | nil => exact ⟨taken, rfl⟩
  | cons entry before ih =>
    obtain ⟨i, p⟩ := entry
    obtain ⟨taken', h⟩ := ih (argumentName taken p :: taken)
    refine ⟨taken', ?_⟩
    rw [List.cons_append, nameEach, nameEach, h]
    rfl

/-- Some parameter that gets its name before another one gets the name `x`. -/
def GivenBefore (params : List Parameter) (entry : Nat × Parameter) (x : String) : Prop :=
  ∃ j q, params[j]? = some q ∧ Earlier (j, q) entry ∧ (argumentNames params)[j]? = some x

/-- The names in front of a parameter are those of the parameters that come earlier. -/
theorem mem_given_iff {params : List Parameter} {before after : List (Nat × Parameter)} {i : Nat}
    {p : Parameter} (h : byLength params = before ++ (i, p) :: after) {x : String} :
    x ∈ given before ↔ GivenBefore params (i, p) x := by
  have hsorted := pairwise_byLength params
  rw [h, List.pairwise_append, List.pairwise_cons] at hsorted
  obtain ⟨taken, hnames⟩ := nameEach_append [] before ((i, p) :: after)
  rw [← h] at hnames
  have hkeys := nodup_keys_nameEach params
  rw [hnames, List.map_append, keys_nameEach, keys_nameEach] at hkeys
  constructor
  · intro hx
    obtain ⟨⟨j, y⟩, hy, rfl⟩ := List.mem_map.1 hx
    have hj : j ∈ before.map (·.1) := keys_nameEach [] before ▸ List.mem_map.2 ⟨(j, y), hy, rfl⟩
    obtain ⟨⟨j, q⟩, hq, rfl⟩ := List.mem_map.1 hj
    have hmem : (j, q) ∈ byLength params := h ▸ List.mem_append_left _ hq
    refine ⟨j, q, mem_byLength_iff.1 hmem, hsorted.2.2 _ hq _ List.mem_cons_self, ?_⟩
    exact getElem?_argumentNames_iff.2 (hnames ▸ List.mem_append_left _ hy)
  · rintro ⟨j, q, hq, hearlier, hx⟩
    rw [← mem_byLength_iff, h, List.mem_append, List.mem_cons] at hq
    have hbefore : (j, q) ∈ before := by
      rcases hq with hq | heq | hq
      · exact hq
      · exact absurd (heq ▸ hearlier) (Earlier.irrefl _)
      · exact absurd hearlier (hsorted.2.1.1 _ hq).asymm
    rw [getElem?_argumentNames_iff, hnames, List.mem_append] at hx
    refine hx.elim (fun hx ↦ List.mem_map.2 ⟨(j, x), hx, rfl⟩) fun hx ↦ ?_
    have hj : j ∈ ((i, p) :: after).map (·.1) :=
      keys_nameEach taken _ ▸ List.mem_map.2 ⟨(j, x), hx, rfl⟩
    have hj' : j ∈ before.map (·.1) := List.mem_map.2 ⟨(j, q), hbefore, rfl⟩
    exact absurd rfl ((List.nodup_append.1 hkeys).2.2 j hj' j hj)

/-- A parameter gets the name that is left to it by the names that were given before. -/
theorem exists_argumentName {params : List Parameter} {i : Nat} {p : Parameter}
    (hp : params[i]? = some p) : ∃ taken, (∀ x, x ∈ taken ↔ GivenBefore params (i, p) x) ∧
      (argumentNames params)[i]? = some (argumentName taken p) := by
  obtain ⟨before, after, h⟩ := List.append_of_mem (mem_byLength_iff.2 hp)
  refine ⟨(given before).reverse, fun x ↦ ?_, ?_⟩
  · rw [List.mem_reverse, mem_given_iff h]
  · have hsplit : byLength params = (before ++ [(i, p)]) ++ after := by
      rw [h, List.append_assoc, List.singleton_append]
    obtain ⟨taken, hnames⟩ := nameEach_append [] (before ++ [(i, p)]) after
    rw [nameEach_concat, List.append_nil] at hnames
    rw [getElem?_argumentNames_iff, hsplit, hnames]
    apply List.mem_append_left
    exact List.mem_append_right _ List.mem_cons_self

theorem eq_of_getElem?_argumentNames {params : List Parameter} {i : Nat} {p : Parameter}
    {x : String} (hp : params[i]? = some p) (hx : (argumentNames params)[i]? = some x) :
    x = toIdentifier p.name ∨ x = suffixedName p := by
  obtain ⟨taken, -, hname⟩ := exists_argumentName hp
  obtain rfl := Option.some_inj.1 (hx.symm.trans hname)
  by_cases htaken : toIdentifier p.name ∈ taken
  · exact .inr (argumentName_of_mem htaken)
  · exact .inl (argumentName_of_not_mem htaken)

/-! ## Distinct names -/

theorem nodup_argumentNames_of_not_givenBefore {params : List Parameter}
    (h : ∀ i p, params[i]? = some p → ¬(GivenBefore params (i, p) (toIdentifier p.name) ∧
      GivenBefore params (i, p) (suffixedName p))) : (argumentNames params).Nodup := by
  rw [(perm_argumentNames params).nodup_iff, nodup_given_iff]
  intro before i p after hsplit
  have hmem : (i, p) ∈ byLength params := hsplit ▸ List.mem_append_right _ List.mem_cons_self
  rw [mem_given_iff hsplit, mem_given_iff hsplit]
  exact h i p (mem_byLength_iff.1 hmem)

/-- The names of the arguments are distinct if and only if no parameter finds both its identifier
and its identifier with the location given to parameters that come earlier. -/
theorem argument_names_distinct_iff (params : List Parameter) : (argumentNames params).Nodup ↔
    ∀ i p, params[i]? = some p → ¬(GivenBefore params (i, p) (toIdentifier p.name) ∧
      GivenBefore params (i, p) (suffixedName p)) := by
  refine ⟨fun hnodup i p hp ↦ ?_, nodup_argumentNames_of_not_givenBefore⟩
  rw [(perm_argumentNames params).nodup_iff, nodup_given_iff] at hnodup
  obtain ⟨before, after, h⟩ := List.append_of_mem (mem_byLength_iff.2 hp)
  rw [← mem_given_iff h, ← mem_given_iff h]
  exact hnodup before i p after h

theorem suffixedName_eq_iff {p q : Parameter} : suffixedName p = suffixedName q ↔
    toIdentifier p.name = toIdentifier q.name ∧ p.location = q.location := by
  constructor
  · intro h
    have hlast (location : Location) (s : String) :
        (s ++ Text.upperFirst location.word).toList.getLast? =
          (Text.upperFirst location.word).toList.getLast? := by
      have hsome : (Text.upperFirst location.word).toList.getLast?.isSome := by
        cases location <;> decide +kernel
      rw [String.toList_append, List.getLast?_append, Option.or_of_isSome hsome]
    have hends := congrArg (fun s ↦ s.toList.getLast?) h
    dsimp only [suffixedName] at hends
    rw [hlast, hlast] at hends
    have hlocation : p.location = q.location := by
      generalize p.location = a at hends
      generalize q.location = b at hends
      revert hends
      cases a <;> cases b <;> decide +kernel
    refine ⟨?_, hlocation⟩
    rw [suffixedName, suffixedName, hlocation, ← String.toList_inj, String.toList_append,
      String.toList_append] at h
    exact String.toList_inj.1 (List.append_cancel_right h)
  · rintro ⟨hname, hlocation⟩
    rw [suffixedName, suffixedName, hname, hlocation]

/-- It is enough that the identifiers at each location are distinct and that none of them is an
identifier with a location. -/
theorem nodup_argumentNames {params : List Parameter}
    (hlocated : params.Pairwise fun p q ↦
      toIdentifier p.name = toIdentifier q.name → p.location ≠ q.location)
    (hplain : ∀ p ∈ params, ∀ q ∈ params, toIdentifier p.name ≠ suffixedName q) :
    (argumentNames params).Nodup := by
  refine nodup_argumentNames_of_not_givenBefore ?_
  rintro i p hp ⟨-, j, q, hq, hearlier, hname⟩
  rcases eq_of_getElem?_argumentNames hq hname with heq | heq
  · exact hplain q (List.mem_of_getElem? hq) p (List.mem_of_getElem? hp) heq.symm
  · obtain ⟨hsame, hlocation⟩ := suffixedName_eq_iff.1 heq
    obtain ⟨hi, rfl⟩ := List.getElem?_eq_some_iff.1 hp
    obtain ⟨hj, rfl⟩ := List.getElem?_eq_some_iff.1 hq
    rw [List.pairwise_iff_getElem] at hlocated
    rcases Nat.lt_trichotomy i j with hlt | rfl | hgt
    · exact hlocated i j hi hj hlt hsame hlocation
    · exact Earlier.irrefl _ hearlier
    · exact hlocated j i hj hi hgt hsame.symm hlocation.symm

namespace Spellings

/-- Three spellings of one identifier. -/
def params : List Parameter :=
  [{ name := "petId", location := .query }, { name := "pet_id", location := .query },
    { name := "pet-id", location := .query }]

end Spellings

open Spellings in
/-- The third spelling of an identifier gets the name of the second one. -/
theorem third_spelling_shares_name :
    (keys params).Nodup ∧ argumentNames params = ["petId", "petIdQuery", "petIdQuery"] ∧
      ¬(argumentNames params).Nodup := by
  have hnames : argumentNames params = ["petId", "petIdQuery", "petIdQuery"] := by
    decide +kernel
  refine ⟨by decide, hnames, fun hnodup ↦ ?_⟩
  have hidentifier : toIdentifier "pet-id" = "petId" := by
    decide +kernel
  have hsuffixed : suffixedName { name := "pet-id", location := .query } = "petIdQuery" := by
    decide +kernel
  refine (argument_names_distinct_iff params).1 hnodup 2 _ rfl ⟨?_, ?_⟩
  · exact ⟨0, _, rfl, .inl (by decide), by rw [hidentifier, hnames]; rfl⟩
  · exact ⟨1, _, rfl, .inr (by decide), by rw [hsuffixed, hnames]; rfl⟩

end Parameters

end ApiClient
