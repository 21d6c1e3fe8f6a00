import ApiClient.Operation.Query
import Mathlib.Data.List.Induction
import Mathlib.Data.List.Nodup

/-!
# Groups of query parameters

Grouping entries by format gives one group for each format that occurs, in the order in which the
formats first occur, and puts into it the entries of the format in their order. So the groups
together have each entry once.
-/

namespace ApiClient

open TypeScript

/-! ## First occurrences -/

section

variable {α κ : Type} [BEq κ] [LawfulBEq κ]

theorem eraseDups_concat (l : List κ) (x : κ) :
    (l ++ [x]).eraseDups = if x ∈ l then l.eraseDups else l.eraseDups ++ [x] := by
  rw [List.eraseDups_append]
  by_cases hx : x ∈ l
  · rw [if_pos hx, List.removeAll, List.filter_cons_of_neg (by simp [hx])]
    exact List.append_nil _
  · rw [if_neg hx, List.removeAll, List.filter_cons_of_pos (by simp [hx])]
    rfl

theorem nodup_eraseDups (l : List κ) : l.eraseDups.Nodup := by
  induction l using List.reverseRecOn with
  | nil => exact List.nodup_nil
  | append_singleton l x ih =>
    rw [eraseDups_concat]
    split
    next => exact ih
    next hx =>
      have hnew : x ∉ l.eraseDups := fun hmem ↦ hx (List.mem_eraseDups.1 hmem)
      exact List.concat_eq_append ▸ ih.concat hnew

/-- The parts of a list for different keys make up the list. -/
theorem flatMap_filter_perm (key : α → κ) {keys : List κ} (hkeys : keys.Nodup) {l : List α}
    (hl : ∀ x ∈ l, key x ∈ keys) : (keys.flatMap fun k ↦ l.filter fun x ↦ key x == k).Perm l := by
  induction keys generalizing l with
  | nil =>
    cases l with
    | nil => exact .nil
    | cons x l => exact nomatch hl x List.mem_cons_self
  | cons k keys ih =>
    rw [List.nodup_cons] at hkeys
    have hrest : ∀ x ∈ l.filter fun x ↦ !key x == k, key x ∈ keys := by
      intro x hx
      obtain ⟨hx, hother⟩ := List.mem_filter.1 hx
      exact (List.mem_cons.1 (hl x hx)).resolve_left (by simpa using hother)
    have hsame : ∀ k' ∈ keys, (l.filter fun x ↦ key x == k') =
        (l.filter fun x ↦ !key x == k).filter fun x ↦ key x == k' := by
      intro k' hk'
      rw [List.filter_filter]
      refine List.filter_congr fun x _ ↦ ?_
      by_cases hx : key x = k'
      · have hother : k' ≠ k := fun h ↦ hkeys.1 (h ▸ hk')
        simp [hx, hother]
      · simp [hx]
    rw [List.flatMap_cons, List.flatMap_congr hsame]
    exact ((ih hkeys.2 hrest).append_left _).trans (List.filter_append_perm _ l)

end

/-! ## Groups -/

section

variable {α : Type} {format : QueryFormat} {entry : α} {formats : List QueryFormat}
  {group : QueryFormat → List α}

theorem addToGroup_of_not_mem (h : format ∉ formats) :
    addToGroup format entry (formats.map fun f ↦ (f, group f)) =
      (formats.map fun f ↦ (f, group f)) ++ [(format, [entry])] := by
  induction formats with
  | nil => rfl
  | cons f formats ih =>
    rw [List.mem_cons, not_or] at h
    rw [List.map_cons, addToGroup, if_neg (Ne.symm h.1), ih h.2]
    rfl

theorem addToGroup_of_mem (hformats : formats.Nodup) (h : format ∈ formats) :
    addToGroup format entry (formats.map fun f ↦ (f, group f)) =
      formats.map fun f ↦ (f, if format = f then group f ++ [entry] else group f) := by
  induction formats with
  | nil => cases h
  | cons f formats ih =>
    rw [List.nodup_cons] at hformats
    rw [List.map_cons, List.map_cons, addToGroup]
    by_cases hf : f = format
    · subst hf
      rw [if_pos rfl, if_pos rfl]
      congr 1
      refine List.map_congr_left fun f' hf' ↦ ?_
      have hother : f ≠ f' := fun h ↦ hformats.1 (h ▸ hf')
      rw [if_neg hother]
    · rw [if_neg hf, if_neg (Ne.symm hf),
        ih hformats.2 ((List.mem_cons.1 h).resolve_left (Ne.symm hf))]

/-- The entries of a format in their order. -/
def entriesOf (format : QueryFormat) (entries : List (QueryFormat × α)) : List α :=
  (entries.filter fun entry ↦ entry.1 == format).map (·.2)

theorem entriesOf_concat (entries : List (QueryFormat × α)) (e : QueryFormat × α) :
    entriesOf format (entries ++ [e]) =
      if e.1 = format then entriesOf format entries ++ [e.2] else entriesOf format entries := by
  by_cases h : e.1 = format <;> simp [entriesOf, h]

theorem entriesOf_eq_nil {entries : List (QueryFormat × α)} (h : format ∉ entries.map (·.1)) :
    entriesOf format entries = [] := by
  rw [entriesOf, List.map_eq_nil_iff, List.filter_eq_nil_iff]
  exact fun e he hsame ↦ h (List.mem_map.2 ⟨e, he, beq_iff_eq.1 hsame⟩)

theorem groupByFormat_concat (entries : List (QueryFormat × α)) (e : QueryFormat × α) :
    groupByFormat (entries ++ [e]) = addToGroup e.1 e.2 (groupByFormat entries) := by
  rw [groupByFormat, List.foldl_append]
  rfl

/-- There is a group for each format, in the order of their first entries. -/
theorem groupByFormat_eq (entries : List (QueryFormat × α)) : groupByFormat entries =
    (entries.map (·.1)).eraseDups.map fun format ↦ (format, entriesOf format entries) := by
  induction entries using List.reverseRecOn with
  | nil => rfl
  | append_singleton entries e ih =>
    rw [groupByFormat_concat, ih, List.map_append, List.map_singleton, eraseDups_concat]
    simp only [entriesOf_concat]
    by_cases hmem : e.1 ∈ entries.map (·.1)
    · rw [if_pos hmem, addToGroup_of_mem (nodup_eraseDups _) (List.mem_eraseDups.2 hmem)]
    · have hnot : e.1 ∉ (entries.map (·.1)).eraseDups := fun h ↦ hmem (List.mem_eraseDups.1 h)
      rw [if_neg hmem, addToGroup_of_not_mem hnot, List.map_append, List.map_singleton,
        if_pos rfl, entriesOf_eq_nil hmem]
      congr 1
      refine List.map_congr_left fun f hf ↦ ?_
      have hother : e.1 ≠ f := fun h ↦ hnot (h ▸ hf)
      rw [if_neg hother]

end

/-! ## The expression for a query string -/

/-- Parameters and the names of their arguments, in groups by format. -/
abbrev QueryGroups := List (QueryFormat × List (Parameter × String))

/-- The call that writes groups of parameters, each parameter under its own name. -/
def queryCall (groups : QueryGroups) : Expr :=
  .apply (.path "QS" "query") <| groups.map fun (format, params) ↦
    .apply (.path "QS" format.helper)
      [.object (params.map fun (p, arg) ↦ .prop p.name (.ident arg))]

/-- Each parameter is in the group of its format, where they keep their order. The groups are those
of the formats that occur, in the order in which they first occur. -/
structure GroupsOf (params : List (Parameter × String)) (groups : QueryGroups) : Prop where
  formats : groups.map (·.1) = (params.map fun entry ↦ QueryFormat.of entry.1).eraseDups
  distinct : (groups.map (·.1)).Nodup
  nonempty : ∀ group ∈ groups, group.2 ≠ []
  members : ∀ group ∈ groups,
    group.2 = params.filter fun entry ↦ QueryFormat.of entry.1 == group.1
  lossless : (groups.flatMap (·.2)).Perm params

/-- The groups of parameters by format. -/
def queryGroups (params : List (Parameter × String)) : QueryGroups :=
  (params.map fun entry ↦ QueryFormat.of entry.1).eraseDups.map fun format ↦
    (format, params.filter fun entry ↦ QueryFormat.of entry.1 == format)

theorem groupsOf_queryGroups (params : List (Parameter × String)) :
    GroupsOf params (queryGroups params) := by
  have hformats : (queryGroups params).map (·.1) =
      (params.map fun entry ↦ QueryFormat.of entry.1).eraseDups := by
    rw [queryGroups, List.map_map]
    exact List.map_id _
  have hdistinct := nodup_eraseDups (params.map fun entry ↦ QueryFormat.of entry.1)
  refine ⟨hformats, hformats ▸ hdistinct, fun group hgroup ↦ ?_, fun group hgroup ↦ ?_, ?_⟩
  · obtain ⟨format, hformat, rfl⟩ := List.mem_map.1 hgroup
    obtain ⟨entry, hentry, rfl⟩ := List.mem_map.1 (List.mem_eraseDups.1 hformat)
    exact List.ne_nil_of_mem (List.mem_filter.2 ⟨hentry, beq_self_eq_true _⟩)
  · obtain ⟨format, -, rfl⟩ := List.mem_map.1 hgroup
    rfl
  · rw [queryGroups, List.flatMap_map]
    exact flatMap_filter_perm _ hdistinct fun entry hentry ↦
      List.mem_eraseDups.2 (List.mem_map_of_mem hentry)

theorem queryExpr_eq_none_iff {params : List (Parameter × String)} :
    queryExpr params = none ↔ params = [] := by
  unfold queryExpr
  split
  next h => exact iff_of_true rfl (List.isEmpty_iff.1 h)
  next h => exact iff_of_false (fun h ↦ nomatch h) fun hnil ↦ h (List.isEmpty_iff.2 hnil)

theorem queryExpr_eq_some {params : List (Parameter × String)} {e : Expr}
    (h : queryExpr params = some e) : e = queryCall (queryGroups params) := by
  unfold queryExpr at h
  split at h
  · cases h
  · rw [← Option.some.inj h, groupByFormat_eq, queryCall, queryGroups, List.map_map, List.map_map,
      List.map_map]
    have hentries (format : QueryFormat) :
        entriesOf format (params.map fun (p, arg) ↦
          (QueryFormat.of p, (Entry.prop p.name (.ident arg) : Entry Expr))) =
        (params.filter fun entry ↦ QueryFormat.of entry.1 == format).map fun (p, arg) ↦
          .prop p.name (.ident arg) := by
      rw [entriesOf, List.filter_map, List.map_map]
      rfl
    congr 1
    refine List.map_congr_left fun format _ ↦ ?_
    dsimp only [Function.comp_apply]
    rw [hentries]

end ApiClient
