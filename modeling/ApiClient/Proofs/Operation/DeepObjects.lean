import ApiClient.Operation.Parameters
import ApiClient.Proofs.Operation.QueryGroups
import Mathlib.Data.List.TakeDrop
import Mathlib.Data.List.TakeWhile

/-!
# Parameters folded into objects

While parameters are folded, a table keeps the places of the objects in the list that grows. What
the list comes to can be said without the table: each parameter that is no member of an object stays
in its place, and the parameter for an object stands where its first member stood and has all
members of the object, wherever they stand. The name of an object is no name of a member, so folding
again changes nothing.
-/

namespace ApiClient

namespace Parameters

/-! ## Names of members -/

theorem span_bne_eq_iff {c d : Char} {cs before after : List Char} :
    cs.span (· != c) = (before, d :: after) ↔
      d = c ∧ c ∉ before ∧ cs = before ++ c :: after := by
  rw [List.span_eq_takeWhile_dropWhile, Prod.mk.injEq]
  constructor
  · rintro ⟨hbefore, hafter⟩
    have hd : d = c := by
      have hhead := List.head?_dropWhile_not (· != c) cs
      simpa [hafter] using hhead
    refine ⟨hd, fun hc ↦ ?_, ?_⟩
    · rw [← hbefore] at hc
      simpa using List.mem_takeWhile_imp hc
    · rw [← hd, ← hafter, ← hbefore, List.takeWhile_append_dropWhile]
  · rintro ⟨rfl, hbefore, rfl⟩
    have hall : ∀ e ∈ before, (e != d) = true := fun e he ↦
      bne_iff_ne.2 fun h ↦ hbefore (h ▸ he)
    constructor
    · rw [List.takeWhile_append_of_pos hall]
      simp
    · rw [List.dropWhile_append_of_pos hall]
      simp

/-- A name such as `object[member]`, with anything behind the first closing bracket. -/
structure Bracketed (name object member : String) : Prop where
  object_ne : object ≠ ""
  notMem_object : '[' ∉ object.toList
  notMem_member : ']' ∉ member.toList
  exists_rest : ∃ rest, name = object ++ "[" ++ member ++ "]" ++ rest

theorem memberOf?_eq_some_iff {name object member : String} :
    memberOf? name = some (object, member) ↔ Bracketed name object member := by
  constructor
  · intro h
    unfold memberOf? at h
    split at h
    next c cs d rest hspan =>
      obtain ⟨-, hobject, hname⟩ := span_bne_eq_iff.1 hspan
      split at h
      next cs' d' rest' hspan' =>
        obtain ⟨-, hmember, hrest⟩ := span_bne_eq_iff.1 hspan'
        cases h
        refine ⟨by simp [← String.toList_inj], by simpa using hobject, by simpa using hmember, ?_⟩
        refine ⟨String.ofList rest', ?_⟩
        rw [← String.toList_inj, hname, hrest]
        simp
      next => cases h
    next => cases h
  · rintro ⟨hne, hobject, hmember, rest, rfl⟩
    have hspan : (object ++ "[" ++ member ++ "]" ++ rest).toList.span (· != '[') =
        (object.toList, '[' :: (member.toList ++ ']' :: rest.toList)) :=
      span_bne_eq_iff.2 ⟨rfl, hobject, by simp⟩
    have hspan' : (member.toList ++ ']' :: rest.toList).span (· != ']') =
        (member.toList, ']' :: rest.toList) := span_bne_eq_iff.2 ⟨rfl, hmember, rfl⟩
    obtain ⟨c, cs, hcs⟩ := List.exists_cons_of_ne_nil fun h ↦ hne (String.toList_eq_nil_iff.1 h)
    rw [memberOf?, hspan, hcs]
    dsimp only
    rw [hspan', ← hcs, String.ofList_toList]
    dsimp only
    rw [String.ofList_toList]

theorem Bracketed.mem_name {name object member : String} (h : Bracketed name object member) :
    '[' ∈ name.toList := by
  obtain ⟨rest, rfl⟩ := h.exists_rest
  simp

/-- The name of an object is not that of a member. -/
theorem Bracketed.memberOf?_object {name object member : String}
    (h : Bracketed name object member) : memberOf? object = none := by
  rw [Option.eq_none_iff_forall_not_mem]
  rintro ⟨outer, inner⟩ hinner
  exact h.notMem_object (memberOf?_eq_some_iff.1 hinner).mem_name

/-! ## What stands where -/

/-- The object that a parameter names a member of. -/
def object? (p : Parameter) : Option String :=
  (memberOf? p.name).map (·.1)

/-- The objects that parameters name members of. -/
def objects (params : List Parameter) : List String :=
  params.filterMap object?

/-- The members of an object with their schemas. -/
def membersOf (object : String) (params : List Parameter) : List (String × RefOr Schema) :=
  params.filterMap fun p ↦ (memberOf? p.name).bind fun named ↦
    if named.1 = object then some (named.2, schemaOrAny p) else none

/-- The parameter for an object with the given members. -/
def objectParameter (name : String) (location : Location) (members : Table (RefOr Schema)) :
    Parameter :=
  { emptyObject name location with
    schema := some (.inline { types := some (.one .object), properties := some members }) }

/-- What stands in a place after folding. -/
inductive Slot where
  | plain (p : Parameter)
  | object (name : String) (location : Location)

namespace Slot

def object? : Slot → Option String
  | plain _ => none
  | object name _ => some name

/-- The parameter in a place; an object has all of its members. -/
def filled (params : List Parameter) : Slot → Parameter
  | plain p => p
  | object name location => objectParameter name location (Table.ofPairs (membersOf name params))

end Slot

/-- The place that a parameter takes behind others. A member takes one only if it is the first of
its object. -/
def opened (before : List Parameter) (p : Parameter) : Option Slot :=
  match object? p with
  | none => some (.plain p)
  | some name => if name ∈ objects before then none else some (.object name p.location)

def slots (params : List Parameter) : List Slot :=
  params.zipIdx.filterMap fun entry ↦ opened (params.take entry.2) entry.1

section

variable {params : List Parameter} {p : Parameter} {name member : String} {location : Location}

theorem object?_of_memberOf? (h : memberOf? p.name = some (name, member)) :
    object? p = some name := by
  rw [object?, h]
  rfl

theorem object?_eq_some_iff :
    object? p = some name ↔ ∃ member, memberOf? p.name = some (name, member) := by
  simp [object?]

theorem object?_eq_none_iff : object? p = none ↔ memberOf? p.name = none :=
  Option.map_eq_none_iff

theorem objects_concat : objects (params ++ [p]) = objects params ++ (object? p).toList := by
  rw [objects, List.filterMap_append]
  cases h : object? p <;> simp [objects, h]

theorem slots_concat : slots (params ++ [p]) = slots params ++ (opened params p).toList := by
  have hbefore : ∀ entry ∈ params.zipIdx,
      opened ((params ++ [p]).take entry.2) entry.1 = opened (params.take entry.2) entry.1 := by
    rintro ⟨q, i⟩ hentry
    have hi : i ≤ params.length := by
      have := List.snd_lt_of_mem_zipIdx hentry
      omega
    rw [List.take_append_of_le_length hi]
  rw [slots, List.zipIdx_append, List.filterMap_append, List.filterMap_congr hbefore]
  cases h : opened params p <;> simp [slots, h]

theorem membersOf_concat_self (h : memberOf? p.name = some (name, member)) :
    membersOf name (params ++ [p]) = membersOf name params ++ [(member, schemaOrAny p)] := by
  simp [membersOf, List.filterMap_append, h]

theorem membersOf_concat_of_ne (h : object? p ≠ some name) :
    membersOf name (params ++ [p]) = membersOf name params := by
  rw [membersOf, List.filterMap_append]
  cases hp : memberOf? p.name with
  | none => simp [membersOf, hp]
  | some named =>
    have hne : named.1 ≠ name := by
      rintro rfl
      exact h (object?_of_memberOf? hp)
    simp [membersOf, hp, hne]

theorem membersOf_eq_nil (h : name ∉ objects params) : membersOf name params = [] := by
  induction params using List.reverseRecOn with
  | nil => rfl
  | append_singleton params p ih =>
    rw [objects_concat, List.mem_append, not_or] at h
    rw [membersOf_concat_of_ne, ih h.1]
    exact fun hp ↦ h.2 (by simp [hp])

end

/-! ## Opening places and filling them -/

section

variable {params : List Parameter} {p : Parameter} {name member : String} {location : Location}

theorem filled_concat_self (h : memberOf? p.name = some (name, member)) :
    (Slot.object name location).filled (params ++ [p]) =
      addMember ((Slot.object name location).filled params) member (schemaOrAny p) := by
  rw [Slot.filled, membersOf_concat_self h, Table.ofPairs_concat]
  rfl

theorem filled_concat_of_ne {s : Slot} (h : ∀ name, s.object? = some name → object? p ≠ some name) :
    s.filled (params ++ [p]) = s.filled params := by
  cases s with
  | plain q => rfl
  | object name location => rw [Slot.filled, membersOf_concat_of_ne (h name rfl), Slot.filled]

theorem filled_of_notMem (h : name ∉ objects params) :
    (Slot.object name location).filled params = emptyObject name location := by
  rw [Slot.filled, membersOf_eq_nil h]
  rfl

/-- An object has a place if and only if a parameter names a member of it. -/
theorem mem_objects_iff : name ∈ objects params ↔ ∃ s ∈ slots params, s.object? = some name := by
  induction params using List.reverseRecOn with
  | nil => simp [objects, slots]
  | append_singleton params p ih =>
    rw [objects_concat, slots_concat, List.mem_append, ih]
    cases hp : object? p with
    | none => simp [opened, hp, Slot.object?]
    | some other =>
      by_cases hother : other ∈ objects params
      · have hopened : opened params p = none := by simp [opened, hp, hother]
        simp only [hopened, Option.toList_none, List.append_nil, Option.toList_some,
          List.mem_singleton]
        refine ⟨fun h ↦ h.elim id ?_, .inl⟩
        rintro rfl
        exact ih.1 hother
      · have hopened : opened params p = some (.object other p.location) := by
          simp [opened, hp, hother]
        simp [hopened, Slot.object?, or_and_right, exists_or, eq_comm]

/-- The list that grows holds what stands in the places so far, and the table knows the place of
each object. -/
structure Folded.Tracks (folded : Folded) (ss : List Slot) (params : List Parameter) : Prop where
  params : folded.params = ss.map (Slot.filled params)
  objects : ∀ name i, Table.get? name folded.objects = some i ↔
    ∃ location, ss[i]? = some (.object name location)

theorem getElem?_concat_iff {α : Type} {l : List α} {a b : α} {i : Nat} :
    (l ++ [a])[i]? = some b ↔ l[i]? = some b ∨ i = l.length ∧ a = b := by
  rcases Nat.lt_trichotomy i l.length with hi | rfl | hi
  · simp [List.getElem?_append_left hi, Nat.ne_of_lt hi]
  · simp
  · have hlength : (l ++ [a]).length ≤ i := by
      rw [List.length_append]
      exact hi
    rw [List.getElem?_eq_none hlength, List.getElem?_eq_none (Nat.le_of_lt hi)]
    simp [Nat.ne_of_gt hi]

variable {folded : Folded} {ss : List Slot}

namespace Folded.Tracks

theorem empty : ({} : Folded).Tracks [] [] where
  params := rfl
  objects := by simp

theorem mem_objects_iff (h : folded.Tracks (slots params) params) :
    name ∈ Parameters.objects params ↔ ∃ i, Table.get? name folded.objects = some i := by
  rw [Parameters.mem_objects_iff]
  constructor
  · rintro ⟨s | ⟨name, location⟩, hs, hname⟩
    · cases hname
    · cases hname
      obtain ⟨i, hi⟩ := List.mem_iff_getElem?.1 hs
      exact ⟨i, (h.objects name i).2 ⟨location, hi⟩⟩
  · rintro ⟨i, hi⟩
    obtain ⟨location, hs⟩ := (h.objects name i).1 hi
    exact ⟨.object name location, List.mem_of_getElem? hs, rfl⟩

/-- A parameter that is no member is put at the end. -/
theorem plain (h : folded.Tracks ss params) (hp : object? p = none) :
    Tracks { folded with params := folded.params ++ [p] } (ss ++ [.plain p]) (params ++ [p]) where
  params := by
    have hsame : ∀ s ∈ ss, s.filled (params ++ [p]) = s.filled params := fun s _ ↦
      filled_concat_of_ne fun name _ ↦ by simp [hp]
    rw [List.map_append, List.map_congr_left hsame, h.params]
    rfl
  objects name i := by
    rw [h.objects name i]
    simp [getElem?_concat_iff]

/-- The first member of an object opens a place for it at the end. -/
theorem opened (h : folded.Tracks ss params) (hname : name ∉ Parameters.objects params)
    (hnew : Table.get? name folded.objects = none) (location : Location) :
    Tracks { params := folded.params ++ [emptyObject name location]
             objects := Table.put name folded.params.length folded.objects }
      (ss ++ [.object name location]) params where
  params := by
    rw [List.map_append, List.map_singleton, filled_of_notMem hname, h.params]
  objects other i := by
    have hlength : folded.params.length = ss.length := by
      rw [h.params, List.length_map]
    rw [Table.get?_put]
    simp only [getElem?_concat_iff, Slot.object.injEq]
    split
    next heq =>
      subst heq
      have hno : ∀ location, ss[i]? ≠ some (.object name location) := fun location hs ↦ by
        simp [(h.objects name i).2 ⟨location, hs⟩] at hnew
      simp [hno, hlength, eq_comm]
    next hne => simp [h.objects other i, hne]

/-- A member is put into its object, wherever that stands. -/
theorem filled {i : Nat} (h : folded.Tracks ss params)
    (hmember : memberOf? p.name = some (name, member))
    (hi : Table.get? name folded.objects = some i) :
    Tracks
      { folded with
        params := folded.params.modify i fun q ↦ addMember q member (schemaOrAny p) }
      ss (params ++ [p]) where
  params := by
    apply List.ext_getElem?
    intro j
    rw [List.getElem?_modify, h.params, List.getElem?_map, List.getElem?_map]
    cases hs : ss[j]? with
    | none => rfl
    | some s =>
      by_cases hij : i = j
      · subst hij
        obtain ⟨location, hobject⟩ := (h.objects name i).1 hi
        obtain rfl := Option.some_inj.1 (hs.symm.trans hobject)
        rw [Option.map_some, Option.map_some, filled_concat_self hmember]
        exact congrArg some (if_pos rfl)
      · have hother : ∀ other, s.object? = some other → object? p ≠ some other := by
          intro other hother hp
          obtain rfl : name = other :=
            Option.some_inj.1 ((object?_of_memberOf? hmember).symm.trans hp)
          cases s with
          | plain q => cases hother
          | object name location =>
            cases hother
            have hj := (h.objects name j).2 ⟨location, hs⟩
            exact hij (Option.some_inj.1 (hi.symm.trans hj))
        simp [hij, filled_concat_of_ne hother]
  objects := h.objects

/-- One step: the places are those of one more parameter. -/
theorem add (h : folded.Tracks (slots params) params) (p : Parameter) :
    (folded.add p).Tracks (slots (params ++ [p])) (params ++ [p]) := by
  rw [slots_concat]
  unfold Folded.add
  split
  next hp =>
    have hopened : Parameters.opened params p = some (.plain p) := by
      simp [Parameters.opened, object?, hp]
    rw [hopened]
    exact h.plain (object?_eq_none_iff.2 hp)
  next name member hp =>
    have hobject := object?_of_memberOf? hp
    cases hfound : Table.get? name folded.objects with
    | some i =>
      have hopened : Parameters.opened params p = none := by
        simp [Parameters.opened, hobject, h.mem_objects_iff.2 ⟨i, hfound⟩]
      dsimp only
      rw [hopened, Option.toList_none, List.append_nil, hfound]
      exact h.filled hp hfound
    | none =>
      have hname : name ∉ Parameters.objects params := by
        simp [h.mem_objects_iff, hfound]
      have hopened : Parameters.opened params p = some (.object name p.location) := by
        simp [Parameters.opened, hobject, hname]
      have hself : Table.get? name (Table.put name folded.params.length folded.objects) =
          some folded.params.length := by
        rw [Table.get?_put, if_pos rfl]
      dsimp only
      rw [hopened, hself]
      exact (h.opened hname hfound p.location).filled hp hself

end Folded.Tracks

/-- Each place holds its parameter, and an object all of its members. -/
theorem fold_eq (params : List Parameter) :
    fold params = (slots params).map (Slot.filled params) := by
  have htracks : (params.foldl Folded.add {}).Tracks (slots params) params := by
    induction params using List.reverseRecOn with
    | nil => exact .empty
    | append_singleton params p ih =>
      rw [List.foldl_concat]
      exact ih.add p
  exact htracks.params

theorem exists_of_mem_slots {s : Slot} (h : s ∈ slots params) : ∃ p ∈ params,
    object? p = none ∧ s = .plain p ∨
      ∃ name, object? p = some name ∧ s = .object name p.location := by
  obtain ⟨⟨p, i⟩, hentry, hopened⟩ := List.mem_filterMap.1 h
  refine ⟨p, List.fst_mem_of_mem_zipIdx hentry, ?_⟩
  unfold opened at hopened
  split at hopened
  next hp => exact .inl ⟨hp, (Option.some_inj.1 hopened).symm⟩
  next name hp =>
    split at hopened
    · cases hopened
    · exact .inr ⟨name, hp, (Option.some_inj.1 hopened).symm⟩

/-! ## Folding again -/

theorem slots_eq_map (h : ∀ p ∈ params, object? p = none) : slots params = params.map .plain := by
  induction params using List.reverseRecOn with
  | nil => rfl
  | append_singleton params p ih =>
    rw [List.forall_mem_append, List.forall_mem_singleton] at h
    rw [slots_concat, ih h.1, List.map_append, opened, h.2]
    rfl

theorem fold_eq_self (h : ∀ p ∈ params, object? p = none) : fold params = params := by
  rw [fold_eq, slots_eq_map h, List.map_map]
  exact List.map_id params

theorem object?_of_mem_fold {q : Parameter} (h : q ∈ fold params) : object? q = none := by
  rw [fold_eq] at h
  obtain ⟨s, hs, rfl⟩ := List.mem_map.1 h
  obtain ⟨p, -, ⟨hp, rfl⟩ | ⟨name, hp, rfl⟩⟩ := exists_of_mem_slots hs
  · exact hp
  · obtain ⟨member, hmember⟩ := object?_eq_some_iff.1 hp
    exact object?_eq_none_iff.2 (memberOf?_eq_some_iff.1 hmember).memberOf?_object

/-! ## What becomes of the places -/

theorem filter_slots (params : List Parameter) :
    (slots params).filter (·.object? = none) =
      (params.filter (object? · = none)).map .plain := by
  induction params using List.reverseRecOn with
  | nil => rfl
  | append_singleton params p ih =>
    rw [slots_concat, List.filter_append, List.filter_append, List.map_append, ih]
    refine congrArg _ ?_
    unfold opened
    split
    next hp => simp [hp, Slot.object?]
    next name hp => split <;> simp [hp, Slot.object?]

theorem filterMap_slots (params : List Parameter) :
    (slots params).filterMap Slot.object? = (objects params).eraseDups := by
  induction params using List.reverseRecOn with
  | nil => rfl
  | append_singleton params p ih =>
    rw [slots_concat, List.filterMap_append, ih, objects_concat]
    unfold opened
    split
    next hp => simp [hp, Slot.object?]
    next name hp =>
      rw [hp, Option.toList_some, eraseDups_concat]
      split <;> simp [Slot.object?]

theorem prefix_slots (before after : List Parameter) :
    slots before <+: slots (before ++ after) := by
  induction after using List.reverseRecOn with
  | nil => simp
  | append_singleton after p ih =>
    rw [← List.append_assoc, slots_concat]
    exact ih.trans (List.prefix_append _ _)

theorem plain_sublist_fold (params : List Parameter) :
    (params.filter (object? · = none)).Sublist (fold params) := by
  have hplain : ((params.filter (object? · = none)).map .plain).map (Slot.filled params) =
      params.filter (object? · = none) := by
    rw [List.map_map]
    exact List.map_id _
  rw [fold_eq, ← hplain, ← filter_slots]
  exact List.filter_sublist.map _

/-- The first member of an object has a place behind those of the parameters in front of it. -/
theorem exists_slots_eq {before : List Parameter} (hp : object? p = some name)
    (hname : name ∉ objects before) (after : List Parameter) : ∃ behind,
      slots (before ++ p :: after) = slots before ++ .object name p.location :: behind := by
  have hopened : opened before p = some (.object name p.location) := by
    simp [opened, hp, hname]
  obtain ⟨behind, hbehind⟩ := prefix_slots (before ++ [p]) after
  rw [slots_concat, hopened, List.append_assoc, List.append_assoc] at hbehind
  exact ⟨behind, hbehind.symm⟩

/-- What folding makes of parameters. -/
structure Folding (params folded : List Parameter) : Prop where
  /-- Folding again changes nothing. -/
  again : fold folded = folded
  /-- Parameters that are no members of objects stay as they are and in their order. -/
  plain : (params.filter (object? · = none)).Sublist folded
  /-- All that is there comes from the places of the parameters. -/
  places : folded = (slots params).map (Slot.filled params)
  /-- There is one place for each object that has members. -/
  once : (slots params).filterMap Slot.object? = (objects params).eraseDups
  /-- The parameter for an object stands where its first member stood: behind what comes from the
  parameters in front of that. -/
  first : ∀ before p after name, params = before ++ p :: after → object? p = some name →
    name ∉ objects before → ∃ behind, folded = (slots before).map (Slot.filled params) ++
      (Slot.object name p.location).filled params :: behind

/-- Folding changes nothing when it is done again, it keeps the parameters that are no members, and
it puts one parameter for each object in the place of its first member. -/
theorem folding_places (params : List Parameter) : Folding params (fold params) where
  again := fold_eq_self fun _ ↦ object?_of_mem_fold
  plain := plain_sublist_fold params
  places := fold_eq params
  once := filterMap_slots params
  first := by
    intro before p after name hparams hp hname
    obtain ⟨behind, hslots⟩ := exists_slots_eq hp hname after
    refine ⟨behind.map (Slot.filled params), ?_⟩
    rw [fold_eq, hparams, hslots, List.map_append, List.map_cons]

end

/-- Without a name in front of the bracket there is no object. -/
example : fold [{ name := "filter[name]", location := .query },
      { name := "page", location := .query }, { name := "filter[tag]", location := .query },
      { name := "[odd]", location := .query }] =
    [objectParameter "filter" .query [("name", .inline {}), ("tag", .inline {})],
      { name := "page", location := .query }, { name := "[odd]", location := .query }] :=
  rfl

end Parameters

end ApiClient
