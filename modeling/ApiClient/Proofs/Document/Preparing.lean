import ApiClient.Document.Discriminating
import ApiClient.Proofs.Document.Escapes
import ApiClient.Proofs.Document.Rewriting

/-!
# What preparing does to a document

Preparing leaves the components under their names and in their order. An inline one gets the
reference that it is declared under, and if its mapping lacks extensions, then it gets entries for
those whose names are not taken.
-/

namespace ApiClient

open Schema (nodeValue)

variable {schemas : Table (RefOr Schema)}

/-! ## What is added -/

def Discriminator.addEntries (d : Discriminator) (children : List String) : Discriminator :=
  children.foldl addEntry d

def Schema.addEntries (children : List String) (s : Schema) : Schema :=
  { s with discriminator := s.discriminator.map (·.addEntries children) }

/-- The extensions of a component that its mapping lacks, in the order of the components. -/
def lackingEntries (schemas : Table (RefOr Schema)) (parent : String) : List String :=
  ((missingEntries schemas).filter (·.1 == parent)).map (·.2)

/-- A component with its reference and with entries for the extensions that it lacks. -/
def Schema.prepare (schemas : Table (RefOr Schema)) (name : String) (s : Schema) : Schema :=
  { s.addEntries (lackingEntries schemas name) with component := some (Pointer.ofComponent name) }

theorem Discriminator.property_addEntries (d : Discriminator) (children : List String) :
    (d.addEntries children).property = d.property := by
  unfold addEntries
  induction children generalizing d with
  | nil => rfl
  | cons child rest ih =>
    rw [List.foldl_cons, ih, addEntry]
    split <;> rfl

theorem Schema.map_addEntries_nil (c : RefOr Schema) : c.map (addEntries []) = c := by
  cases c with
  | ref path => rfl
  | inline s =>
    cases s
    simp [RefOr.map, addEntries, Discriminator.addEntries]

theorem Schema.map_addEntries_append (c : RefOr Schema) (children others : List String) :
    (c.map (addEntries children)).map (addEntries others) =
      c.map (addEntries (children ++ others)) := by
  cases c with
  | ref path => rfl
  | inline s =>
    simp only [RefOr.map, addEntries, Option.map_map, Discriminator.addEntries, List.foldl_append,
      Function.comp_def]

theorem addEntry_eq_mapEntries (h : schemas.keys.Nodup) (parent child : String) :
    addEntry schemas parent child = schemas.mapEntries fun name c ↦
      c.map (Schema.addEntries (if parent == name then [child] else [])) := by
  have hother : ∀ (name : String) (c : RefOr Schema), name ≠ parent →
      c.map (Schema.addEntries (if parent == name then [child] else [])) = c := by
    intro name c hne
    rw [beq_false_of_ne (Ne.symm hne)]
    exact Schema.map_addEntries_nil c
  unfold addEntry
  split
  next s hs =>
    have hkey := List.mem_map_of_mem (f := (·.1)) (Table.mem_of_get? hs)
    rw [Table.put_eq_mapEntries h hkey]
    refine Table.mapEntries_congr fun ⟨name, c⟩ he ↦ ?_
    by_cases hname : name = parent
    · subst hname
      obtain rfl : c = .inline s := Option.some.inj ((Table.get?_of_mem h he).symm.trans hs)
      simp [RefOr.map, Schema.addEntries, Discriminator.addEntries]
    · rw [if_neg hname, hother name c hname]
  next hnone =>
    refine (Table.mapEntries_eq_self fun ⟨name, c⟩ he ↦ ?_).symm
    by_cases hname : name = parent
    · subst hname
      cases c with
      | ref path => rfl
      | inline s => exact (hnone s (Table.get?_of_mem h he)).elim
    · exact hother name c hname

theorem foldl_addEntry_eq_mapEntries (h : schemas.keys.Nodup) (entries : List (String × String)) :
    entries.foldl (fun table entry ↦ addEntry table entry.1 entry.2) schemas =
      schemas.mapEntries fun name c ↦
        c.map (Schema.addEntries ((entries.filter (·.1 == name)).map (·.2))) := by
  induction entries generalizing schemas with
  | nil => exact (Table.mapEntries_eq_self fun e _ ↦ Schema.map_addEntries_nil e.2).symm
  | cons entry entries ih =>
    rw [List.foldl_cons, addEntry_eq_mapEntries h, ih (by simpa using h),
      Table.mapEntries_mapEntries]
    refine Table.mapEntries_congr fun e _ ↦ ?_
    rw [Schema.map_addEntries_append]
    by_cases hkey : entry.1 == e.1 <;> simp [hkey]

/-! ## Declared components -/

theorem discriminatingRefs_declared :
    discriminatingRefs (schemas.mapEntries declare) = discriminatingRefs schemas := by
  unfold discriminatingRefs Table.mapEntries
  rw [List.filterMap_map]
  refine congrArg (List.filterMap · schemas) (funext fun ⟨name, c⟩ ↦ ?_)
  cases c <;> rfl

theorem mapsTo_declared (name target : String) :
    mapsTo (schemas.mapEntries declare) name target = mapsTo schemas name target := by
  unfold mapsTo
  rw [Table.get?_mapEntries]
  cases Table.get? name schemas with
  | none => rfl
  | some c => cases c <;> rfl

theorem missingEntries_declared :
    missingEntries (schemas.mapEntries declare) = missingEntries schemas := by
  unfold missingEntries
  simp only [discriminatingRefs_declared, mapsTo_declared]
  rw [Table.mapEntries, List.flatMap_map]
  refine congrArg (List.flatMap · schemas) (funext fun ⟨name, c⟩ ↦ ?_)
  cases c <;> rfl

/-- Every component is prepared on its own, by what the components were before. -/
theorem prepareSchemas_eq_mapEntries (h : schemas.keys.Nodup) : prepareSchemas schemas =
    schemas.mapEntries fun name ↦ RefOr.map (Schema.prepare schemas name) := by
  have hkeys : (schemas.mapEntries declare).keys.Nodup := by
    simpa using h
  refine (foldl_addEntry_eq_mapEntries hkeys (missingEntries (schemas.mapEntries declare))).trans ?_
  rw [missingEntries_declared, Table.mapEntries_mapEntries]
  refine Table.mapEntries_congr fun ⟨name, c⟩ _ ↦ ?_
  cases c <;> rfl

/-! ## Entries for extensions -/

theorem Schema.mem_parents {s : Schema} {parent : String} : parent ∈ s.parents ↔
    ∃ cs path, s.allOf = some cs ∧ .ref path ∈ cs ∧ Pointer.componentName? path = some parent := by
  unfold parents
  cases hcs : s.allOf with
  | none => simp
  | some cs =>
    rw [Option.getD_some, List.mem_filterMap]
    constructor
    · rintro ⟨c, hc, hparent⟩
      obtain ⟨path, hpath, hparent⟩ := Option.bind_eq_some_iff.1 hparent
      cases c with
      | inline t => cases hpath
      | ref other =>
        cases hpath
        exact ⟨cs, path, rfl, hc, hparent⟩
    · rintro ⟨_, path, ⟨⟩, hc, hparent⟩
      exact ⟨.ref path, hc, hparent⟩

/-- A discriminating schema has a discriminator and is no union. -/
theorem Schema.isDiscriminating_iff {s : Schema} : s.isDiscriminating = true ↔
    s.discriminator.isSome ∧ s.oneOf = none ∧ s.anyOf = none := by
  simp [isDiscriminating, and_assoc]

theorem Discriminator.mem_addEntry {d : Discriminator} {name child : String} :
    Pointer.ofComponent child ∈ Table.values (d.addEntry name).mapping ↔
      Pointer.ofComponent child ∈ Table.values d.mapping ∨
        child = name ∧ ¬Table.has d.mapping child := by
  unfold addEntry
  split
  next hname =>
    refine ⟨.inl, fun h ↦ h.elim id ?_⟩
    rintro ⟨rfl, hnot⟩
    exact absurd hname hnot
  next hname =>
    have hkey : name ∉ Table.keys d.mapping := fun hmem ↦ hname (Table.has_iff_mem_keys.2 hmem)
    rw [Table.put_of_notMem hkey, Table.values, List.map_append, List.mem_append,
      List.map_singleton, List.mem_singleton]
    refine or_congr_right ⟨fun h ↦ ?_, fun h ↦ h.1 ▸ rfl⟩
    obtain rfl := Pointer.ofComponent_injective h
    exact ⟨rfl, hname⟩

theorem Discriminator.has_addEntry {d : Discriminator} {name key : String} :
    Table.has (d.addEntry name).mapping key ↔ key = name ∨ Table.has d.mapping key := by
  unfold addEntry
  split
  next hname =>
    refine ⟨.inr, fun h ↦ h.elim ?_ id⟩
    rintro rfl
    exact hname
  next => exact Table.has_put _ _ _ _

/-- An extension that is added gets an entry unless its name is taken. -/
theorem Discriminator.mem_addEntries {d : Discriminator} {children : List String} {child : String} :
    Pointer.ofComponent child ∈ Table.values (d.addEntries children).mapping ↔
      Pointer.ofComponent child ∈ Table.values d.mapping ∨
        child ∈ children ∧ ¬Table.has d.mapping child := by
  unfold addEntries
  induction children generalizing d with
  | nil => simp
  | cons name rest ih =>
    rw [List.foldl_cons, ih, mem_addEntry, has_addEntry, List.mem_cons]
    tauto

theorem mem_discriminatingRefs (h : schemas.keys.Nodup) {reference : String} :
    reference ∈ discriminatingRefs schemas ↔ ∃ name s,
      Table.get? name schemas = some (.inline s) ∧ s.isDiscriminating = true ∧
      reference = Pointer.ofComponent name := by
  constructor
  · intro hmem
    obtain ⟨⟨name, c⟩, hentry, hc⟩ := List.mem_filterMap.1 hmem
    cases c with
    | ref path => cases hc
    | inline s =>
      obtain ⟨hdiscriminates, heq⟩ := Option.ite_none_right_eq_some.1 hc
      exact ⟨name, s, Table.get?_of_mem h hentry, hdiscriminates, (Option.some.inj heq).symm⟩
  · rintro ⟨name, s, hs, hdiscriminates, rfl⟩
    exact List.mem_filterMap.2 ⟨_, Table.mem_of_get? hs, if_pos hdiscriminates⟩

theorem contains_discriminatingRefs (h : schemas.keys.Nodup) {name : String} {s : Schema}
    (hs : Table.get? name schemas = some (.inline s)) :
    (discriminatingRefs schemas).contains (Pointer.ofComponent name) = s.isDiscriminating := by
  rw [Bool.eq_iff_iff, List.contains_iff_mem, mem_discriminatingRefs h]
  constructor
  · rintro ⟨other, t, ht, hdiscriminates, heq⟩
    obtain rfl := Pointer.ofComponent_injective heq
    cases ht.symm.trans hs
    exact hdiscriminates
  · exact fun hdiscriminates ↦ ⟨name, s, hs, hdiscriminates, rfl⟩

theorem mapsTo_of_get? {name : String} {s : Schema} {d : Discriminator}
    (hs : Table.get? name schemas = some (.inline s)) (hd : s.discriminator = some d)
    (target : String) : mapsTo schemas name target = (Table.values d.mapping).contains target := by
  unfold mapsTo
  rw [hs]
  simp [hd]

theorem mem_missingEntries {parent child : String} : (parent, child) ∈ missingEntries schemas ↔
    ∃ c, (child, .inline c) ∈ schemas ∧ parent ∈ c.parents ∧
      (discriminatingRefs schemas).contains (Pointer.ofComponent parent) = true ∧
      mapsTo schemas parent (Pointer.ofComponent child) = false := by
  unfold missingEntries
  rw [List.mem_flatMap]
  constructor
  · rintro ⟨⟨name, c⟩, hmem, hentry⟩
    cases c with
    | ref path => cases hentry
    | inline c =>
      obtain ⟨other, hother, heq⟩ := List.mem_map.1 hentry
      cases heq
      obtain ⟨hparent, hlacks⟩ := List.mem_filter.1 hother
      rw [Bool.and_eq_true, Bool.not_eq_true'] at hlacks
      exact ⟨c, hmem, hparent, hlacks⟩
  · rintro ⟨c, hmem, hparent, hlacks⟩
    refine ⟨_, hmem, List.mem_map.2 ⟨parent, List.mem_filter.2 ⟨hparent, ?_⟩, rfl⟩⟩
    rwa [Bool.and_eq_true, Bool.not_eq_true']

theorem mem_lackingEntries {parent child : String} :
    child ∈ lackingEntries schemas parent ↔ (parent, child) ∈ missingEntries schemas := by
  unfold lackingEntries
  simp [List.mem_filter]

/-- A discriminating component has an entry for an extension after preparing exactly if it had one
before or the name of the extension was not taken. -/
theorem Discriminator.mem_prepared (h : schemas.keys.Nodup) {parent child : String} {p c : Schema}
    {d : Discriminator} (hp : Table.get? parent schemas = some (.inline p))
    (hd : p.discriminator = some d) (hdiscriminates : p.isDiscriminating = true)
    (hc : Table.get? child schemas = some (.inline c)) (hparent : parent ∈ c.parents) :
    Pointer.ofComponent child ∈
        Table.values (d.addEntries (lackingEntries schemas parent)).mapping ↔
      Pointer.ofComponent child ∈ Table.values d.mapping ∨ ¬Table.has d.mapping child := by
  have hlacks : child ∈ lackingEntries schemas parent ↔
      Pointer.ofComponent child ∉ Table.values d.mapping := by
    rw [mem_lackingEntries, mem_missingEntries, mapsTo_of_get? hp hd,
      contains_discriminatingRefs h hp, ← Bool.not_eq_true, List.contains_iff_mem]
    exact ⟨fun ⟨_, _, _, _, hnot⟩ ↦ hnot,
      fun hnot ↦ ⟨c, Table.mem_of_get? hc, hparent, hdiscriminates, hnot⟩⟩
  rw [mem_addEntries, hlacks]
  tauto

/-! ## Prepared documents -/

theorem Discriminator.nodup_addEntries {d : Discriminator} (h : (Table.keys d.mapping).Nodup)
    (children : List String) : (Table.keys (d.addEntries children).mapping).Nodup := by
  unfold addEntries
  induction children generalizing d with
  | nil => exact h
  | cons child rest ih =>
    refine ih ?_
    unfold addEntry
    split
    · exact h
    · exact Table.nodup_put h _ _

theorem Schema.Distinct.prepare {s : Schema} (h : s.Distinct) (name : String) :
    (Schema.prepare schemas name s).Distinct where
  default := h.default
  properties := h.properties
  mapping := by
    intro d hd
    obtain ⟨d', hd', rfl⟩ := Option.map_eq_some_iff.1 hd
    exact Discriminator.nodup_addEntries (h.mapping d' hd') _
  enum := h.enum
  const := h.const
  parts := forall_part.2 (forall_part.1 h.parts)

/-- Preparing touches neither defaults nor constants. -/
theorem RefOr.noNull_prepare_iff (c : RefOr Schema) (name : String) :
    (c.map (Schema.prepare schemas name)).NoNull ↔ c.NoNull := by
  cases c with
  | ref path => rfl
  | inline s =>
    have hparts : (∀ c, (Schema.prepare schemas name s).Part c → c.NoNull) ↔
        ∀ c, s.Part c → c.NoNull := by
      rw [Schema.forall_part, Schema.forall_part]
      rfl
    rw [RefOr.map, noNull_inline_iff, noNull_inline_iff, hparts]
    rfl

namespace Spec

variable {spec : Spec}

theorem prepare_of_components {c : Components} (h : spec.components = some c) :
    spec.prepare = ⟨{ spec with components := some { c with schemas := prepareSchemas c.schemas } },
      discriminatingRefs c.schemas⟩ := by
  unfold prepare
  rw [h]

theorem prepare_of_none (h : spec.components = none) : spec.prepare = ⟨spec, []⟩ := by
  unfold prepare
  rw [h]

theorem nodup_schemas (h : spec.toValue.Distinct) : spec.schemas.keys.Nodup := by
  unfold schemas
  cases hc : spec.components with
  | none => exact List.nodup_nil
  | some c => exact (Components.distinct_toValue.1 ((distinct_toValue.1 h).2.2 c hc)).1.1

theorem schemas_prepare (h : spec.toValue.Distinct) : spec.prepare.spec.schemas =
    spec.schemas.mapEntries fun name ↦ RefOr.map (Schema.prepare spec.schemas name) := by
  rw [← prepareSchemas_eq_mapEntries (nodup_schemas h)]
  unfold schemas
  cases hc : spec.components with
  | none => rw [prepare_of_none hc, hc]; rfl
  | some c => rw [prepare_of_components hc]; rfl

theorem discriminating_prepare : spec.prepare.discriminating = discriminatingRefs spec.schemas := by
  unfold schemas
  cases hc : spec.components with
  | none => rw [prepare_of_none hc]; rfl
  | some c => rw [prepare_of_components hc]; rfl

/-- A component of the prepared document is what preparing makes of the one under its name. -/
theorem get?_schemas_prepare (h : spec.toValue.Distinct) {name : String} {s : Schema} :
    Table.get? name spec.prepare.spec.schemas = some (.inline s) ↔
      ∃ t, Table.get? name spec.schemas = some (.inline t) ∧
        s = Schema.prepare spec.schemas name t := by
  rw [schemas_prepare h, Table.get?_mapEntries]
  cases Table.get? name spec.schemas with
  | none => simp
  | some c => cases c <;> simp [RefOr.map, eq_comm]

theorem distinct_prepare (h : spec.toValue.Distinct) : spec.prepare.spec.toValue.Distinct := by
  cases hc : spec.components with
  | none => rwa [prepare_of_none hc]
  | some c =>
    obtain ⟨hservers, hpaths, hcomponents⟩ := distinct_toValue.1 h
    obtain ⟨hschemas, hothers⟩ := Components.distinct_toValue.1 (hcomponents c hc)
    rw [prepare_of_components hc]
    refine distinct_toValue.2 ⟨hservers, hpaths, ?_⟩
    rintro c' ⟨⟩
    refine Components.distinct_toValue.2 ⟨?_, hothers⟩
    dsimp only
    rw [prepareSchemas_eq_mapEntries hschemas.1, Table.keys_mapEntries]
    refine ⟨hschemas.1, fun ⟨name, d⟩ hd ↦ ?_⟩
    obtain ⟨d', hd', rfl⟩ := Table.mem_mapEntries.1 hd
    have hdistinct := hschemas.2 _ hd'
    cases d' with
    | ref path => exact hdistinct
    | inline s =>
      exact Schema.distinct_nodeValue_inline.2
        ((Schema.distinct_nodeValue_inline.1 hdistinct).prepare name)

theorem noNull_prepare_iff (h : spec.toValue.Distinct) :
    (∀ c ∈ spec.prepare.spec.nodes, c.NoNull) ↔ ∀ c ∈ spec.nodes, c.NoNull := by
  cases hc : spec.components with
  | none => rw [prepare_of_none hc]
  | some c =>
    have hschemas := (Components.distinct_toValue.1 ((distinct_toValue.1 h).2.2 c hc)).1.1
    have hprepared : (∀ e ∈ prepareSchemas c.schemas, e.2.NoNull) ↔
        ∀ e ∈ c.schemas, e.2.NoNull := by
      rw [prepareSchemas_eq_mapEntries hschemas, Table.mapEntries, List.forall_mem_map]
      exact forall₂_congr fun e _ ↦ RefOr.noNull_prepare_iff e.2 e.1
    rw [prepare_of_components hc]
    simp only [nodes, hc, Components.nodes, Table.values, List.forall_mem_append,
      Option.toList_some, List.flatMap_singleton, List.forall_mem_map, hprepared]

end Spec

end ApiClient
