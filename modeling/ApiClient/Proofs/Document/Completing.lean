import ApiClient.Proofs.Document.Preparing

/-!
# What preparing comes to

Preparing goes over the components three times. What comes of it can be said at once: every inline
component gets its reference, and the mapping of each discriminating one goes on with the extensions
that it leaves out, each once and in the order of the components. A mapping that has been completed
leaves nothing out, so a prepared document is prepared already.
-/

namespace ApiClient

open Pointer (ofComponent)

variable {schemas : Table (RefOr Schema)}

/-! ## Complete mappings -/

/-- Whether a mapping has neither an entry that leads to a component nor one of its name. -/
def Discriminator.leavesOut (d : Discriminator) (child : String) : Bool :=
  !(Table.values d.mapping).contains (ofComponent child) && !Table.has d.mapping child

/-- The entry of a component under its own name. -/
def ownEntry (child : String) : String × String := (child, ofComponent child)

/-- The discriminator with entries, after its own, for the components that it leaves out. -/
def Discriminator.complete (d : Discriminator) (children : List String) : Discriminator :=
  { d with mapping := d.mapping ++ (children.filter d.leavesOut).map ownEntry }

def RefOr.isExtensionOf (parent : String) : RefOr Schema → Bool
  | .ref _ => false
  | .inline c => c.parents.contains parent

/-- The inline components that extend a component, in the order of the components. -/
def extensions (schemas : Table (RefOr Schema)) (parent : String) : List String :=
  Table.keys (schemas.filter fun e ↦ e.2.isExtensionOf parent)

/-- An inline component with its reference and, if it is discriminating, a complete mapping. -/
def Schema.complete (schemas : Table (RefOr Schema)) (name : String) (s : Schema) : Schema :=
  { s with
    discriminator :=
      if s.isDiscriminating then s.discriminator.map (·.complete (extensions schemas name))
      else s.discriminator
    component := some (ofComponent name) }

def completeSchemas (schemas : Table (RefOr Schema)) : Table (RefOr Schema) :=
  schemas.mapEntries fun name ↦ RefOr.map (Schema.complete schemas name)

/-- The document with complete components, and all else as it is. -/
def Spec.complete (spec : Spec) : Spec :=
  { spec with
    components := spec.components.map fun c ↦ { c with schemas := completeSchemas c.schemas } }

namespace Discriminator

variable {d : Discriminator} {children : List String}

theorem leavesOut_iff {child : String} : d.leavesOut child = true ↔
    ofComponent child ∉ Table.values d.mapping ∧ child ∉ Table.keys d.mapping := by
  rw [leavesOut, Bool.and_eq_true, Bool.not_eq_true', Bool.not_eq_true', ← Bool.not_eq_true,
    ← Bool.not_eq_true, List.contains_iff_mem, Table.has_iff_mem_keys]

/-- Different names are added after the entries of a mapping, without those that are taken. -/
theorem addEntries_of_nodup (h : children.Nodup) : d.addEntries children =
    { d with mapping := d.mapping ++
      (children.filter fun child ↦ !Table.has d.mapping child).map ownEntry } := by
  induction children generalizing d with
  | nil =>
    rw [List.filter_nil, List.map_nil, List.append_nil]
    rfl
  | cons child rest ih =>
    obtain ⟨hnew, hrest⟩ := List.nodup_cons.1 h
    rw [addEntries, List.foldl_cons, ← addEntries, ih hrest, addEntry]
    by_cases hchild : Table.has d.mapping child = true
    · rw [if_pos hchild, List.filter_cons_of_neg (by simp [hchild])]
    · have hkey : child ∉ Table.keys d.mapping := fun hmem ↦ hchild (Table.has_iff_mem_keys.2 hmem)
      have hothers : (rest.filter fun other ↦
          !Table.has (d.mapping ++ [ownEntry child]) other) =
            rest.filter fun other ↦ !Table.has d.mapping other := by
        refine List.filter_congr fun other hother ↦ ?_
        have hne : child ≠ other := fun heq ↦ hnew (heq ▸ hother)
        simp [Table.has, ownEntry, hne]
      rw [if_neg hchild, List.filter_cons_of_pos (by simp [hchild])]
      dsimp only
      rw [Table.put_of_notMem hkey, show (child, ofComponent child) = ownEntry child from rfl,
        hothers, List.map_cons, List.append_assoc]
      rfl

theorem addEntry_addEntry (d : Discriminator) (child : String) :
    (d.addEntry child).addEntry child = d.addEntry child := by
  rw [addEntry, if_pos (has_addEntry.2 (.inl rfl))]

/-- A name that is added more than once in a row is added once. -/
theorem addEntries_of_forall_eq {child : String} (h : ∀ other ∈ children, other = child)
    (hne : children ≠ []) : d.addEntries children = d.addEntry child := by
  induction children generalizing d with
  | nil => exact absurd rfl hne
  | cons first rest ih =>
    obtain ⟨rfl, hrest⟩ := List.forall_mem_cons.1 h
    rw [addEntries, List.foldl_cons, ← addEntries]
    by_cases hnil : rest = []
    · rw [hnil]
      rfl
    · rw [ih hrest hnil, addEntry_addEntry]

theorem addEntries_flatMap {α : Type} {l : List α} (key : α → String) {f : α → List String}
    (hf : ∀ a ∈ l, ∀ child ∈ f a, child = key a) :
    d.addEntries (l.flatMap f) =
      d.addEntries ((l.filter fun a ↦ !(f a).isEmpty).map key) := by
  induction l generalizing d with
  | nil => rfl
  | cons a rest ih =>
    obtain ⟨ha, hrest⟩ := List.forall_mem_cons.1 hf
    have hsplit : d.addEntries (f a ++ rest.flatMap f) =
        (d.addEntries (f a)).addEntries (rest.flatMap f) := List.foldl_append
    rw [List.flatMap_cons, hsplit, ih hrest]
    by_cases hnil : f a = []
    · rw [List.filter_cons_of_neg (by simp [hnil]), hnil]
      rfl
    · rw [List.filter_cons_of_pos (by simp [hnil]), addEntries_of_forall_eq ha hnil]
      rfl

/-- A complete mapping leaves nothing out. -/
theorem complete_complete (d : Discriminator) (children : List String) :
    (d.complete children).complete children = d.complete children := by
  have hnone : children.filter (d.complete children).leavesOut = [] := by
    refine List.filter_eq_nil_iff.2 fun child hchild hleft ↦ ?_
    obtain ⟨htarget, hkey⟩ := leavesOut_iff.1 hleft
    have hentries : ∀ entry ∈ d.mapping, entry ∈ (d.complete children).mapping :=
      fun entry hentry ↦ List.mem_append_left _ hentry
    -- what the completed mapping leaves out the mapping before it left out as well, and so it
    -- has been added
    have hbefore : d.leavesOut child = true := by
      refine leavesOut_iff.2 ⟨fun hmem ↦ htarget ?_, fun hmem ↦ hkey ?_⟩
      · exact List.map_subset _ hentries hmem
      · exact List.map_subset _ hentries hmem
    have hadded : ownEntry child ∈ (d.complete children).mapping :=
      List.mem_append_right _ (List.mem_map_of_mem (List.mem_filter.2 ⟨hchild, hbefore⟩))
    exact hkey (List.mem_map_of_mem (f := (·.1)) hadded)
  rw [complete, hnone, List.map_nil, List.append_nil]

end Discriminator

/-! ## Prepared components -/

theorem mem_extensions (h : schemas.keys.Nodup) {parent child : String} :
    child ∈ extensions schemas parent ↔ ∃ c cs path,
      Table.get? child schemas = some (.inline c) ∧ c.allOf = some cs ∧ .ref path ∈ cs ∧
      Pointer.segments path = .ok ["components", "schemas", parent] := by
  constructor
  · intro hmem
    obtain ⟨⟨name, node⟩, hentry, rfl⟩ := List.mem_map.1 hmem
    obtain ⟨hentry, hparent⟩ := List.mem_filter.1 hentry
    cases node with
    | ref path => cases hparent
    | inline c =>
      obtain ⟨cs, path, hcs, hpath, hname⟩ := Schema.mem_parents.1 (List.contains_iff_mem.1 hparent)
      exact ⟨c, cs, path, Table.get?_of_mem h hentry, hcs, hpath,
        Pointer.componentName?_eq_some.1 hname⟩
  · rintro ⟨c, cs, path, hentry, hcs, hpath, hname⟩
    have hparent : parent ∈ c.parents :=
      Schema.mem_parents.2 ⟨cs, path, hcs, hpath, Pointer.componentName?_eq_some.2 hname⟩
    exact List.mem_map.2 ⟨_, List.mem_filter.2 ⟨Table.mem_of_get? hentry,
      List.contains_iff_mem.2 hparent⟩, rfl⟩

theorem extensions_sublist (schemas : Table (RefOr Schema)) (parent : String) :
    (extensions schemas parent).Sublist schemas.keys :=
  List.filter_sublist.map _

section

variable {name : String} {s : Schema} {d : Discriminator} (h : schemas.keys.Nodup)
  (hs : Table.get? name schemas = some (.inline s)) (hd : s.discriminator = some d)
  (hdiscriminates : s.isDiscriminating = true)

include h hs hd hdiscriminates

/-- An extension that the mapping has no entry for is added once, however often it names the
component. -/
theorem addEntries_lackingEntries : d.addEntries (lackingEntries schemas name) =
    d.addEntries (Table.keys (schemas.filter fun e ↦ e.2.isExtensionOf name &&
      !(Table.values d.mapping).contains (ofComponent e.1))) := by
  have hcontains := (contains_discriminatingRefs h hs).trans hdiscriminates
  unfold lackingEntries missingEntries
  rw [List.filter_flatMap, List.map_flatMap, Discriminator.addEntries_flatMap Prod.fst]
  · refine congrArg (fun l ↦ d.addEntries (List.map Prod.fst l)) (List.filter_congr ?_)
    rintro ⟨child, node⟩ -
    cases node with
    | ref path => rfl
    | inline c =>
      have hparent : name ∈ c.parents ↔ c.parents.contains name = true :=
        List.contains_iff_mem.symm
      rw [Bool.eq_iff_iff, Bool.not_eq_true', ← Bool.not_eq_true, List.isEmpty_iff,
        List.map_eq_nil_iff, List.filter_eq_nil_iff]
      simp [RefOr.isExtensionOf, -List.contains_eq_mem, hcontains, mapsTo_of_get? hs hd, hparent]
  · rintro ⟨child, node⟩ - other hother
    cases node with
    | ref path => cases hother
    | inline c =>
      obtain ⟨e, he, rfl⟩ := List.mem_map.1 hother
      obtain ⟨parent, -, rfl⟩ := List.mem_map.1 (List.mem_filter.1 he).1
      rfl

/-- What a discriminating component lacks completes its mapping. -/
theorem addEntries_eq_complete :
    d.addEntries (lackingEntries schemas name) = d.complete (extensions schemas name) := by
  have hnodup : (Table.keys (schemas.filter fun e ↦ e.2.isExtensionOf name &&
      !(Table.values d.mapping).contains (ofComponent e.1))).Nodup :=
    (List.filter_sublist.map _).nodup h
  rw [addEntries_lackingEntries h hs hd hdiscriminates, Discriminator.addEntries_of_nodup hnodup,
    Discriminator.complete]
  refine congrArg (fun l ↦ { d with mapping := d.mapping ++ List.map ownEntry l }) ?_
  rw [extensions, Table.keys, Table.keys, List.filter_map, List.filter_map, List.filter_filter,
    List.filter_filter]
  refine congrArg (List.map Prod.fst) (List.filter_congr fun e _ ↦ ?_)
  simp only [Function.comp_apply, Discriminator.leavesOut]
  cases Table.has d.mapping e.1 <;> simp [Bool.and_comm]

end

theorem lackingEntries_of_not_discriminating (h : schemas.keys.Nodup) {name : String} {s : Schema}
    (hs : Table.get? name schemas = some (.inline s)) (hnot : s.isDiscriminating = false) :
    lackingEntries schemas name = [] := by
  refine List.eq_nil_iff_forall_not_mem.2 fun child hchild ↦ ?_
  obtain ⟨c, -, -, hcontains, -⟩ := mem_missingEntries.1 (mem_lackingEntries.1 hchild)
  rw [contains_discriminatingRefs h hs, hnot] at hcontains
  cases hcontains

/-- What preparing makes of a component is the complete component. -/
theorem Schema.prepare_eq_complete (h : schemas.keys.Nodup) {name : String} {s : Schema}
    (hs : Table.get? name schemas = some (.inline s)) :
    Schema.prepare schemas name s = s.complete schemas name := by
  unfold prepare addEntries complete
  by_cases hdiscriminates : s.isDiscriminating = true
  · rw [if_pos hdiscriminates]
    obtain ⟨d, hd⟩ := Option.isSome_iff_exists.1 (isDiscriminating_iff.1 hdiscriminates).1
    rw [hd, Option.map_some, Option.map_some, addEntries_eq_complete h hs hd hdiscriminates]
  · rw [if_neg hdiscriminates,
      lackingEntries_of_not_discriminating h hs (Bool.not_eq_true _ ▸ hdiscriminates)]
    unfold Discriminator.addEntries
    simp

theorem prepareSchemas_eq_complete (h : schemas.keys.Nodup) :
    prepareSchemas schemas = completeSchemas schemas := by
  rw [prepareSchemas_eq_mapEntries h]
  refine Table.mapEntries_congr fun ⟨name, node⟩ hentry ↦ ?_
  cases node with
  | ref path => rfl
  | inline s =>
    have hs := Table.get?_of_mem h hentry
    exact congrArg RefOr.inline (Schema.prepare_eq_complete h hs)

/-! ## Preparing again -/

theorem isDiscriminating_complete (schemas : Table (RefOr Schema)) (name : String) (s : Schema) :
    (s.complete schemas name).isDiscriminating = s.isDiscriminating := by
  unfold Schema.complete Schema.isDiscriminating
  split <;> simp

theorem isExtensionOf_complete (schemas : Table (RefOr Schema)) (parent name : String)
    (node : RefOr Schema) :
    (node.map (Schema.complete schemas name)).isExtensionOf parent = node.isExtensionOf parent := by
  cases node <;> rfl

theorem extensions_completeSchemas (parent : String) :
    extensions (completeSchemas schemas) parent = extensions schemas parent := by
  unfold extensions completeSchemas Table.mapEntries Table.keys
  rw [List.filter_map, List.map_map]
  simp only [Function.comp_def, isExtensionOf_complete]

theorem discriminatingRefs_completeSchemas :
    discriminatingRefs (completeSchemas schemas) = discriminatingRefs schemas := by
  unfold discriminatingRefs completeSchemas Table.mapEntries
  rw [List.filterMap_map]
  refine congrArg (List.filterMap · schemas) (funext fun ⟨name, node⟩ ↦ ?_)
  cases node with
  | ref path => rfl
  | inline s => simp [RefOr.map, isDiscriminating_complete]

theorem Schema.complete_complete (schemas : Table (RefOr Schema)) (name : String) (s : Schema) :
    (s.complete schemas name).complete (completeSchemas schemas) name =
      s.complete schemas name := by
  rw [complete, isDiscriminating_complete, extensions_completeSchemas]
  unfold complete
  split
  · simp [Function.comp_def, Discriminator.complete_complete]
  · rfl

theorem completeSchemas_completeSchemas (schemas : Table (RefOr Schema)) :
    completeSchemas (completeSchemas schemas) = completeSchemas schemas := by
  refine (Table.mapEntries_mapEntries _ _ schemas).trans (Table.mapEntries_congr fun e _ ↦ ?_)
  cases e.2 with
  | ref path => rfl
  | inline s => exact congrArg RefOr.inline (s.complete_complete schemas e.1)

namespace Spec

variable {spec : Spec}

theorem spec_prepare (h : spec.schemas.keys.Nodup) : spec.prepare.spec = spec.complete := by
  cases hc : spec.components with
  | none => rw [prepare_of_none hc, complete, hc, Option.map_none, ← hc]
  | some c =>
    have hkeys : c.schemas.keys.Nodup := by
      simpa [schemas, hc] using h
    rw [prepare_of_components hc, complete, hc, Option.map_some, prepareSchemas_eq_complete hkeys]

theorem prepare_eq_complete (h : spec.schemas.keys.Nodup) :
    spec.prepare = ⟨spec.complete, discriminatingRefs spec.schemas⟩ := by
  rw [← spec_prepare h, ← discriminating_prepare]

theorem schemas_complete : spec.complete.schemas = completeSchemas spec.schemas := by
  unfold schemas complete
  cases spec.components <;> rfl

theorem complete_complete : spec.complete.complete = spec.complete := by
  have hcomponents : (spec.components.map fun c ↦
        { c with schemas := completeSchemas c.schemas }).map
          (fun c ↦ { c with schemas := completeSchemas c.schemas }) =
      spec.components.map fun c ↦ { c with schemas := completeSchemas c.schemas } := by
    rw [Option.map_map]
    simp only [Function.comp_def, completeSchemas_completeSchemas]
  exact congrArg (fun components ↦ { spec with components }) hcomponents

theorem prepare_prepare (h : spec.schemas.keys.Nodup) :
    spec.prepare.spec.prepare = spec.prepare := by
  have hkeys : spec.complete.schemas.keys.Nodup := by
    rw [schemas_complete, completeSchemas, Table.keys_mapEntries]
    exact h
  rw [prepare_eq_complete h, prepare_eq_complete hkeys, complete_complete, schemas_complete,
    discriminatingRefs_completeSchemas]

end Spec

/-- Preparing returns the references of the inline components that have a discriminator and are no
unions, and it completes the document and does nothing else: preparing a prepared document is
without effect. The extensions of a component are those inline ones of which `allOf` has a reference
that leads to it, each once and in the order of the components. -/
theorem prepare_completes {spec : Spec} (h : spec.schemas.keys.Nodup) :
    (∀ reference, reference ∈ spec.prepare.discriminating ↔ ∃ name s,
      Table.get? name spec.schemas = some (.inline s) ∧
      (s.discriminator.isSome ∧ s.oneOf = none ∧ s.anyOf = none) ∧
      reference = ofComponent name) ∧
    spec.prepare.spec = spec.complete ∧
    (∀ parent, (extensions spec.schemas parent).Nodup ∧
      (extensions spec.schemas parent).Sublist spec.schemas.keys ∧
      ∀ child, child ∈ extensions spec.schemas parent ↔ ∃ c cs path,
        Table.get? child spec.schemas = some (.inline c) ∧ c.allOf = some cs ∧ .ref path ∈ cs ∧
        Pointer.segments path = .ok ["components", "schemas", parent]) ∧
    spec.prepare.spec.prepare = spec.prepare := by
  refine ⟨fun reference ↦ ?_, ?_, fun parent ↦ ⟨?_, ?_, fun child ↦ mem_extensions h⟩,
    Spec.prepare_prepare h⟩
  · rw [Spec.prepare_eq_complete h]
    simp only [mem_discriminatingRefs h, Schema.isDiscriminating_iff]
  · rw [Spec.prepare_eq_complete h]
  · exact (extensions_sublist spec.schemas parent).nodup h
  · exact extensions_sublist spec.schemas parent

/-! ## Shapes -/

namespace Shapes

def extension (references : List String) : Schema where
  allOf := some (references.map .ref)

/-- A document in which one extension has an entry, one has a name that is taken, and one names what
it extends twice. -/
def spec : Spec where
  version := "3.0.0"
  info := { title := "t", version := "1" }
  components := some {
    schemas := [
      ("Line", .inline (extension ["#/components/schemas/Sh%61pe", "#/components/schemas/Shape"])),
      ("Shape", .inline {
        discriminator := some {
          property := some "kind"
          mapping := [("round", ofComponent "Circle"), ("Square", ofComponent "Box")] } }),
      ("Circle", .inline (extension ["#/components/schemas/Shape"])),
      ("Square", .inline (extension ["#/components/schemas/Shape"])),
      ("Point", .inline (extension ["#/components/schemas/Shape"]))] }

end Shapes

open Shapes in
theorem prepare_completes_shapes : spec.schemas.keys.Nodup ∧
    spec.prepare.discriminating = [ofComponent "Shape"] ∧
    (∃ s, Table.get? "Shape" spec.prepare.spec.schemas = some (.inline s) ∧
      s.discriminator.map (·.mapping) = some [("round", ofComponent "Circle"),
        ("Square", ofComponent "Box"), ("Line", ofComponent "Line"),
        ("Point", ofComponent "Point")]) ∧
    spec.prepare.spec.prepare = spec.prepare := by
  have hkeys : spec.schemas.keys.Nodup := by
    decide
  obtain ⟨-, hcomplete, -, hagain⟩ := prepare_completes hkeys
  refine ⟨hkeys, rfl, ?_, hagain⟩
  rw [hcomplete]
  exact ⟨_, rfl, by rfl⟩

end ApiClient
