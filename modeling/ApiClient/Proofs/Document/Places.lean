import ApiClient.Proofs.Document.FreeReferences
import ApiClient.Proofs.Document.Rewriting

/-!
# Places in a document

Where the objects of a document stand, as the names that lead to them from its root. In the written
document the same names lead to what is written for the object.
-/

namespace ApiClient

open Json (Value)
open Json.Value (record standing)

variable {α : Type}

/-! ## Names that lead into a value -/

/-- The item of a list that a name selects. -/
def itemAt? (name : String) (items : List α) : Option α :=
  (position? name).bind (items[·]?)

theorem itemAt?_map {β : Type} (f : α → β) (name : String) (items : List α) :
    itemAt? name (items.map f) = (itemAt? name items).map f := by
  unfold itemAt?
  cases position? name with
  | none => rfl
  | some i => simp

theorem mem_of_itemAt? {name : String} {items : List α} {a : α} (h : itemAt? name items = some a) :
    a ∈ items := by
  obtain ⟨i, -, hi⟩ := Option.bind_eq_some_iff.1 h
  exact List.mem_of_getElem? hi

namespace Json.Value

theorem at?_of_mem {members : List (String × Option Value)} (hnodup : (members.map (·.1)).Nodup)
    {key : String} {value : Option Value} (hmem : (key, value) ∈ members) {v : Value}
    (hv : value = some v) (names : List String) :
    (record members).at? (key :: names) = v.at? names := by
  have hkeys : (Table.keys (standing members)).Nodup :=
    (keys_standing_sublist members).nodup hnodup
  have hget := Table.get?_of_mem hkeys (mem_standing.2 (hv ▸ hmem))
  show (Table.get? key (standing members)).bind (at? names) = _
  rw [hget, Option.bind_some]

/-- What stands in the member at a position of a record. -/
theorem at?_member {members : List (String × Option Value)} (i : Nat)
    (hnodup : (members.map (·.1)).Nodup) {key : String} {value : Option Value}
    (hmember : members[i]? = some (key, value)) {v : Value} (hv : value = some v)
    (names : List String) : (record members).at? (key :: names) = v.at? names :=
  at?_of_mem hnodup (List.mem_of_getElem? hmember) hv names

theorem at?_table {write : α → Value} {table : Table α} {name : String} {a : α}
    (h : Table.get? name table = some a) (names : List String) :
    (tableOfValues write table).at? (name :: names) = (write a).at? names := by
  have hget : Table.get? name (table.mapEntries fun _ ↦ write) = some (write a) := by
    rw [Table.get?_mapEntries, h, Option.map_some]
  show (Table.get? name (table.mapEntries fun _ ↦ write)).bind (at? names) = _
  rw [hget, Option.bind_some]

theorem at?_list {write : α → Value} {items : List α} {name : String} {a : α}
    (h : itemAt? name items = some a) (names : List String) :
    (Value.arr (items.map write)).at? (name :: names) = (write a).at? names := by
  show (itemAt? name (items.map write)).bind (at? names) = _
  rw [itemAt?_map, h, Option.map_some, Option.bind_some]

theorem distinct_of_at? {root v : Value} (hroot : root.Distinct) {names : List String}
    (h : root.at? names = some v) : v.Distinct := by
  induction names generalizing root with
  | nil => exact Option.some.inj h ▸ hroot
  | cons name names ih =>
    cases hroot with
    | arr hitems =>
      obtain ⟨w, hw, h⟩ := Option.bind_eq_some_iff.1 h
      exact ih (hitems w (mem_of_itemAt? hw)) h
    | obj hkeys hmembers =>
      obtain ⟨w, hw, h⟩ := Option.bind_eq_some_iff.1 h
      exact ih (hmembers _ (Table.mem_of_get? hw)) h
    | _ => cases h

end Json.Value

theorem tableValue_of_get? {write : α → Value} {table : Table α} {name : String} {a : α}
    (h : Table.get? name table = some a) :
    tableValue write table = some (tableOfValues write table) := by
  cases table with
  | nil => cases h
  | cons e rest => rfl

theorem listValue_of_itemAt? {write : α → Value} {items : List α} {name : String} {a : α}
    (h : itemAt? name items = some a) : listValue write items = some (.arr (items.map write)) := by
  cases items with
  | nil => cases mem_of_itemAt? h
  | cons b rest => rfl

/-! ## Parts of a schema -/

namespace Schema

open Json.Value (at?_member)

/-- The names that lead from a schema to its parts. -/
inductive PartAt (s : Schema) : List String → RefOr Schema → Prop
  | property {ps : List (String × RefOr Schema)} (h : s.properties = some ps) {name : String}
      {c : RefOr Schema} (hc : Table.get? name ps = some c) : PartAt s ["properties", name] c
  | additional {c : RefOr Schema} (h : s.additional = some (.schema c)) :
      PartAt s ["additionalProperties"] c
  | items {c : RefOr Schema} (h : s.items = some c) : PartAt s ["items"] c
  | prefixItem {cs : List (RefOr Schema)} (h : s.prefixItems = some cs) {name : String}
      {c : RefOr Schema} (hc : itemAt? name cs = some c) : PartAt s ["prefixItems", name] c
  | allOf {cs : List (RefOr Schema)} (h : s.allOf = some cs) {name : String}
      {c : RefOr Schema} (hc : itemAt? name cs = some c) : PartAt s ["allOf", name] c
  | oneOf {cs : List (RefOr Schema)} (h : s.oneOf = some cs) {name : String}
      {c : RefOr Schema} (hc : itemAt? name cs = some c) : PartAt s ["oneOf", name] c
  | anyOf {cs : List (RefOr Schema)} (h : s.anyOf = some cs) {name : String}
      {c : RefOr Schema} (hc : itemAt? name cs = some c) : PartAt s ["anyOf", name] c

theorem PartAt.part {s : Schema} {names : List String} {c : RefOr Schema} (h : s.PartAt names c) :
    s.Part c := by
  cases h with
  | property h hc => exact .property h (Table.mem_of_get? hc)
  | additional h => exact .additional h
  | items h => exact .items h
  | prefixItem h hc => exact .prefixItem h (mem_of_itemAt? hc)
  | allOf h hc => exact .allOf h (mem_of_itemAt? hc)
  | oneOf h hc => exact .oneOf h (mem_of_itemAt? hc)
  | anyOf h hc => exact .anyOf h (mem_of_itemAt? hc)

theorem PartAt.at? {s : Schema} {names : List String} {c : RefOr Schema} (h : s.PartAt names c) :
    s.toValue.at? names = some (nodeValue c) := by
  rw [toValue_eq_record]
  cases h with
  | property h hc =>
    exact (at?_member 6 (of_decide_eq_true rfl) rfl (congrArg (Option.map _) h) _).trans
      (Json.Value.at?_table hc [])
  | additional h =>
    exact at?_member 8 (of_decide_eq_true rfl) rfl (by rw [h, Option.map_some, additionalValue]) []
  | items h => exact at?_member 9 (of_decide_eq_true rfl) rfl (congrArg (Option.map _) h) []
  | prefixItem h hc =>
    exact (at?_member 10 (of_decide_eq_true rfl) rfl (congrArg (Option.map _) h) _).trans
      (Json.Value.at?_list hc [])
  | allOf h hc =>
    exact (at?_member 11 (of_decide_eq_true rfl) rfl (congrArg (Option.map _) h) _).trans
      (Json.Value.at?_list hc [])
  | oneOf h hc =>
    exact (at?_member 12 (of_decide_eq_true rfl) rfl (congrArg (Option.map _) h) _).trans
      (Json.Value.at?_list hc [])
  | anyOf h hc =>
    exact (at?_member 13 (of_decide_eq_true rfl) rfl (congrArg (Option.map _) h) _).trans
      (Json.Value.at?_list hc [])

end Schema

/-! ## Parts of a document -/

open Json.Value (at?_member at?_of_mem at?_table at?_list)

theorem MediaType.at?_content {content : Table MediaType} {type : String} {m : MediaType}
    (hm : Table.get? type content = some m) {c : RefOr Schema} (hc : m.schema = some c) :
    (tableOfValues toValue content).at? [type, "schema"] = some (Schema.nodeValue c) := by
  rw [at?_table hm, toValue_eq_record]
  exact at?_member 0 (of_decide_eq_true rfl) rfl (congrArg (Option.map _) hc) []

section

variable {item : PathItem} {op : Operation}

theorem PathItem.at?_parameters {name : String} {p : RefOr Parameter}
    (h : itemAt? name item.parameters = some p) :
    item.toValue.at? ["parameters", name] = some (p.toValue Parameter.toValue) := by
  rw [toValue_eq_record]
  exact (at?_member 2 (of_decide_eq_true rfl) rfl (listValue_of_itemAt? h) _).trans
    (at?_list h [])

theorem PathItem.at?_operation {m : Method} (h : item.operation m = some op)
    (names : List String) : item.toValue.at? (m.key :: names) = op.toValue.at? names := by
  rw [toValue_eq_record]
  have hmem : (m.key, (item.operation m).map Operation.toValue) ∈
      Method.all.map fun m ↦ (m.key, (item.operation m).map Operation.toValue) :=
    List.mem_map_of_mem (Method.mem_all m)
  exact at?_of_mem (of_decide_eq_true rfl) (List.mem_append_right _ hmem)
    (congrArg (Option.map _) h) names

theorem Operation.at?_parameters {name : String} {p : RefOr Parameter}
    (h : itemAt? name op.parameters = some p) :
    op.toValue.at? ["parameters", name] = some (p.toValue Parameter.toValue) := by
  rw [toValue_eq_record]
  exact (at?_member 4 (of_decide_eq_true rfl) rfl (listValue_of_itemAt? h) _).trans
    (at?_list h [])

theorem Operation.at?_body {b : RefOr RequestBody} (h : op.body = some b) :
    op.toValue.at? ["requestBody"] = some (b.toValue RequestBody.toValue) := by
  rw [toValue_eq_record]
  exact at?_member 5 (of_decide_eq_true rfl) rfl (congrArg (Option.map _) h) []

theorem Operation.at?_responses {rs : Table (RefOr Response)} (h : op.responses = some rs)
    {code : String} {r : RefOr Response} (hr : Table.get? code rs = some r) :
    op.toValue.at? ["responses", code] = some (r.toValue Response.toValue) := by
  rw [toValue_eq_record]
  exact (at?_member 6 (of_decide_eq_true rfl) rfl (congrArg (Option.map _) h) _).trans
    (at?_table hr [])

end

namespace Spec

variable {spec : Spec}

/-- The names that lead to the parameters in a document. -/
inductive ParameterAt (spec : Spec) : List String → RefOr Parameter → Prop
  | component {cs : Components} (h : spec.components = some cs) {name : String}
      {p : RefOr Parameter} (hp : Table.get? name cs.parameters = some p) :
      ParameterAt spec ["components", "parameters", name] p
  | shared {path : String} {item : PathItem} (h : Table.get? path spec.paths = some item)
      {name : String} {p : RefOr Parameter} (hp : itemAt? name item.parameters = some p) :
      ParameterAt spec ["paths", path, "parameters", name] p
  | own {path : String} {item : PathItem} (h : Table.get? path spec.paths = some item)
      {m : Method} {op : Operation} (hop : item.operation m = some op) {name : String}
      {p : RefOr Parameter} (hp : itemAt? name op.parameters = some p) :
      ParameterAt spec ["paths", path, m.key, "parameters", name] p

/-- The names that lead to the request bodies in a document. -/
inductive BodyAt (spec : Spec) : List String → RefOr RequestBody → Prop
  | component {cs : Components} (h : spec.components = some cs) {name : String}
      {b : RefOr RequestBody} (hb : Table.get? name cs.bodies = some b) :
      BodyAt spec ["components", "requestBodies", name] b
  | own {path : String} {item : PathItem} (h : Table.get? path spec.paths = some item)
      {m : Method} {op : Operation} (hop : item.operation m = some op) {b : RefOr RequestBody}
      (hb : op.body = some b) : BodyAt spec ["paths", path, m.key, "requestBody"] b

/-- The names that lead to the responses in a document. -/
inductive ResponseAt (spec : Spec) : List String → RefOr Response → Prop
  | component {cs : Components} (h : spec.components = some cs) {name : String}
      {r : RefOr Response} (hr : Table.get? name cs.responses = some r) :
      ResponseAt spec ["components", "responses", name] r
  | own {path : String} {item : PathItem} (h : Table.get? path spec.paths = some item)
      {m : Method} {op : Operation} (hop : item.operation m = some op)
      {rs : Table (RefOr Response)} (hrs : op.responses = some rs) {code : String}
      {r : RefOr Response} (hr : Table.get? code rs = some r) :
      ResponseAt spec ["paths", path, m.key, "responses", code] r

/-- The names that lead to the schemas in a document, at any depth. -/
inductive SchemaAt (spec : Spec) : List String → RefOr Schema → Prop
  | component {cs : Components} (h : spec.components = some cs) {name : String}
      {c : RefOr Schema} (hc : Table.get? name cs.schemas = some c) :
      SchemaAt spec ["components", "schemas", name] c
  | parameter {names : List String} {p : Parameter} (h : spec.ParameterAt names (.inline p))
      {c : RefOr Schema} (hc : p.schema = some c) : SchemaAt spec (names ++ ["schema"]) c
  | parameterContent {names : List String} {p : Parameter}
      (h : spec.ParameterAt names (.inline p)) {type : String} {m : MediaType}
      (hm : Table.get? type p.content = some m) {c : RefOr Schema} (hc : m.schema = some c) :
      SchemaAt spec (names ++ ["content", type, "schema"]) c
  | body {names : List String} {b : RequestBody} (h : spec.BodyAt names (.inline b))
      {type : String} {m : MediaType} (hm : Table.get? type b.content = some m)
      {c : RefOr Schema} (hc : m.schema = some c) :
      SchemaAt spec (names ++ ["content", type, "schema"]) c
  | response {names : List String} {r : Response} (h : spec.ResponseAt names (.inline r))
      {type : String} {m : MediaType} (hm : Table.get? type r.content = some m)
      {c : RefOr Schema} (hc : m.schema = some c) :
      SchemaAt spec (names ++ ["content", type, "schema"]) c
  | part {names rest : List String} {s : Schema} (h : SchemaAt spec names (.inline s))
      {c : RefOr Schema} (hc : s.PartAt rest c) : SchemaAt spec (names ++ rest) c

theorem schemaAt_component {name : String} {c : RefOr Schema}
    (h : Table.get? name spec.schemas = some c) :
    spec.SchemaAt ["components", "schemas", name] c := by
  unfold schemas at h
  cases hcs : spec.components with
  | none =>
    rw [hcs] at h
    cases h
  | some cs =>
    rw [hcs] at h
    exact .component hcs h

theorem at?_path {path : String} {item : PathItem} (h : Table.get? path spec.paths = some item)
    (names : List String) :
    spec.toValue.at? ("paths" :: path :: names) = item.toValue.at? names := by
  rw [toValue_eq_record]
  exact (at?_member 3 (of_decide_eq_true rfl) rfl (tableValue_of_get? h) _).trans (at?_table h _)

theorem at?_components {cs : Components} (h : spec.components = some cs) (names : List String) :
    spec.toValue.at? ("components" :: names) = cs.toValue.at? names := by
  rw [toValue_eq_record]
  exact at?_member 4 (of_decide_eq_true rfl) rfl (congrArg (Option.map _) h) names

theorem ParameterAt.at? {names : List String} {p : RefOr Parameter}
    (h : spec.ParameterAt names p) :
    spec.toValue.at? names = some (p.toValue Parameter.toValue) := by
  cases h with
  | component h hp =>
    rw [at?_components h, Components.toValue_eq_record]
    exact (at?_member 2 (of_decide_eq_true rfl) rfl (tableValue_of_get? hp) _).trans
      (at?_table hp [])
  | shared h hp =>
    rw [at?_path h]
    exact PathItem.at?_parameters hp
  | own h hop hp =>
    rw [at?_path h, PathItem.at?_operation hop]
    exact Operation.at?_parameters hp

theorem BodyAt.at? {names : List String} {b : RefOr RequestBody} (h : spec.BodyAt names b) :
    spec.toValue.at? names = some (b.toValue RequestBody.toValue) := by
  cases h with
  | component h hb =>
    rw [at?_components h, Components.toValue_eq_record]
    exact (at?_member 3 (of_decide_eq_true rfl) rfl (tableValue_of_get? hb) _).trans
      (at?_table hb [])
  | own h hop hb =>
    rw [at?_path h, PathItem.at?_operation hop]
    exact Operation.at?_body hb

theorem ResponseAt.at? {names : List String} {r : RefOr Response} (h : spec.ResponseAt names r) :
    spec.toValue.at? names = some (r.toValue Response.toValue) := by
  cases h with
  | component h hr =>
    rw [at?_components h, Components.toValue_eq_record]
    exact (at?_member 1 (of_decide_eq_true rfl) rfl (tableValue_of_get? hr) _).trans
      (at?_table hr [])
  | own h hop hrs hr =>
    rw [at?_path h, PathItem.at?_operation hop]
    exact Operation.at?_responses hrs hr

/-- What the names of a schema lead to is the schema as it is written. -/
theorem SchemaAt.at? {names : List String} {c : RefOr Schema} (h : spec.SchemaAt names c) :
    spec.toValue.at? names = some (Schema.nodeValue c) := by
  induction h with
  | component h hc =>
    rw [at?_components h, Components.toValue_eq_record]
    exact (at?_member 0 (of_decide_eq_true rfl) rfl (tableValue_of_get? hc) _).trans
      (at?_table hc [])
  | parameter h hc =>
    rw [Json.Value.at?_append, h.at?, RefOr.toValue, Option.bind_some,
      Parameter.toValue_eq_record]
    exact at?_member 4 (of_decide_eq_true rfl) rfl (congrArg (Option.map _) hc) []
  | parameterContent h hm hc =>
    rw [Json.Value.at?_append, h.at?, RefOr.toValue, Option.bind_some,
      Parameter.toValue_eq_record]
    exact (at?_member 5 (of_decide_eq_true rfl) rfl (tableValue_of_get? hm) _).trans
      (MediaType.at?_content hm hc)
  | body h hm hc =>
    rw [Json.Value.at?_append, h.at?, RefOr.toValue, Option.bind_some,
      RequestBody.toValue_eq_record]
    exact (at?_member 1 (of_decide_eq_true rfl) rfl rfl _).trans (MediaType.at?_content hm hc)
  | response h hm hc =>
    rw [Json.Value.at?_append, h.at?, RefOr.toValue, Option.bind_some,
      Response.toValue_eq_record]
    exact (at?_member 1 (of_decide_eq_true rfl) rfl (tableValue_of_get? hm) _).trans
      (MediaType.at?_content hm hc)
  | part h hc ih =>
    rw [Json.Value.at?_append, ih, Schema.nodeValue, Option.bind_some]
    exact hc.at?

theorem mem_nodes_of_path {path : String} {item : PathItem}
    (h : Table.get? path spec.paths = some item) {c : RefOr Schema} (hc : c ∈ item.nodes) :
    c ∈ spec.nodes :=
  List.mem_append_left _ (List.mem_flatMap.2 ⟨_, Table.mem_of_get? h, hc⟩)

theorem mem_nodes_of_operation {path : String} {item : PathItem}
    (h : Table.get? path spec.paths = some item) {m : Method} {op : Operation}
    (hop : item.operation m = some op) {c : RefOr Schema} (hc : c ∈ op.nodes) : c ∈ spec.nodes :=
  mem_nodes_of_path h <| List.mem_append_right _ <|
    List.mem_flatMap.2 ⟨m, Method.mem_all m, List.mem_flatMap.2 ⟨op, by simp [hop], hc⟩⟩

theorem mem_nodes_of_components {cs : Components} (h : spec.components = some cs)
    {c : RefOr Schema} (hc : c ∈ cs.nodes) : c ∈ spec.nodes :=
  List.mem_append_right _ (List.mem_flatMap.2 ⟨cs, by simp [h], hc⟩)

theorem ParameterAt.mem_nodes {names : List String} {p : RefOr Parameter}
    (h : spec.ParameterAt names p) {c : RefOr Schema} (hc : c ∈ p.nodes Parameter.nodes) :
    c ∈ spec.nodes := by
  cases h with
  | component h hp =>
    refine mem_nodes_of_components h (List.mem_append_left _ (List.mem_append_right _ ?_))
    exact List.mem_flatMap.2 ⟨_, Table.mem_of_get? hp, hc⟩
  | shared h hp =>
    exact mem_nodes_of_path h (List.mem_append_left _
      (List.mem_flatMap.2 ⟨_, mem_of_itemAt? hp, hc⟩))
  | own h hop hp =>
    refine mem_nodes_of_operation h hop (List.mem_append_left _ (List.mem_append_left _ ?_))
    exact List.mem_flatMap.2 ⟨_, mem_of_itemAt? hp, hc⟩

theorem BodyAt.mem_nodes {names : List String} {b : RefOr RequestBody}
    (h : spec.BodyAt names b) {c : RefOr Schema} (hc : c ∈ b.nodes RequestBody.nodes) :
    c ∈ spec.nodes := by
  cases h with
  | component h hb =>
    refine mem_nodes_of_components h (List.mem_append_right _ ?_)
    exact List.mem_flatMap.2 ⟨_, Table.mem_of_get? hb, hc⟩
  | own h hop hb =>
    refine mem_nodes_of_operation h hop (List.mem_append_left _ (List.mem_append_right _ ?_))
    exact List.mem_flatMap.2 ⟨_, by simp [hb], hc⟩

theorem ResponseAt.mem_nodes {names : List String} {r : RefOr Response}
    (h : spec.ResponseAt names r) {c : RefOr Schema} (hc : c ∈ r.nodes Response.nodes) :
    c ∈ spec.nodes := by
  cases h with
  | component h hr =>
    refine mem_nodes_of_components h (List.mem_append_left _ (List.mem_append_left _
      (List.mem_append_right _ ?_)))
    exact List.mem_flatMap.2 ⟨_, Table.mem_of_get? hr, hc⟩
  | own h hop hrs hr =>
    refine mem_nodes_of_operation h hop (List.mem_append_right _ ?_)
    exact List.mem_flatMap.2 ⟨_, by simp [hrs], List.mem_flatMap.2 ⟨_, Table.mem_of_get? hr, hc⟩⟩

theorem mem_media_nodes {content : Table MediaType} {type : String} {m : MediaType}
    (hm : Table.get? type content = some m) {c : RefOr Schema} (hc : m.schema = some c) :
    c ∈ Media.nodes content :=
  List.mem_flatMap.2 ⟨_, Table.mem_of_get? hm, Option.mem_toList.2 hc⟩

theorem SchemaAt.noNull (hspec : ∀ c ∈ spec.nodes, c.NoNull) {names : List String}
    {c : RefOr Schema} (h : spec.SchemaAt names c) : c.NoNull := by
  induction h with
  | component h hc =>
    refine hspec _ (mem_nodes_of_components h (List.mem_append_left _ (List.mem_append_left _
      (List.mem_append_left _ ?_))))
    exact List.mem_map_of_mem (f := (·.2)) (Table.mem_of_get? hc)
  | parameter h hc => exact hspec _ (h.mem_nodes (List.mem_append_left _ (Option.mem_toList.2 hc)))
  | parameterContent h hm hc =>
    exact hspec _ (h.mem_nodes (List.mem_append_right _ (mem_media_nodes hm hc)))
  | body h hm hc => exact hspec _ (h.mem_nodes (mem_media_nodes hm hc))
  | response h hm hc => exact hspec _ (h.mem_nodes (mem_media_nodes hm hc))
  | part h hc ih =>
    cases ih with
    | inline _ _ hparts => exact hparts _ hc.part

end Spec

end ApiClient
