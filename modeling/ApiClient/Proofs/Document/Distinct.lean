import ApiClient.Proofs.Document.Ascii

/-!
# Keys that stand once

A value in which no object has a key twice, at any depth. A written record has the names of its
fields for keys, so it is such a value if its fields are, and a table is one if its keys are
different.
-/

namespace ApiClient

open Json (Value)

namespace Json.Value

/-- No object in a value has a key twice, at any depth. -/
inductive Distinct : Value → Prop where
  | null : Distinct .null
  | bool (b : Bool) : Distinct (.bool b)
  | num (n : Number) : Distinct (.num n)
  | str (s : String) : Distinct (.str s)
  | arr {items : List Value} (h : ∀ v ∈ items, v.Distinct) : Distinct (.arr items)
  | obj {members : List (String × Value)} (hkeys : (Table.keys members).Nodup)
      (h : ∀ m ∈ members, m.2.Distinct) : Distinct (.obj members)

theorem distinct_arr {items : List Value} : (arr items).Distinct ↔ ∀ v ∈ items, v.Distinct :=
  ⟨fun (.arr h) ↦ h, .arr⟩

theorem distinct_obj {members : List (String × Value)} :
    (obj members).Distinct ↔ (Table.keys members).Nodup ∧ ∀ m ∈ members, m.2.Distinct :=
  ⟨fun (.obj hkeys h) ↦ ⟨hkeys, h⟩, fun ⟨hkeys, h⟩ ↦ .obj hkeys h⟩

/-- Whatever stands in a member of a record, no object in it has a key twice. -/
def DistinctIn (value : Option Value) : Prop :=
  ∀ v ∈ value, v.Distinct

/-- The members of a record that are not left out. -/
def standing (members : List (String × Option Value)) : List (String × Value) :=
  members.flatMap fun m ↦ member m.1 m.2

/-- A record as a value: its members by name, each with a value or left out. -/
def record (members : List (String × Option Value)) : Value :=
  .obj (standing members)

theorem keys_standing_sublist (members : List (String × Option Value)) :
    (Table.keys (standing members)).Sublist (members.map (·.1)) := by
  unfold Table.keys standing
  induction members with
  | nil => exact List.Sublist.refl _
  | cons m rest ih =>
    rw [List.flatMap_cons, List.map_append, List.map_cons]
    cases hm : m.2 with
    | none => exact ih.trans (List.sublist_cons_self _ _)
    | some v => exact ih.cons_cons _

theorem mem_standing {members : List (String × Option Value)} {m : String × Value} :
    m ∈ standing members ↔ (m.1, some m.2) ∈ members := by
  simp only [standing, List.mem_flatMap]
  constructor
  · rintro ⟨⟨key, value⟩, hfield, hm⟩
    cases value with
    | none => simp [member] at hm
    | some v =>
      obtain rfl : m = (key, v) := by simpa [member] using hm
      exact hfield
  · exact fun h ↦ ⟨_, h, by simp [member]⟩

theorem distinct_record {members : List (String × Option Value)}
    (hnodup : (members.map (·.1)).Nodup) :
    (record members).Distinct ↔ ∀ m ∈ members, DistinctIn m.2 := by
  rw [record, distinct_obj]
  constructor
  · rintro ⟨-, h⟩ m hm v hv
    exact h (m.1, v) (mem_standing.2 (hv ▸ hm))
  · exact fun h ↦ ⟨(keys_standing_sublist members).nodup hnodup, fun m hm ↦
      h _ (mem_standing.1 hm) _ rfl⟩

end Json.Value

/-! ## Parts of written records -/

section

open Json.Value (Distinct DistinctIn distinct_arr distinct_obj)

variable {α : Type} {write : α → Value}

@[simp] theorem distinctIn_some {v : Value} : DistinctIn (some v) ↔ v.Distinct := by
  simp [DistinctIn]

@[simp] theorem distinctIn_map {x : Option α} :
    DistinctIn (x.map write) ↔ ∀ a ∈ x, (write a).Distinct := by
  cases x <;> simp [DistinctIn]

@[simp] theorem distinctIn_textValue (t? : Option String) : DistinctIn (textValue t?) := by
  simp [textValue, Distinct.str]

@[simp] theorem distinctIn_flagValue (b? : Option Bool) : DistinctIn (flagValue b?) := by
  simp [flagValue, Distinct.bool]

@[simp] theorem distinct_textsValue (ts : List String) : (textsValue ts).Distinct := by
  simp [textsValue, distinct_arr, Distinct.str]

@[simp] theorem distinctIn_listValue {xs : List α} :
    DistinctIn (listValue write xs) ↔ ∀ x ∈ xs, (write x).Distinct := by
  rw [listValue]
  cases xs with
  | nil => simp [DistinctIn]
  | cons x xs => simp [distinct_arr]

@[simp] theorem distinct_tableOfValues {table : Table α} :
    (tableOfValues write table).Distinct ↔
      table.keys.Nodup ∧ ∀ e ∈ table, (write e.2).Distinct := by
  rw [tableOfValues, distinct_obj, List.forall_mem_map, Table.keys, List.map_map]
  rfl

@[simp] theorem distinctIn_tableValue {table : Table α} :
    DistinctIn (tableValue write table) ↔
      table.keys.Nodup ∧ ∀ e ∈ table, (write e.2).Distinct := by
  rw [tableValue]
  cases table with
  | nil => simp [DistinctIn, Table.keys]
  | cons e table =>
    rw [List.isEmpty_cons, ← distinct_tableOfValues]
    simp

@[simp] theorem distinct_referenceValue (path : String) : (referenceValue path).Distinct := by
  exact .obj (by simp [Table.keys]) (by simp [Distinct.str])

@[simp] theorem RefOr.distinct_toValue {c : RefOr α} :
    (c.toValue write).Distinct ↔ ∀ a, c = .inline a → (write a).Distinct := by
  cases c with
  | ref path => simp [RefOr.toValue, distinct_referenceValue]
  | inline a => simp [RefOr.toValue]

@[simp] theorem TypeSet.distinct_toValue (types : TypeSet) : types.toValue.Distinct := by
  cases types with
  | one name => exact .str _
  | many names => simp [TypeSet.toValue, distinct_arr, Distinct.str]

end

/-! ## Schemas -/

namespace Discriminator

theorem toValue_eq_record (d : Discriminator) : d.toValue = .record [
    ("propertyName", textValue d.property), ("mapping", tableValue .str d.mapping)] := by
  simp only [toValue, Json.Value.record, Json.Value.standing, List.flatMap_cons, List.flatMap_nil,
    List.append_nil]

theorem distinct_toValue {d : Discriminator} :
    d.toValue.Distinct ↔ (Table.keys d.mapping).Nodup := by
  rw [toValue_eq_record, Json.Value.distinct_record (of_decide_eq_true rfl)]
  simp [Json.Value.Distinct.str]

end Discriminator

namespace Schema

open Json.Value (DistinctIn)

theorem toValue_eq_record (s : Schema) : s.toValue = .record [
    ("type", s.types.map TypeSet.toValue), ("format", textValue s.format),
    ("title", textValue s.title), ("description", textValue s.description),
    ("default", s.default), ("nullable", flagValue s.nullable),
    ("properties", s.properties.map (tableOfValues nodeValue)),
    ("required", s.required.map textsValue),
    ("additionalProperties", s.additional.map additionalValue), ("items", s.items.map nodeValue),
    ("prefixItems", s.prefixItems.map nodeList), ("allOf", s.allOf.map nodeList),
    ("oneOf", s.oneOf.map nodeList), ("anyOf", s.anyOf.map nodeList),
    ("discriminator", s.discriminator.map Discriminator.toValue), ("enum", s.enum.map .arr),
    ("x-enumNames", s.enumNames.map textsValue), ("x-enum-varnames", s.enumVarNames.map textsValue),
    ("readOnly", flagValue s.readOnly), ("writeOnly", flagValue s.writeOnly), ("const", s.const),
    ("x-component-ref-path", textValue s.component)] := by
  rw [toValue_eq]
  simp only [Json.Value.record, Json.Value.standing, List.flatMap_cons, List.flatMap_nil,
    List.append_nil, List.append_assoc]

/-- The keys of the properties and of the mapping stand once, and no object in a value or in a part
of the schema has a key twice. -/
structure Distinct (s : Schema) : Prop where
  default : DistinctIn s.default
  properties : ∀ ps ∈ s.properties, (Table.keys ps).Nodup
  mapping : ∀ d ∈ s.discriminator, (Table.keys d.mapping).Nodup
  enum : ∀ vs ∈ s.enum, ∀ v ∈ vs, v.Distinct
  const : DistinctIn s.const
  parts : ∀ c, s.Part c → (nodeValue c).Distinct

theorem Distinct.empty : ({} : Schema).Distinct where
  default := by simp [DistinctIn]
  properties := by simp
  mapping := by simp
  enum := by simp
  const := by simp [DistinctIn]
  parts := by
    intro c hc
    cases hc with
    | _ h => cases h

theorem forall_part {P : RefOr Schema → Prop} {s : Schema} : (∀ c, s.Part c → P c) ↔
    (∀ ps ∈ s.properties, ∀ p ∈ ps, P p.2) ∧ (∀ c, s.additional = some (.schema c) → P c) ∧
      (∀ c ∈ s.items, P c) ∧ (∀ cs ∈ s.prefixItems, ∀ c ∈ cs, P c) ∧
      (∀ cs ∈ s.allOf, ∀ c ∈ cs, P c) ∧ (∀ cs ∈ s.oneOf, ∀ c ∈ cs, P c) ∧
      ∀ cs ∈ s.anyOf, ∀ c ∈ cs, P c := by
  constructor
  · intro h
    exact ⟨fun ps hps p hp ↦ h _ (.property hps hp), fun c hc ↦ h c (.additional hc),
      fun c hc ↦ h c (.items hc), fun cs hcs c hc ↦ h c (.prefixItem hcs hc),
      fun cs hcs c hc ↦ h c (.allOf hcs hc), fun cs hcs c hc ↦ h c (.oneOf hcs hc),
      fun cs hcs c hc ↦ h c (.anyOf hcs hc)⟩
  · rintro ⟨hproperties, hadditional, hitems, hprefixItems, hallOf, honeOf, hanyOf⟩ c hc
    cases hc with
    | property hps hp => exact hproperties _ hps _ hp
    | additional hc => exact hadditional _ hc
    | items hc => exact hitems _ hc
    | prefixItem hcs hc => exact hprefixItems _ hcs _ hc
    | allOf hcs hc => exact hallOf _ hcs _ hc
    | oneOf hcs hc => exact honeOf _ hcs _ hc
    | anyOf hcs hc => exact hanyOf _ hcs _ hc

theorem distinct_nodeList {cs : List (RefOr Schema)} :
    (nodeList cs).Distinct ↔ ∀ c ∈ cs, (nodeValue c).Distinct := by
  simp [nodeList, Json.Value.distinct_arr]

theorem distinct_additional {a? : Option (Additional Schema)} :
    (∀ a ∈ a?, (additionalValue a).Distinct) ↔
      ∀ c, a? = some (.schema c) → (nodeValue c).Distinct := by
  cases a? with
  | none => simp
  | some a => cases a <;> simp [additionalValue, Json.Value.Distinct.bool]

theorem distinct_toValue {s : Schema} : s.toValue.Distinct ↔ s.Distinct := by
  rw [toValue_eq_record, Json.Value.distinct_record (of_decide_eq_true rfl)]
  simp only [List.forall_mem_cons, List.not_mem_nil, false_imp_iff, implies_true, distinctIn_map,
    distinctIn_textValue, distinctIn_flagValue, distinct_textsValue, distinct_tableOfValues,
    distinct_additional, distinct_nodeList, TypeSet.distinct_toValue,
    Discriminator.distinct_toValue, Json.Value.distinct_arr, true_and, and_true]
  constructor
  · rintro ⟨hdefault, hproperties, hadditional, hitems, hprefixItems, hallOf, honeOf, hanyOf,
      hmapping, henum, hconst⟩
    exact ⟨hdefault, fun ps hps ↦ (hproperties ps hps).1, hmapping, henum, hconst,
      forall_part.2 ⟨fun ps hps ↦ (hproperties ps hps).2, hadditional, hitems, hprefixItems, hallOf,
        honeOf, hanyOf⟩⟩
  · intro h
    obtain ⟨hproperties, hadditional, hitems, hprefixItems, hallOf, honeOf, hanyOf⟩ :=
      forall_part.1 h.parts
    exact ⟨h.default, fun ps hps ↦ ⟨h.properties ps hps, hproperties ps hps⟩, hadditional, hitems,
      hprefixItems, hallOf, honeOf, hanyOf, h.mapping, h.enum, h.const⟩

theorem distinct_nodeValue_ref (path : String) : (nodeValue (.ref path)).Distinct := by
  rw [nodeValue]
  exact distinct_referenceValue path

theorem distinct_nodeValue_inline {s : Schema} :
    (nodeValue (.inline s)).Distinct ↔ s.Distinct := by
  rw [nodeValue, distinct_toValue]

end Schema

/-! ## Operations and documents -/

/-- The media types stand once, and their schemas have no key twice. -/
def Media.Distinct (content : Table MediaType) : Prop :=
  content.keys.Nodup ∧ ∀ e ∈ content, ∀ c ∈ e.2.schema, (Schema.nodeValue c).Distinct

theorem MediaType.toValue_eq_record (m : MediaType) :
    m.toValue = .record [("schema", m.schema.map Schema.nodeValue)] := by
  simp only [toValue, Json.Value.record, Json.Value.standing, List.flatMap_cons, List.flatMap_nil,
    List.append_nil]

@[simp] theorem MediaType.distinct_toValue {m : MediaType} :
    m.toValue.Distinct ↔ ∀ c ∈ m.schema, (Schema.nodeValue c).Distinct := by
  rw [toValue_eq_record, Json.Value.distinct_record (of_decide_eq_true rfl)]
  simp

theorem Parameter.toValue_eq_record (p : Parameter) : p.toValue = .record [
    ("name", some (.str p.name)), ("in", some (.str p.location.word)),
    ("description", textValue p.description), ("required", some (.bool p.required)),
    ("schema", p.schema.map Schema.nodeValue), ("content", tableValue MediaType.toValue p.content),
    ("style", textValue p.style), ("explode", flagValue p.explode)] := by
  simp only [toValue, Json.Value.record, Json.Value.standing, List.flatMap_cons, List.flatMap_nil,
    List.append_nil,
    List.append_assoc]

theorem Parameter.distinct_toValue {p : Parameter} : p.toValue.Distinct ↔
    (∀ c ∈ p.schema, (Schema.nodeValue c).Distinct) ∧ Media.Distinct p.content := by
  rw [toValue_eq_record, Json.Value.distinct_record (of_decide_eq_true rfl)]
  simp [Json.Value.Distinct.str, Json.Value.Distinct.bool, Media.Distinct]

theorem RequestBody.toValue_eq_record (b : RequestBody) : b.toValue = .record [
    ("description", textValue b.description),
    ("content", some (tableOfValues MediaType.toValue b.content)),
    ("required", some (.bool b.required))] := by
  simp only [toValue, Json.Value.record, Json.Value.standing, List.flatMap_cons, List.flatMap_nil,
    List.append_nil,
    List.append_assoc]

theorem RequestBody.distinct_toValue {b : RequestBody} :
    b.toValue.Distinct ↔ Media.Distinct b.content := by
  rw [toValue_eq_record, Json.Value.distinct_record (of_decide_eq_true rfl)]
  simp [Json.Value.Distinct.bool, Media.Distinct]

theorem Response.toValue_eq_record (r : Response) : r.toValue = .record [
    ("description", some (.str r.description)),
    ("content", tableValue MediaType.toValue r.content)] := by
  simp only [toValue, Json.Value.record, Json.Value.standing, List.flatMap_cons, List.flatMap_nil,
    List.append_nil]

theorem Response.distinct_toValue {r : Response} :
    r.toValue.Distinct ↔ Media.Distinct r.content := by
  rw [toValue_eq_record, Json.Value.distinct_record (of_decide_eq_true rfl)]
  simp [Json.Value.Distinct.str, Media.Distinct]

theorem Operation.toValue_eq_record (op : Operation) : op.toValue = .record [
    ("operationId", textValue op.id), ("summary", textValue op.summary),
    ("description", textValue op.description), ("tags", listValue .str op.tags),
    ("parameters", listValue (RefOr.toValue Parameter.toValue) op.parameters),
    ("requestBody", op.body.map (RefOr.toValue RequestBody.toValue)),
    ("responses", op.responses.map (tableOfValues (RefOr.toValue Response.toValue))),
    ("deprecated", flagValue op.deprecated)] := by
  simp only [toValue, Json.Value.record, Json.Value.standing, List.flatMap_cons, List.flatMap_nil,
    List.append_nil,
    List.append_assoc]

theorem Operation.distinct_toValue {op : Operation} : op.toValue.Distinct ↔
    (∀ p ∈ op.parameters, (p.toValue Parameter.toValue).Distinct) ∧
      (∀ b ∈ op.body, (b.toValue RequestBody.toValue).Distinct) ∧
      ∀ rs ∈ op.responses, rs.keys.Nodup ∧ ∀ e ∈ rs, (e.2.toValue Response.toValue).Distinct := by
  rw [toValue_eq_record, Json.Value.distinct_record (of_decide_eq_true rfl)]
  simp only [List.forall_mem_cons, List.not_mem_nil, false_imp_iff, implies_true,
    distinctIn_textValue, distinctIn_flagValue, distinctIn_listValue, distinctIn_map,
    distinct_tableOfValues, Json.Value.Distinct.str, true_and, and_true]

theorem PathItem.toValue_eq_record (item : PathItem) : item.toValue = .record
    ([("summary", textValue item.summary), ("description", textValue item.description),
      ("parameters", listValue (RefOr.toValue Parameter.toValue) item.parameters)] ++
      Method.all.map fun m ↦ (m.key, (item.operation m).map Operation.toValue)) := by
  have hoperations : (item.operations.map fun e ↦ (e.1.key, e.2.toValue)) =
      Method.all.flatMap fun m ↦ member m.key ((item.operation m).map Operation.toValue) := by
    unfold operations
    induction Method.all with
    | nil => rfl
    | cons m rest ih =>
      rw [List.flatMap_cons, ← ih]
      cases hop : item.operation m <;> simp [hop, member]
  rw [toValue, hoperations]
  simp only [Json.Value.record, Json.Value.standing, List.flatMap_append, List.flatMap_cons,
    List.flatMap_nil, List.append_nil, List.append_assoc, List.flatMap_map]

theorem PathItem.distinct_toValue {item : PathItem} : item.toValue.Distinct ↔
    (∀ p ∈ item.parameters, (p.toValue Parameter.toValue).Distinct) ∧
      ∀ m ∈ Method.all, ∀ op ∈ item.operation m, op.toValue.Distinct := by
  rw [toValue_eq_record, Json.Value.distinct_record (of_decide_eq_true rfl)]
  simp only [List.forall_mem_append, List.forall_mem_cons, List.not_mem_nil, false_imp_iff,
    implies_true, List.forall_mem_map, distinctIn_textValue, distinctIn_listValue, distinctIn_map,
    true_and, and_true]

theorem Info.toValue_eq_record (info : Info) : info.toValue = .record [
    ("title", some (.str info.title)), ("description", textValue info.description),
    ("version", some (.str info.version))] := by
  simp only [toValue, Json.Value.record, Json.Value.standing, List.flatMap_cons, List.flatMap_nil,
    List.append_nil,
    List.append_assoc]

@[simp] theorem Info.distinct_toValue (info : Info) : info.toValue.Distinct := by
  rw [toValue_eq_record, Json.Value.distinct_record (of_decide_eq_true rfl)]
  simp [Json.Value.Distinct.str]

theorem Tag.toValue_eq_record (tag : Tag) : tag.toValue = .record [
    ("name", some (.str tag.name)), ("description", textValue tag.description)] := by
  simp only [toValue, Json.Value.record, Json.Value.standing, List.flatMap_cons, List.flatMap_nil,
    List.append_nil]

@[simp] theorem Tag.distinct_toValue (tag : Tag) : tag.toValue.Distinct := by
  rw [toValue_eq_record, Json.Value.distinct_record (of_decide_eq_true rfl)]
  simp [Json.Value.Distinct.str]

theorem ServerVariable.toValue_eq_record (v : ServerVariable) : v.toValue = .record [
    ("default", some v.default), ("description", textValue v.description),
    ("enum", listValue id v.values)] := by
  simp only [toValue, Json.Value.record, Json.Value.standing, List.flatMap_cons, List.flatMap_nil,
    List.append_nil,
    List.append_assoc]

theorem ServerVariable.distinct_toValue {v : ServerVariable} :
    v.toValue.Distinct ↔ v.default.Distinct ∧ ∀ w ∈ v.values, w.Distinct := by
  rw [toValue_eq_record, Json.Value.distinct_record (of_decide_eq_true rfl)]
  simp

theorem Server.toValue_eq_record (server : Server) : server.toValue = .record [
    ("url", some (.str server.url)), ("description", textValue server.description),
    ("variables", tableValue ServerVariable.toValue server.vars)] := by
  simp only [toValue, Json.Value.record, Json.Value.standing, List.flatMap_cons, List.flatMap_nil,
    List.append_nil,
    List.append_assoc]

theorem Server.distinct_toValue {server : Server} : server.toValue.Distinct ↔
    server.vars.keys.Nodup ∧ ∀ e ∈ server.vars, e.2.toValue.Distinct := by
  rw [toValue_eq_record, Json.Value.distinct_record (of_decide_eq_true rfl)]
  simp [Json.Value.Distinct.str]

theorem Components.toValue_eq_record (c : Components) : c.toValue = .record [
    ("schemas", tableValue Schema.nodeValue c.schemas),
    ("responses", tableValue (RefOr.toValue Response.toValue) c.responses),
    ("parameters", tableValue (RefOr.toValue Parameter.toValue) c.parameters),
    ("requestBodies", tableValue (RefOr.toValue RequestBody.toValue) c.bodies)] := by
  simp only [toValue, Json.Value.record, Json.Value.standing, List.flatMap_cons, List.flatMap_nil,
    List.append_nil,
    List.append_assoc]

theorem Components.distinct_toValue {c : Components} : c.toValue.Distinct ↔
    (c.schemas.keys.Nodup ∧ ∀ e ∈ c.schemas, (Schema.nodeValue e.2).Distinct) ∧
      (c.responses.keys.Nodup ∧ ∀ e ∈ c.responses, (e.2.toValue Response.toValue).Distinct) ∧
      (c.parameters.keys.Nodup ∧ ∀ e ∈ c.parameters, (e.2.toValue Parameter.toValue).Distinct) ∧
      c.bodies.keys.Nodup ∧ ∀ e ∈ c.bodies, (e.2.toValue RequestBody.toValue).Distinct := by
  rw [toValue_eq_record, Json.Value.distinct_record (of_decide_eq_true rfl)]
  simp only [List.forall_mem_cons, List.not_mem_nil, false_imp_iff, implies_true,
    distinctIn_tableValue, and_true]

theorem Spec.toValue_eq_record (spec : Spec) : spec.toValue = .record [
    ("openapi", some (.str spec.version)), ("info", some spec.info.toValue),
    ("servers", listValue Server.toValue spec.servers),
    ("paths", tableValue PathItem.toValue spec.paths),
    ("components", spec.components.map Components.toValue),
    ("tags", listValue Tag.toValue spec.tags)] := by
  simp only [toValue, Json.Value.record, Json.Value.standing, List.flatMap_cons, List.flatMap_nil,
    List.append_nil,
    List.append_assoc]

theorem Spec.distinct_toValue {spec : Spec} : spec.toValue.Distinct ↔
    (∀ server ∈ spec.servers, server.toValue.Distinct) ∧
      (spec.paths.keys.Nodup ∧ ∀ e ∈ spec.paths, e.2.toValue.Distinct) ∧
      ∀ c ∈ spec.components, c.toValue.Distinct := by
  rw [toValue_eq_record, Json.Value.distinct_record (of_decide_eq_true rfl)]
  simp only [List.forall_mem_cons, List.not_mem_nil, false_imp_iff, implies_true, distinctIn_some,
    distinctIn_listValue, distinctIn_tableValue, distinctIn_map, Json.Value.Distinct.str,
    Info.distinct_toValue, Tag.distinct_toValue, true_and, and_true]

end ApiClient
