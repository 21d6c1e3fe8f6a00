import ApiClient.Document.Reading

/-!
# Writing a document

The JSON value of each part of the document model. What is absent or empty is left out, save for the
few fields that always stand: whether a parameter or body is required, the content of a body and the
description of a response.
-/

namespace ApiClient

open Json (Value)

/-- A member that stands only if there is a value for it. -/
def member (key : String) (value : Option Value) : List (String × Value) :=
  (value.map (key, ·)).toList

def textValue (s : Option String) : Option Value := s.map .str

def flagValue (b : Option Bool) : Option Value := b.map .bool

def textsValue (ss : List String) : Value := .arr (ss.map .str)

/-- A list as a value, unless it is empty. -/
def listValue {α : Type} (write : α → Value) (xs : List α) : Option Value :=
  if xs.isEmpty then none else some (.arr (xs.map write))

def tableOfValues {α : Type} (write : α → Value) (table : Table α) : Value :=
  .obj (table.map fun (k, v) => (k, write v))

/-- A table as a value, unless it is empty. -/
def tableValue {α : Type} (write : α → Value) (table : Table α) : Option Value :=
  if table.isEmpty then none else some (tableOfValues write table)

def referenceValue (path : String) : Value := .obj [("$ref", .str path)]

def RefOr.toValue {α : Type} (write : α → Value) : RefOr α → Value
  | .ref path => referenceValue path
  | .inline value => write value

def TypeName.word : TypeName → String
  | .string => "string"
  | .number => "number"
  | .integer => "integer"
  | .boolean => "boolean"
  | .array => "array"
  | .object => "object"
  | .null => "null"

def TypeSet.toValue : TypeSet → Value
  | .one name => .str name.word
  | .many names => .arr (names.map fun n => .str n.word)

def Discriminator.toValue (d : Discriminator) : Value :=
  .obj (member "propertyName" (textValue d.property) ++
    member "mapping" (tableValue .str d.mapping))

namespace Schema

theorem sizeOf_properties {s : Schema} {ps : List (String × RefOr Schema)}
    (h : s.properties = some ps) : sizeOf ps < sizeOf s := by
  cases s; simp_all; omega

theorem sizeOf_getD_properties (s : Schema) : sizeOf (s.properties.getD []) < sizeOf s := by
  cases h : s.properties with
  | none => cases s; simp_all; omega
  | some ps => exact sizeOf_properties h

theorem sizeOf_additional (s : Schema) : sizeOf s.additional < sizeOf s := by
  cases s; simp; omega

theorem sizeOf_additional_schema {s : Schema} {c : RefOr Schema}
    (h : s.additional = some (.schema c)) : sizeOf c < sizeOf s := by
  have := sizeOf_additional s
  simp_all
  omega

theorem sizeOf_items {s : Schema} {c : RefOr Schema} (h : s.items = some c) :
    sizeOf c < sizeOf s := by
  cases s; simp_all; omega

theorem sizeOf_prefixItems {s : Schema} {cs : List (RefOr Schema)} (h : s.prefixItems = some cs) :
    sizeOf cs < sizeOf s := by
  cases s; simp_all; omega

theorem sizeOf_allOf {s : Schema} {cs : List (RefOr Schema)} (h : s.allOf = some cs) :
    sizeOf cs < sizeOf s := by
  cases s; simp_all; omega

theorem sizeOf_oneOf {s : Schema} {cs : List (RefOr Schema)} (h : s.oneOf = some cs) :
    sizeOf cs < sizeOf s := by
  cases s; simp_all; omega

theorem sizeOf_anyOf {s : Schema} {cs : List (RefOr Schema)} (h : s.anyOf = some cs) :
    sizeOf cs < sizeOf s := by
  cases s; simp_all; omega

mutual

def toValue (s : Schema) : Value :=
  .obj (member "type" (s.types.map TypeSet.toValue)
    ++ member "format" (textValue s.format)
    ++ member "title" (textValue s.title)
    ++ member "description" (textValue s.description)
    ++ member "default" s.default
    ++ member "nullable" (flagValue s.nullable)
    ++ member "properties" (match _ : s.properties with
      | some ps => some (.obj (membersValue ps))
      | none => none)
    ++ member "required" (s.required.map textsValue)
    ++ member "additionalProperties" (match _ : s.additional with
      | some (.schema c) => some (nodeValue c)
      | some (.allowed b) => some (.bool b)
      | none => none)
    ++ member "items" (match _ : s.items with
      | some c => some (nodeValue c)
      | none => none)
    ++ member "prefixItems" (match _ : s.prefixItems with
      | some cs => some (.arr (nodeValues cs))
      | none => none)
    ++ member "allOf" (match _ : s.allOf with
      | some cs => some (.arr (nodeValues cs))
      | none => none)
    ++ member "oneOf" (match _ : s.oneOf with
      | some cs => some (.arr (nodeValues cs))
      | none => none)
    ++ member "anyOf" (match _ : s.anyOf with
      | some cs => some (.arr (nodeValues cs))
      | none => none)
    ++ member "discriminator" (s.discriminator.map Discriminator.toValue)
    ++ member "enum" (s.enum.map .arr)
    ++ member "x-enumNames" (s.enumNames.map textsValue)
    ++ member "x-enum-varnames" (s.enumVarNames.map textsValue)
    ++ member "readOnly" (flagValue s.readOnly)
    ++ member "writeOnly" (flagValue s.writeOnly)
    ++ member "const" s.const
    ++ member "x-component-ref-path" (textValue s.component))
termination_by sizeOf s
decreasing_by
  · exact sizeOf_properties (by assumption)
  · exact sizeOf_additional_schema (by assumption)
  · exact sizeOf_items (by assumption)
  · exact sizeOf_prefixItems (by assumption)
  · exact sizeOf_allOf (by assumption)
  · exact sizeOf_oneOf (by assumption)
  · exact sizeOf_anyOf (by assumption)

def nodeValue : RefOr Schema → Value
  | .ref path => referenceValue path
  | .inline s => toValue s
termination_by c => sizeOf c

def nodeValues : List (RefOr Schema) → List Value
  | [] => []
  | c :: cs => nodeValue c :: nodeValues cs
termination_by cs => sizeOf cs

def membersValue : List (String × RefOr Schema) → List (String × Value)
  | [] => []
  | (name, c) :: rest => (name, nodeValue c) :: membersValue rest
termination_by ps => sizeOf ps

end

end Schema

def MediaType.toValue (m : MediaType) : Value :=
  .obj (member "schema" (m.schema.map Schema.nodeValue))

def Parameter.toValue (p : Parameter) : Value :=
  .obj (member "name" (some (.str p.name))
    ++ member "in" (some (.str p.location.word))
    ++ member "description" (textValue p.description)
    ++ member "required" (some (.bool p.required))
    ++ member "schema" (p.schema.map Schema.nodeValue)
    ++ member "content" (tableValue MediaType.toValue p.content)
    ++ member "style" (textValue p.style)
    ++ member "explode" (flagValue p.explode))

def RequestBody.toValue (b : RequestBody) : Value :=
  .obj (member "description" (textValue b.description)
    ++ member "content" (some (tableOfValues MediaType.toValue b.content))
    ++ member "required" (some (.bool b.required)))

def Response.toValue (r : Response) : Value :=
  .obj (member "description" (some (.str r.description))
    ++ member "content" (tableValue MediaType.toValue r.content))

def Operation.toValue (op : Operation) : Value :=
  .obj (member "operationId" (textValue op.id)
    ++ member "summary" (textValue op.summary)
    ++ member "description" (textValue op.description)
    ++ member "tags" (listValue .str op.tags)
    ++ member "parameters" (listValue (RefOr.toValue Parameter.toValue) op.parameters)
    ++ member "requestBody" (op.body.map (RefOr.toValue RequestBody.toValue))
    ++ member "responses" (op.responses.map (tableOfValues (RefOr.toValue Response.toValue)))
    ++ member "deprecated" (flagValue op.deprecated))

def PathItem.toValue (item : PathItem) : Value :=
  .obj (member "summary" (textValue item.summary)
    ++ member "description" (textValue item.description)
    ++ member "parameters" (listValue (RefOr.toValue Parameter.toValue) item.parameters)
    ++ item.operations.map fun (m, op) => (m.key, op.toValue))

def Info.toValue (info : Info) : Value :=
  .obj (member "title" (some (.str info.title))
    ++ member "description" (textValue info.description)
    ++ member "version" (some (.str info.version)))

def Tag.toValue (tag : Tag) : Value :=
  .obj (member "name" (some (.str tag.name)) ++ member "description" (textValue tag.description))

def ServerVariable.toValue (v : ServerVariable) : Value :=
  .obj (member "default" (some v.default)
    ++ member "description" (textValue v.description)
    ++ member "enum" (listValue id v.values))

def Server.toValue (server : Server) : Value :=
  .obj (member "url" (some (.str server.url))
    ++ member "description" (textValue server.description)
    ++ member "variables" (tableValue ServerVariable.toValue server.vars))

def Components.toValue (c : Components) : Value :=
  .obj (member "schemas" (tableValue Schema.nodeValue c.schemas)
    ++ member "responses" (tableValue (RefOr.toValue Response.toValue) c.responses)
    ++ member "parameters" (tableValue (RefOr.toValue Parameter.toValue) c.parameters)
    ++ member "requestBodies" (tableValue (RefOr.toValue RequestBody.toValue) c.bodies))

def Spec.toValue (spec : Spec) : Value :=
  .obj (member "openapi" (some (.str spec.version))
    ++ member "info" (some spec.info.toValue)
    ++ member "servers" (listValue Server.toValue spec.servers)
    ++ member "paths" (tableValue PathItem.toValue spec.paths)
    ++ member "components" (spec.components.map Components.toValue)
    ++ member "tags" (listValue Tag.toValue spec.tags))

end ApiClient
