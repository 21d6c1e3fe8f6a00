import ApiClient.Document.Spec
import ApiClient.Tree.Reading

/-!
# Reading a document

How each part of the document model is read from a tree. An object that may also be a reference is
settled first: it is read to its end, its scalars get their types, and then it is taken as a
reference if it has the form of one and as the object otherwise.
-/

namespace ApiClient

open Node (optional)

/-- The path of a node that has the form of a reference: a map with one text under `$ref`. -/
def Node.reference? (node : Node) : Option String :=
  match node with
  | .map _ _ =>
    let path := node.record [⟨"$ref", .required, none⟩] "" fun _ n _ _ => n.text
    (Read.result path).toOption
  | _ => none

/-- A reference or an object, from a settled node and the reading of it as the object. -/
def RefOr.ofNode {α : Type} (node : Node) (reading : Read α) : Read (RefOr α) :=
  match node.reference?, Read.result reading with
  | some path, _ => return .ref path
  | none, .ok value => return .inline value
  | none, .error _ => throw .mismatch

/-- Settles a node and reads it as a reference or an object. -/
def RefOr.read {α : Type} (inline : Node → Read α) (node : Node) :
    Read (RefOr α) := do
  let node ← node.settled
  RefOr.ofNode node (inline node)

def TypeName.words : List (String × TypeName) := [
  ("string", .string), ("number", .number), ("integer", .integer), ("boolean", .boolean),
  ("array", .array), ("object", .object), ("null", .null)]

def TypeName.ofNode (node : Node) : Read TypeName := do
  let word ← node.word (words.map (·.1))
  (Table.get? word words).elim (throw .mismatch) pure

def TypeSet.ofNode (node : Node) : Read TypeSet :=
  match Read.result (TypeName.ofNode node) with
  | .ok name => return .one name
  | .error _ => do return .many (← node.list fun n _ => TypeName.ofNode n)

def Discriminator.fields : List Field :=
  [⟨"propertyName", .optional, none⟩, ⟨"mapping", .defaulted, none⟩]

def Discriminator.ofNode (node : Node) : Read Discriminator :=
  node.record fields {} fun key n _ d =>
    match key with
    | "propertyName" => do return { d with property := ← optional n n.text }
    | "mapping" => do return { d with mapping := ← n.table fun n _ => n.text }
    | _ => return d

def Schema.fields : List Field :=
  ["type", "format", "title", "description", "default", "nullable", "properties", "required",
    "additionalProperties", "items", "prefixItems", "allOf", "oneOf", "anyOf", "discriminator",
    "enum", "x-enumNames", "x-enum-varnames", "readOnly", "writeOnly", "const",
    "x-component-ref-path"].map (⟨·, .optional, none⟩)

def Node.texts (node : Node) : Read (List String) :=
  node.list fun n _ => n.text

def Node.values (node : Node) : Read (List Json.Value) :=
  node.list fun n _ => n.value

def Schema.ofNode (node : Node) : Read Schema :=
  node.record fields {} fun key n _ s =>
    match key with
    | "type" => do return { s with types := ← optional n (TypeSet.ofNode n) }
    | "format" => do return { s with format := ← optional n n.text }
    | "title" => do return { s with title := ← optional n n.text }
    | "description" => do return { s with description := ← optional n n.text }
    | "default" => do return { s with default := ← optional n n.value }
    | "nullable" => do return { s with nullable := ← optional n n.flag }
    | "properties" => do
      let ps ← optional n (n.table fun c _ => RefOr.ofNode c (Schema.ofNode c))
      return { s with properties := ps }
    | "required" => do return { s with required := ← optional n n.texts }
    | "additionalProperties" => do
      let a ← optional n <| match Read.result n.flag with
        | .ok b => pure (.allowed b)
        | .error _ => do return .schema (← RefOr.ofNode n (Schema.ofNode n))
      return { s with additional := a }
    | "items" => do return { s with items := ← optional n (RefOr.ofNode n (Schema.ofNode n)) }
    | "prefixItems" => do
      let cs ← optional n (n.list fun c _ => RefOr.ofNode c (Schema.ofNode c))
      return { s with prefixItems := cs }
    | "allOf" => do
      let cs ← optional n (n.list fun c _ => RefOr.ofNode c (Schema.ofNode c))
      return { s with allOf := cs }
    | "oneOf" => do
      let cs ← optional n (n.list fun c _ => RefOr.ofNode c (Schema.ofNode c))
      return { s with oneOf := cs }
    | "anyOf" => do
      let cs ← optional n (n.list fun c _ => RefOr.ofNode c (Schema.ofNode c))
      return { s with anyOf := cs }
    | "discriminator" => do
      return { s with discriminator := ← optional n (Discriminator.ofNode n) }
    | "enum" => do return { s with enum := ← optional n n.values }
    | "x-enumNames" => do return { s with enumNames := ← optional n n.texts }
    | "x-enum-varnames" => do return { s with enumVarNames := ← optional n n.texts }
    | "readOnly" => do return { s with readOnly := ← optional n n.flag }
    | "writeOnly" => do return { s with writeOnly := ← optional n n.flag }
    | "const" => do return { s with const := ← optional n n.value }
    | "x-component-ref-path" => do return { s with component := ← optional n n.text }
    | _ => return s
termination_by sizeOf node
decreasing_by all_goals omega

/-- A schema or a reference to one, from a settled node. -/
def Schema.nodeOf (node : Node) : Read (RefOr Schema) :=
  RefOr.ofNode node (Schema.ofNode node)

def MediaType.ofNode (node : Node) : Read MediaType :=
  node.record [⟨"schema", .optional, none⟩] {} fun key n _ m =>
    match key with
    | "schema" => do return { m with schema := ← optional n (Schema.nodeOf n) }
    | _ => return m

def MediaType.tableOf (node : Node) : Read (Table MediaType) :=
  node.table fun n _ => MediaType.ofNode n

def Location.ofNode (node : Node) : Read Location := do
  let all : List Location := [.query, .header, .path, .cookie]
  let word ← node.word (all.map Location.word)
  (all.find? fun l => l.word == word).elim (throw .mismatch) pure

def Parameter.fields : List Field := [
  ⟨"name", .required, none⟩, ⟨"in", .required, none⟩, ⟨"description", .optional, none⟩,
  ⟨"required", .defaulted, none⟩, ⟨"schema", .optional, none⟩, ⟨"content", .defaulted, none⟩,
  ⟨"style", .optional, none⟩, ⟨"explode", .optional, none⟩]

def Parameter.ofNode (node : Node) : Read Parameter :=
  node.record fields ⟨"", .query, none, false, none, [], none, none⟩ fun key n _ p =>
    match key with
    | "name" => do return { p with name := ← n.text }
    | "in" => do return { p with location := ← Location.ofNode n }
    | "description" => do return { p with description := ← optional n n.text }
    | "required" => do return { p with required := ← n.flag }
    | "schema" => do return { p with schema := ← optional n (Schema.nodeOf n) }
    | "content" => do return { p with content := ← MediaType.tableOf n }
    | "style" => do return { p with style := ← optional n n.text }
    | "explode" => do return { p with explode := ← optional n n.flag }
    | _ => return p

def RequestBody.fields : List Field := [
  ⟨"description", .optional, none⟩, ⟨"content", .defaulted, none⟩, ⟨"required", .defaulted, none⟩]

def RequestBody.ofNode (node : Node) : Read RequestBody :=
  node.record fields {} fun key n _ b =>
    match key with
    | "description" => do return { b with description := ← optional n n.text }
    | "content" => do return { b with content := ← MediaType.tableOf n }
    | "required" => do return { b with required := ← n.flag }
    | _ => return b

def Response.ofNode (node : Node) : Read Response :=
  node.record [⟨"description", .defaulted, none⟩, ⟨"content", .defaulted, none⟩] {} fun key n _ r =>
    match key with
    | "description" => do return { r with description := ← n.text }
    | "content" => do return { r with content := ← MediaType.tableOf n }
    | _ => return r

def Operation.fields : List Field := [
  ⟨"operationId", .optional, none⟩, ⟨"summary", .optional, none⟩, ⟨"description", .optional, none⟩,
  ⟨"tags", .defaulted, none⟩, ⟨"parameters", .defaulted, none⟩, ⟨"requestBody", .optional, none⟩,
  ⟨"responses", .optional, none⟩, ⟨"deprecated", .optional, none⟩]

def Parameter.listOf (node : Node) : Read (List (RefOr Parameter)) :=
  node.list fun n _ => RefOr.read Parameter.ofNode n

def Operation.ofNode (node : Node) : Read Operation :=
  node.record fields {} fun key n _ op =>
    match key with
    | "operationId" => do return { op with id := ← optional n n.text }
    | "summary" => do return { op with summary := ← optional n n.text }
    | "description" => do return { op with description := ← optional n n.text }
    | "tags" => do return { op with tags := ← n.texts }
    | "parameters" => do return { op with parameters := ← Parameter.listOf n }
    | "requestBody" => do
      return { op with body := ← optional n (RefOr.read RequestBody.ofNode n) }
    | "responses" => do
      let rs ← optional n (n.table fun r _ => RefOr.read Response.ofNode r)
      return { op with responses := rs }
    | "deprecated" => do return { op with deprecated := ← optional n n.flag }
    | _ => return op

def PathItem.fields : List Field :=
  [⟨"summary", .optional, none⟩, ⟨"description", .optional, none⟩, ⟨"parameters", .defaulted, none⟩]
    ++ Method.all.map fun m => ⟨m.key, .optional, none⟩

def PathItem.ofNode (node : Node) : Read PathItem :=
  node.record fields {} fun key n _ item =>
    match key, Method.ofKey? key with
    | "summary", _ => do return { item with summary := ← optional n n.text }
    | "description", _ => do return { item with description := ← optional n n.text }
    | "parameters", _ => do return { item with parameters := ← Parameter.listOf n }
    | _, some method => do
      let op ← optional n (Operation.ofNode n)
      return { item with operation := fun m => if m = method then op else item.operation m }
    | _, none => return item

def Info.ofNode (node : Node) : Read Info :=
  node.record
    [⟨"title", .required, none⟩, ⟨"description", .optional, none⟩, ⟨"version", .required, none⟩]
    ⟨"", none, ""⟩ fun key n _ info =>
    match key with
    | "title" => do return { info with title := ← n.text }
    | "description" => do return { info with description := ← optional n n.text }
    | "version" => do return { info with version := ← n.text }
    | _ => return info

def Tag.ofNode (node : Node) : Read Tag :=
  node.record [⟨"name", .required, none⟩, ⟨"description", .optional, none⟩] ⟨"", none⟩
    fun key n _ tag =>
    match key with
    | "name" => do return { tag with name := ← n.text }
    | "description" => do return { tag with description := ← optional n n.text }
    | _ => return tag

def ServerVariable.ofNode (node : Node) : Read ServerVariable :=
  node.record
    [⟨"default", .required, none⟩, ⟨"description", .optional, none⟩, ⟨"enum", .defaulted, none⟩]
    ⟨.null, none, []⟩ fun key n _ v =>
    match key with
    | "default" => do return { v with default := ← n.value }
    | "description" => do return { v with description := ← optional n n.text }
    | "enum" => do return { v with values := ← n.values }
    | _ => return v

def Server.ofNode (node : Node) : Read Server :=
  node.record
    [⟨"url", .required, none⟩, ⟨"description", .optional, none⟩, ⟨"variables", .defaulted, none⟩]
    ⟨"", none, []⟩ fun key n _ server =>
    match key with
    | "url" => do return { server with url := ← n.text }
    | "description" => do return { server with description := ← optional n n.text }
    | "variables" => do return { server with vars := ← n.table fun v _ => ServerVariable.ofNode v }
    | _ => return server

def Components.ofNode (node : Node) : Read Components :=
  node.record (["schemas", "responses", "parameters", "requestBodies"].map (⟨·, .defaulted, none⟩))
    {} fun key n _ c =>
    match key with
    | "schemas" => do return { c with schemas := ← n.table fun m _ => RefOr.read Schema.ofNode m }
    | "responses" => do
      return { c with responses := ← n.table fun m _ => RefOr.read Response.ofNode m }
    | "parameters" => do
      return { c with parameters := ← n.table fun m _ => RefOr.read Parameter.ofNode m }
    | "requestBodies" => do
      return { c with bodies := ← n.table fun m _ => RefOr.read RequestBody.ofNode m }
    | _ => return c

def Spec.fields : List Field := [
  ⟨"openapi", .required, none⟩, ⟨"info", .required, none⟩, ⟨"servers", .defaulted, none⟩,
  ⟨"paths", .defaulted, none⟩, ⟨"components", .optional, none⟩, ⟨"tags", .defaulted, none⟩]

def Spec.ofNode (node : Node) : Read Spec :=
  node.record fields ⟨"", ⟨"", none, ""⟩, [], [], none, []⟩ fun key n _ spec =>
    match key with
    | "openapi" => do return { spec with version := ← n.text }
    | "info" => do return { spec with info := ← Info.ofNode n }
    | "servers" => do return { spec with servers := ← n.list fun s _ => Server.ofNode s }
    | "paths" => do return { spec with paths := ← n.table fun p _ => PathItem.ofNode p }
    | "components" => do return { spec with components := ← optional n (Components.ofNode n) }
    | "tags" => do return { spec with tags := ← n.list fun t _ => Tag.ofNode t }
    | _ => return spec

end ApiClient
