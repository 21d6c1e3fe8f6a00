import ApiClient.Proofs.Document.Rereading

/-!
# Documents written and read back

All parts of a document come back from their written form, save for the schemas in them, which come
back without the defaults and constants that are null. So a document is given back exactly if there
are none.
-/

namespace ApiClient

open Json (Value)
open Node (Reads ofValue)

variable {f : RefOr Schema → RefOr Schema}

/-! ## The schemas in a document -/

namespace RefOr

variable {α : Type}

/-- What stands in an object, if the object stands in place. -/
def nodes (inner : α → List (RefOr Schema)) : RefOr α → List (RefOr Schema)
  | .ref _ => []
  | .inline a => inner a

theorem map_eq_self_iff {g : α → α} {inner : α → List (RefOr Schema)}
    (h : ∀ a, g a = a ↔ ∀ c ∈ inner a, f c = c) {c : RefOr α} :
    c.map g = c ↔ ∀ d ∈ c.nodes inner, f d = d := by
  cases c with
  | ref path => simp [map, nodes]
  | inline a => rw [map, inline.injEq, h, nodes]

end RefOr

/-- The schemas and references to schemas that stand directly in a media type. -/
def MediaType.nodes (m : MediaType) : List (RefOr Schema) := m.schema.toList

def MediaType.mapSchemas (f : RefOr Schema → RefOr Schema) (m : MediaType) : MediaType :=
  { m with schema := m.schema.map f }

theorem MediaType.mapSchemas_eq_self_iff {m : MediaType} :
    m.mapSchemas f = m ↔ ∀ c ∈ m.nodes, f c = c := by
  cases m
  simp [mapSchemas, nodes, option_map_eq_self_iff]

def Media.nodes (content : Table MediaType) : List (RefOr Schema) :=
  content.flatMap fun e ↦ e.2.nodes

def Media.mapSchemas (f : RefOr Schema → RefOr Schema) (content : Table MediaType) :
    Table MediaType :=
  content.mapValues (MediaType.mapSchemas f)

theorem Media.mapSchemas_eq_self_iff {content : Table MediaType} :
    mapSchemas f content = content ↔ ∀ c ∈ nodes content, f c = c := by
  simp only [mapSchemas, nodes, Table.mapValues_eq_self_iff, MediaType.mapSchemas_eq_self_iff,
    List.forall_mem_flatMap]

def Parameter.nodes (p : Parameter) : List (RefOr Schema) :=
  p.schema.toList ++ Media.nodes p.content

def Parameter.mapSchemas (f : RefOr Schema → RefOr Schema) (p : Parameter) : Parameter :=
  { p with schema := p.schema.map f, content := Media.mapSchemas f p.content }

theorem Parameter.mapSchemas_eq_self_iff {p : Parameter} :
    p.mapSchemas f = p ↔ ∀ c ∈ p.nodes, f c = c := by
  rw [nodes, List.forall_mem_append, ← Media.mapSchemas_eq_self_iff]
  cases p
  simp [mapSchemas, option_map_eq_self_iff]

def RequestBody.nodes (b : RequestBody) : List (RefOr Schema) := Media.nodes b.content

def RequestBody.mapSchemas (f : RefOr Schema → RefOr Schema) (b : RequestBody) : RequestBody :=
  { b with content := Media.mapSchemas f b.content }

theorem RequestBody.mapSchemas_eq_self_iff {b : RequestBody} :
    b.mapSchemas f = b ↔ ∀ c ∈ b.nodes, f c = c := by
  rw [nodes, ← Media.mapSchemas_eq_self_iff]
  cases b
  simp [mapSchemas]

def Response.nodes (r : Response) : List (RefOr Schema) := Media.nodes r.content

def Response.mapSchemas (f : RefOr Schema → RefOr Schema) (r : Response) : Response :=
  { r with content := Media.mapSchemas f r.content }

theorem Response.mapSchemas_eq_self_iff {r : Response} :
    r.mapSchemas f = r ↔ ∀ c ∈ r.nodes, f c = c := by
  rw [nodes, ← Media.mapSchemas_eq_self_iff]
  cases r
  simp [mapSchemas]

def Parameter.nodesOfList (ps : List (RefOr Parameter)) : List (RefOr Schema) :=
  ps.flatMap (RefOr.nodes nodes)

def Parameter.mapList (f : RefOr Schema → RefOr Schema) (ps : List (RefOr Parameter)) :
    List (RefOr Parameter) :=
  ps.map (RefOr.map (mapSchemas f))

theorem Parameter.mapList_eq_self_iff {ps : List (RefOr Parameter)} :
    mapList f ps = ps ↔ ∀ c ∈ nodesOfList ps, f c = c := by
  simp only [mapList, nodesOfList, list_map_eq_self_iff, List.forall_mem_flatMap,
    RefOr.map_eq_self_iff (f := f) fun _ ↦ mapSchemas_eq_self_iff]

def Operation.nodes (op : Operation) : List (RefOr Schema) :=
  Parameter.nodesOfList op.parameters ++ op.body.toList.flatMap (RefOr.nodes RequestBody.nodes) ++
    op.responses.toList.flatMap fun rs ↦ rs.flatMap fun e ↦ e.2.nodes Response.nodes

def Operation.mapSchemas (f : RefOr Schema → RefOr Schema) (op : Operation) : Operation :=
  { op with
    parameters := Parameter.mapList f op.parameters
    body := op.body.map (RefOr.map (RequestBody.mapSchemas f))
    responses := op.responses.map (Table.mapValues (RefOr.map (Response.mapSchemas f))) }

theorem Operation.mapSchemas_eq_self_iff {op : Operation} :
    op.mapSchemas f = op ↔ ∀ c ∈ op.nodes, f c = c := by
  rw [nodes, List.forall_mem_append, List.forall_mem_append, ← Parameter.mapList_eq_self_iff]
  cases op
  simp only [mapSchemas, mk.injEq, true_and, and_true, and_assoc, option_map_eq_self_iff,
    Table.mapValues_eq_self_iff, List.forall_mem_flatMap, Option.mem_toList, Option.mem_def,
    RefOr.map_eq_self_iff (f := f) fun _ ↦ RequestBody.mapSchemas_eq_self_iff,
    RefOr.map_eq_self_iff (f := f) fun _ ↦ Response.mapSchemas_eq_self_iff]

def PathItem.nodes (item : PathItem) : List (RefOr Schema) :=
  Parameter.nodesOfList item.parameters ++
    Method.all.flatMap fun m ↦ (item.operation m).toList.flatMap Operation.nodes

def PathItem.mapSchemas (f : RefOr Schema → RefOr Schema) (item : PathItem) : PathItem :=
  { item with
    parameters := Parameter.mapList f item.parameters
    operation := fun m ↦ (item.operation m).map (Operation.mapSchemas f) }

theorem Method.mem_all (m : Method) : m ∈ all := by
  cases m <;> decide

theorem PathItem.mapSchemas_eq_self_iff {item : PathItem} :
    item.mapSchemas f = item ↔ ∀ c ∈ item.nodes, f c = c := by
  rw [nodes, List.forall_mem_append, ← Parameter.mapList_eq_self_iff]
  cases item
  simp only [mapSchemas, mk.injEq, true_and, funext_iff, option_map_eq_self_iff,
    Operation.mapSchemas_eq_self_iff, List.forall_mem_flatMap, Option.mem_toList, Option.mem_def,
    Method.mem_all, true_imp_iff]

def Components.nodes (c : Components) : List (RefOr Schema) :=
  Table.values c.schemas ++ (c.responses.flatMap fun e ↦ e.2.nodes Response.nodes) ++
    (c.parameters.flatMap fun e ↦ e.2.nodes Parameter.nodes) ++
    c.bodies.flatMap fun e ↦ e.2.nodes RequestBody.nodes

def Components.mapSchemas (f : RefOr Schema → RefOr Schema) (c : Components) : Components where
  schemas := Table.mapValues f c.schemas
  responses := Table.mapValues (RefOr.map (Response.mapSchemas f)) c.responses
  parameters := Table.mapValues (RefOr.map (Parameter.mapSchemas f)) c.parameters
  bodies := Table.mapValues (RefOr.map (RequestBody.mapSchemas f)) c.bodies

theorem Components.mapSchemas_eq_self_iff {c : Components} :
    c.mapSchemas f = c ↔ ∀ d ∈ c.nodes, f d = d := by
  cases c
  simp only [mapSchemas, nodes, mk.injEq, Table.mapValues_eq_self_iff, Table.values,
    List.forall_mem_append, List.forall_mem_map, List.forall_mem_flatMap, and_assoc,
    RefOr.map_eq_self_iff (f := f) fun _ ↦ Response.mapSchemas_eq_self_iff,
    RefOr.map_eq_self_iff (f := f) fun _ ↦ Parameter.mapSchemas_eq_self_iff,
    RefOr.map_eq_self_iff (f := f) fun _ ↦ RequestBody.mapSchemas_eq_self_iff]

def Spec.nodes (spec : Spec) : List (RefOr Schema) :=
  (spec.paths.flatMap fun e ↦ e.2.nodes) ++ spec.components.toList.flatMap Components.nodes

def Spec.mapSchemas (f : RefOr Schema → RefOr Schema) (spec : Spec) : Spec :=
  { spec with
    paths := Table.mapValues (PathItem.mapSchemas f) spec.paths
    components := spec.components.map (Components.mapSchemas f) }

theorem Spec.mapSchemas_eq_self_iff {spec : Spec} :
    spec.mapSchemas f = spec ↔ ∀ c ∈ spec.nodes, f c = c := by
  cases spec
  simp only [mapSchemas, nodes, mk.injEq, true_and, and_true, Table.mapValues_eq_self_iff,
    option_map_eq_self_iff, PathItem.mapSchemas_eq_self_iff, Components.mapSchemas_eq_self_iff,
    List.forall_mem_append, List.forall_mem_flatMap, Option.mem_toList, Option.mem_def]

/-! ## What comes back -/

open Schema (rereadNode)

variable {α : Type}

theorem reads_mediaType {m : MediaType} (h : ∀ c ∈ m.schema, (Schema.nodeValue c).Distinct) :
    Reads MediaType.ofNode m.toValue (m.mapSchemas rereadNode) where
  present := nofun
  result := by
    rw [MediaType.toValue_eq_record, MediaType.ofNode,
      Node.record_ofValue rfl (by decide) rfl rfl]
    exact Node.fill_optional (fun _ ↦ rfl) (fun c hc ↦ (Schema.survives (h c hc)).reads) rfl rfl

theorem Media.Distinct.reads {content : Table MediaType} (h : Media.Distinct content) :
    Reads MediaType.tableOf (tableOfValues MediaType.toValue content)
      (Media.mapSchemas rereadNode content) :=
  Node.reads_table h.1 fun e he ↦ (reads_mediaType (h.2 e he)).result

theorem fill_media {set : String → Node → α → Read α} {key : String} {a : α}
    {rest : List (String × Option Value)} {r : Read α} {put : Table MediaType → α}
    {content : Table MediaType} (hset : ∀ n, set key n a = do return put (← MediaType.tableOf n))
    (h : Media.Distinct content) (hnil : put [] = a)
    (hrest : Node.fill set rest (put (Media.mapSchemas rereadNode content)) = r) :
    Node.fill set ((key, tableValue MediaType.toValue content) :: rest) a = r :=
  Node.fill_table hset h.1 (fun e he ↦ (reads_mediaType (h.2 e he)).result) hnil hrest

theorem reads_location (l : Location) : Reads Location.ofNode (.str l.word) l where
  present := nofun
  result := by cases l <;> rfl

theorem reads_parameter {p : Parameter} (h : p.toValue.Distinct) :
    Reads Parameter.ofNode p.toValue (p.mapSchemas rereadNode) where
  present := nofun
  result := by
    obtain ⟨hschema, hcontent⟩ := Parameter.distinct_toValue.1 h
    rw [Parameter.toValue_eq_record, Parameter.ofNode,
      Node.record_ofValue rfl (by decide) rfl rfl]
    refine Node.fill_required (fun _ ↦ rfl) (Node.reads_text p.name) ?_
    refine Node.fill_required (fun _ ↦ rfl) (reads_location p.location) ?_
    refine Node.fill_text (fun _ ↦ rfl) rfl ?_
    refine Node.fill_required (fun _ ↦ rfl) (Node.reads_flag p.required) ?_
    refine Node.fill_optional (fun _ ↦ rfl) (fun c hc ↦ (Schema.survives (hschema c hc)).reads)
      rfl ?_
    refine fill_media (fun _ ↦ rfl) hcontent rfl ?_
    refine Node.fill_text (fun _ ↦ rfl) rfl ?_
    exact Node.fill_flag (fun _ ↦ rfl) rfl rfl

theorem reads_requestBody {b : RequestBody} (h : b.toValue.Distinct) :
    Reads RequestBody.ofNode b.toValue (b.mapSchemas rereadNode) where
  present := nofun
  result := by
    rw [RequestBody.toValue_eq_record, RequestBody.ofNode,
      Node.record_ofValue rfl (by decide) rfl rfl]
    refine Node.fill_text (fun _ ↦ rfl) rfl ?_
    refine Node.fill_required (fun _ ↦ rfl) (RequestBody.distinct_toValue.1 h).reads ?_
    exact Node.fill_required (fun _ ↦ rfl) (Node.reads_flag b.required) rfl

theorem reads_response {r : Response} (h : r.toValue.Distinct) :
    Reads Response.ofNode r.toValue (r.mapSchemas rereadNode) where
  present := nofun
  result := by
    rw [Response.toValue_eq_record, Response.ofNode,
      Node.record_ofValue rfl (by decide) rfl rfl]
    refine Node.fill_required (fun _ ↦ rfl) (Node.reads_text r.description) ?_
    exact fill_media (fun _ ↦ rfl) (Response.distinct_toValue.1 h) rfl rfl

theorem Parameter.inlines_toValue (p : Parameter) : RefOr.Inlines p.toValue :=
  ⟨_, p.toValue_eq_record, rfl⟩

theorem RequestBody.inlines_toValue (b : RequestBody) : RefOr.Inlines b.toValue :=
  ⟨_, b.toValue_eq_record, rfl⟩

theorem Response.inlines_toValue (r : Response) : RefOr.Inlines r.toValue :=
  ⟨_, r.toValue_eq_record, rfl⟩

/-- A reference or object comes back as the reference or with what comes back of the object. -/
theorem reads_refOr {write : α → Value} {reading : Node → Read α} {g : α → α} {c : RefOr α}
    (hwrite : ∀ a, RefOr.Inlines (write a))
    (hread : ∀ a, (write a).Distinct → Reads reading (write a) (g a))
    (h : (c.toValue write).Distinct) :
    Reads (RefOr.read reading) (c.toValue write) (c.map g) where
  present := by
    intro hnull
    cases c with
    | ref path => cases hnull
    | inline a =>
      obtain ⟨members, hmembers, -⟩ := hwrite a
      rw [RefOr.toValue, hmembers] at hnull
      cases hnull
  result := RefOr.read_toValue hwrite fun a ha ↦
    (hread a (RefOr.distinct_toValue.1 h a ha)).result

theorem reads_refOr_parameter {c : RefOr Parameter} (h : (c.toValue Parameter.toValue).Distinct) :
    Reads (RefOr.read Parameter.ofNode) (c.toValue Parameter.toValue)
      (c.map (Parameter.mapSchemas rereadNode)) :=
  reads_refOr Parameter.inlines_toValue (fun _ ↦ reads_parameter) h

theorem reads_refOr_requestBody {c : RefOr RequestBody}
    (h : (c.toValue RequestBody.toValue).Distinct) :
    Reads (RefOr.read RequestBody.ofNode) (c.toValue RequestBody.toValue)
      (c.map (RequestBody.mapSchemas rereadNode)) :=
  reads_refOr RequestBody.inlines_toValue (fun _ ↦ reads_requestBody) h

theorem reads_refOr_response {c : RefOr Response} (h : (c.toValue Response.toValue).Distinct) :
    Reads (RefOr.read Response.ofNode) (c.toValue Response.toValue)
      (c.map (Response.mapSchemas rereadNode)) :=
  reads_refOr Response.inlines_toValue (fun _ ↦ reads_response) h

theorem read_nodeValue {c : RefOr Schema} (h : (Schema.nodeValue c).Distinct) :
    RefOr.read Schema.ofNode (ofValue (Schema.nodeValue c)) = pure (rereadNode c) := by
  rw [RefOr.read, Node.settled_ofValue, pure_bind]
  exact Schema.survives h

theorem fill_parameters {set : String → Node → α → Read α} {key : String} {a : α}
    {rest : List (String × Option Value)} {r : Read α} {put : List (RefOr Parameter) → α}
    {ps : List (RefOr Parameter)} (hset : ∀ n, set key n a = do return put (← Parameter.listOf n))
    (h : ∀ p ∈ ps, (p.toValue Parameter.toValue).Distinct) (hnil : put [] = a)
    (hrest : Node.fill set rest (put (Parameter.mapList rereadNode ps)) = r) :
    Node.fill set ((key, listValue (RefOr.toValue Parameter.toValue) ps) :: rest) a = r :=
  Node.fill_list hset (fun p hp ↦ (reads_refOr_parameter (h p hp)).result) hnil hrest

theorem reads_operation {op : Operation} (h : op.toValue.Distinct) :
    Reads Operation.ofNode op.toValue (op.mapSchemas rereadNode) where
  present := nofun
  result := by
    obtain ⟨hparameters, hbody, hresponses⟩ := Operation.distinct_toValue.1 h
    rw [Operation.toValue_eq_record, Operation.ofNode,
      Node.record_ofValue rfl (by decide) rfl rfl]
    refine Node.fill_text (fun _ ↦ rfl) rfl ?_
    refine Node.fill_text (fun _ ↦ rfl) rfl ?_
    refine Node.fill_text (fun _ ↦ rfl) rfl ?_
    refine Node.fill_sameList (fun _ ↦ rfl) (fun t _ ↦ Node.text_ofValue t) rfl ?_
    refine fill_parameters (fun _ ↦ rfl) hparameters rfl ?_
    refine Node.fill_optional (fun _ ↦ rfl) (fun b hb ↦ reads_refOr_requestBody (hbody b hb))
      rfl ?_
    refine Node.fill_optional (fun _ ↦ rfl) (fun rs hrs ↦ Node.reads_table (hresponses rs hrs).1
      fun e he ↦ (reads_refOr_response ((hresponses rs hrs).2 e he)).result) rfl ?_
    exact Node.fill_flag (fun _ ↦ rfl) rfl rfl

/-- The operations of a path are read one after the other, each under the key of its method. -/
theorem fill_operations {set : String → Node → PathItem → Read PathItem}
    (hset : ∀ (m : Method) n a, set m.key n a = do
      let op ← n.optional (Operation.ofNode n)
      return { a with operation := fun m' ↦ if m' = m then op else a.operation m' })
    {item : PathItem} {ms : List Method}
    (h : ∀ m ∈ ms, ∀ op ∈ item.operation m, op.toValue.Distinct) (hms : ms.Nodup) {a : PathItem}
    (ha : ∀ m ∈ ms, a.operation m = none) :
    Node.fill set (ms.map fun m ↦ (m.key, (item.operation m).map Operation.toValue)) a =
      pure { a with operation := fun m ↦
        if m ∈ ms then (item.operation m).map (Operation.mapSchemas rereadNode)
        else a.operation m } := by
  induction ms generalizing a with
  | nil => rfl
  | cons m ms ih =>
    rw [List.forall_mem_cons] at h ha
    rw [List.nodup_cons] at hms
    refine Node.fill_optional (hset m · a) (fun op hop ↦ reads_operation (h.1 op hop)) ?_ ?_
    · -- a method without an operation leaves things as they are
      have hsame : (fun m' ↦ if m' = m then none else a.operation m') = a.operation := by
        funext m'
        split
        next heq => rw [heq, ha.1]
        next => rfl
      rw [hsame]
    · refine (ih h.2 hms.2 fun m' hm' ↦ ?_).trans ?_
      · dsimp only
        have hne : m' ≠ m := fun heq ↦ hms.1 (heq ▸ hm')
        rw [if_neg hne, ha.2 m' hm']
      · have hoperation : ∀ m', (if m' ∈ ms
            then (item.operation m').map (Operation.mapSchemas rereadNode)
            else if m' = m then (item.operation m).map (Operation.mapSchemas rereadNode)
            else a.operation m') = if m' ∈ m :: ms
            then (item.operation m').map (Operation.mapSchemas rereadNode)
            else a.operation m' := by
          intro m'
          by_cases hm : m' = m <;> by_cases hmem : m' ∈ ms <;> simp [hm, hmem]
        simp only [hoperation]

theorem reads_pathItem {item : PathItem} (h : item.toValue.Distinct) :
    Reads PathItem.ofNode item.toValue (item.mapSchemas rereadNode) where
  present := nofun
  result := by
    obtain ⟨hparameters, hoperations⟩ := PathItem.distinct_toValue.1 h
    rw [PathItem.toValue_eq_record, PathItem.ofNode,
      Node.record_ofValue rfl (by decide) rfl rfl]
    refine Node.fill_text (fun _ ↦ rfl) rfl ?_
    refine Node.fill_text (fun _ ↦ rfl) rfl ?_
    refine fill_parameters (fun _ ↦ rfl) hparameters rfl ?_
    refine (fill_operations (fun m _ _ ↦ by cases m <;> rfl) hoperations (by decide)
      fun _ _ ↦ rfl).trans ?_
    simp only [Method.mem_all, if_true]
    rfl

theorem reads_info (info : Info) : Reads Info.ofNode info.toValue info where
  present := nofun
  result := by
    rw [Info.toValue_eq_record, Info.ofNode, Node.record_ofValue rfl (by decide) rfl rfl]
    refine Node.fill_required (fun _ ↦ rfl) (Node.reads_text info.title) ?_
    refine Node.fill_text (fun _ ↦ rfl) rfl ?_
    exact Node.fill_required (fun _ ↦ rfl) (Node.reads_text info.version) rfl

theorem reads_tag (tag : Tag) : Reads Tag.ofNode tag.toValue tag where
  present := nofun
  result := by
    rw [Tag.toValue_eq_record, Tag.ofNode, Node.record_ofValue rfl (by decide) rfl rfl]
    refine Node.fill_required (fun _ ↦ rfl) (Node.reads_text tag.name) ?_
    exact Node.fill_text (fun _ ↦ rfl) rfl rfl

theorem reads_serverVariable {v : ServerVariable} (h : v.toValue.Distinct) :
    Reads ServerVariable.ofNode v.toValue v where
  present := nofun
  result := by
    obtain ⟨hdefault, hvalues⟩ := ServerVariable.distinct_toValue.1 h
    rw [ServerVariable.toValue_eq_record, ServerVariable.ofNode,
      Node.record_ofValue rfl (by decide) rfl rfl]
    have hread : (do return ServerVariable.mk (← (ofValue v.default).value) none []) =
        (pure ⟨v.default, none, []⟩ : Read ServerVariable) := by
      rw [Node.value_ofValue hdefault]
      rfl
    refine Node.fill_some hread ?_
    refine Node.fill_text (fun _ ↦ rfl) rfl ?_
    exact Node.fill_sameList (fun _ ↦ rfl) (fun w hw ↦ Node.value_ofValue (hvalues w hw)) rfl rfl

theorem reads_server {server : Server} (h : server.toValue.Distinct) :
    Reads Server.ofNode server.toValue server where
  present := nofun
  result := by
    obtain ⟨hkeys, hvars⟩ := Server.distinct_toValue.1 h
    rw [Server.toValue_eq_record, Server.ofNode, Node.record_ofValue rfl (by decide) rfl rfl]
    refine Node.fill_required (fun _ ↦ rfl) (Node.reads_text server.url) ?_
    refine Node.fill_text (fun _ ↦ rfl) rfl ?_
    refine Node.fill_sameTable (fun _ ↦ rfl) hkeys
      (fun e he ↦ (reads_serverVariable (hvars e he)).result) rfl rfl

theorem reads_components {c : Components} (h : c.toValue.Distinct) :
    Reads Components.ofNode c.toValue (c.mapSchemas rereadNode) where
  present := nofun
  result := by
    obtain ⟨hschemas, hresponses, hparameters, hbodies⟩ := Components.distinct_toValue.1 h
    rw [Components.toValue_eq_record, Components.ofNode,
      Node.record_ofValue rfl (by decide) rfl rfl]
    refine Node.fill_table (fun _ ↦ rfl) hschemas.1
      (fun e he ↦ read_nodeValue (hschemas.2 e he)) rfl ?_
    refine Node.fill_table (fun _ ↦ rfl) hresponses.1
      (fun e he ↦ (reads_refOr_response (hresponses.2 e he)).result) rfl ?_
    refine Node.fill_table (fun _ ↦ rfl) hparameters.1
      (fun e he ↦ (reads_refOr_parameter (hparameters.2 e he)).result) rfl ?_
    exact Node.fill_table (fun _ ↦ rfl) hbodies.1
      (fun e he ↦ (reads_refOr_requestBody (hbodies.2 e he)).result) rfl rfl

/-- A document comes back without the defaults and constants that are null. -/
theorem reads_spec {spec : Spec} (h : spec.toValue.Distinct) :
    Reads Spec.ofNode spec.toValue (spec.mapSchemas rereadNode) where
  present := nofun
  result := by
    obtain ⟨hservers, hpaths, hcomponents⟩ := Spec.distinct_toValue.1 h
    rw [Spec.toValue_eq_record, Spec.ofNode, Node.record_ofValue rfl (by decide) rfl rfl]
    refine Node.fill_required (fun _ ↦ rfl) (Node.reads_text spec.version) ?_
    refine Node.fill_required (fun _ ↦ rfl) (reads_info spec.info) ?_
    refine Node.fill_sameList (fun _ ↦ rfl) (fun s hs ↦ (reads_server (hservers s hs)).result)
      rfl ?_
    refine Node.fill_table (fun _ ↦ rfl) hpaths.1
      (fun e he ↦ (reads_pathItem (hpaths.2 e he)).result) rfl ?_
    refine Node.fill_optional (fun _ ↦ rfl) (fun c hc ↦ reads_components (hcomponents c hc)) rfl ?_
    exact Node.fill_sameList (fun _ ↦ rfl) (fun t _ ↦ (reads_tag t).result) rfl rfl

end ApiClient
