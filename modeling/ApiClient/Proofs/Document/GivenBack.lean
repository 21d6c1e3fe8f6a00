import ApiClient.Proofs.Document.Places
import ApiClient.Proofs.Document.Preparing
import ApiClient.Proofs.Document.Sources

/-!
# Documents that are given back

A document is given back when it is written and read again exactly if no default and no constant in
it is null. Then every reference finds in the written document the object that the document has at
that place.
-/

namespace ApiClient

open Json (Value)
open Schema (nodeValue rereadNode rereadNode_eq_self_iff)

variable {α : Type}

/-- A part of the document model comes back when it is written and read again. -/
def GivenBack (reading : Node → Read α) (write : α → Value) (a : α) : Prop :=
  decode reading (write a) = .ok a

theorem Node.Reads.givenBack_iff {reading : Node → Read α} {write : α → Value} {a : α}
    {f : α → α} (h : Node.Reads reading (write a) (f a)) :
    GivenBack reading write a ↔ f a = a := by
  unfold GivenBack decode
  rw [h.result]
  exact ⟨Except.ok.inj, congrArg _⟩

theorem rereadNode_all_iff {cs : List (RefOr Schema)} :
    (∀ c ∈ cs, rereadNode c = c) ↔ ∀ c ∈ cs, c.NoNull := by
  simp only [rereadNode_eq_self_iff]

/-! ## Parts of a document -/

namespace Schema

theorem givenBack_iff {s : Schema} (h : s.toValue.Distinct) :
    GivenBack ofNode toValue s ↔ (RefOr.inline s).NoNull := by
  have hreads : Node.Reads ofNode s.toValue s.reread :=
    ⟨by rw [toValue_eq_record]; exact nofun, ofNode_toValue h⟩
  rw [hreads.givenBack_iff, ← rereadNode_eq_self_iff, rereadNode_inline, RefOr.inline.injEq]

theorem givenBack_node_iff {c : RefOr Schema} (h : (nodeValue c).Distinct) :
    GivenBack (RefOr.read ofNode) nodeValue c ↔ c.NoNull := by
  have hreads : Node.Reads (RefOr.read ofNode) (nodeValue c) (rereadNode c) :=
    ⟨nodeValue_ne_null c, read_nodeValue h⟩
  rw [hreads.givenBack_iff, rereadNode_eq_self_iff]

end Schema

theorem Parameter.givenBack_iff {p : Parameter} (h : p.toValue.Distinct) :
    GivenBack ofNode toValue p ↔ ∀ c ∈ p.nodes, c.NoNull := by
  rw [(reads_parameter h).givenBack_iff, mapSchemas_eq_self_iff, rereadNode_all_iff]

theorem Parameter.givenBack_refOr_iff {c : RefOr Parameter} (h : (c.toValue toValue).Distinct) :
    GivenBack (RefOr.read ofNode) (RefOr.toValue toValue) c ↔ ∀ d ∈ c.nodes nodes, d.NoNull := by
  rw [(reads_refOr_parameter h).givenBack_iff,
    RefOr.map_eq_self_iff (f := rereadNode) fun _ ↦ mapSchemas_eq_self_iff, rereadNode_all_iff]

theorem RequestBody.givenBack_iff {b : RequestBody} (h : b.toValue.Distinct) :
    GivenBack ofNode toValue b ↔ ∀ c ∈ b.nodes, c.NoNull := by
  rw [(reads_requestBody h).givenBack_iff, mapSchemas_eq_self_iff, rereadNode_all_iff]

theorem RequestBody.givenBack_refOr_iff {c : RefOr RequestBody}
    (h : (c.toValue toValue).Distinct) :
    GivenBack (RefOr.read ofNode) (RefOr.toValue toValue) c ↔ ∀ d ∈ c.nodes nodes, d.NoNull := by
  rw [(reads_refOr_requestBody h).givenBack_iff,
    RefOr.map_eq_self_iff (f := rereadNode) fun _ ↦ mapSchemas_eq_self_iff, rereadNode_all_iff]

theorem Response.givenBack_iff {r : Response} (h : r.toValue.Distinct) :
    GivenBack ofNode toValue r ↔ ∀ c ∈ r.nodes, c.NoNull := by
  rw [(reads_response h).givenBack_iff, mapSchemas_eq_self_iff, rereadNode_all_iff]

theorem Response.givenBack_refOr_iff {c : RefOr Response} (h : (c.toValue toValue).Distinct) :
    GivenBack (RefOr.read ofNode) (RefOr.toValue toValue) c ↔ ∀ d ∈ c.nodes nodes, d.NoNull := by
  rw [(reads_refOr_response h).givenBack_iff,
    RefOr.map_eq_self_iff (f := rereadNode) fun _ ↦ mapSchemas_eq_self_iff, rereadNode_all_iff]

/-! ## Documents -/

/-- What stands in a document at the place of a reference is found there, as what stands or refers
there, and as the object if one stands there. -/
def Snapshot.Finds (snapshot : Snapshot) (reading : Node → Read α) (reference : String)
    (c : RefOr α) : Prop :=
  snapshot.resolve (RefOr.read reading) reference = .ok c ∧
    ∀ a, c = .inline a → snapshot.resolve reading reference = .ok a

namespace Spec

variable {spec : Spec}

theorem givenBack_iff (h : spec.toValue.Distinct) :
    GivenBack ofNode toValue spec ↔ ∀ c ∈ spec.nodes, c.NoNull := by
  rw [(reads_spec h).givenBack_iff, mapSchemas_eq_self_iff, rereadNode_all_iff]

theorem lookup_of_at? {reference : String} {names : List String}
    (h : Pointer.segments reference = .ok names) {v : Value}
    (hv : spec.toValue.at? names = some v) : (Snapshot.ofSpec spec).lookup reference = .ok v :=
  lookup_eq_ok.2 ⟨names, h, hv⟩

theorem finds_of_givenBack {reading : Node → Read α} {write : α → Value} {reference : String}
    {names : List String} (h : Pointer.segments reference = .ok names) {c : RefOr α} {v : Value}
    (hv : spec.toValue.at? names = some v) (hwrite : v = c.toValue write)
    (hback : GivenBack (RefOr.read reading) (RefOr.toValue write) c)
    (hinline : ∀ a, c = .inline a → GivenBack reading write a) :
    (Snapshot.ofSpec spec).Finds reading reference c := by
  subst hwrite
  have hlookup := lookup_of_at? h hv
  constructor
  · rw [resolve_of_lookup _ hlookup]
    exact expected_eq_ok.2 hback
  · rintro a rfl
    rw [resolve_of_lookup _ hlookup]
    exact expected_eq_ok.2 (hinline a rfl)

/-- Every reference to a place in a document finds what the document has there. -/
structure FindsAll (spec : Spec) (reference : String) (names : List String) : Prop where
  schema : ∀ c, spec.SchemaAt names c → (Snapshot.ofSpec spec).Finds Schema.ofNode reference c
  parameter : ∀ p, spec.ParameterAt names p →
    (Snapshot.ofSpec spec).Finds Parameter.ofNode reference p
  body : ∀ b, spec.BodyAt names b → (Snapshot.ofSpec spec).Finds RequestBody.ofNode reference b
  response : ∀ r, spec.ResponseAt names r →
    (Snapshot.ofSpec spec).Finds Response.ofNode reference r

theorem findsAll_of_noNull (hspec : spec.toValue.Distinct) (hnull : ∀ c ∈ spec.nodes, c.NoNull)
    {reference : String} {names : List String} (h : Pointer.segments reference = .ok names) :
    spec.FindsAll reference names where
  schema := by
    intro c hc
    have hdistinct := Json.Value.distinct_of_at? hspec hc.at?
    have hback := (Schema.givenBack_node_iff hdistinct).2 (hc.noNull hnull)
    have hwrite : nodeValue = RefOr.toValue Schema.toValue := funext Schema.nodeValue_eq
    refine finds_of_givenBack h hc.at? (Schema.nodeValue_eq c) (hwrite ▸ hback) ?_
    rintro s rfl
    rw [Schema.nodeValue] at hdistinct
    exact (Schema.givenBack_iff hdistinct).2 (hc.noNull hnull)
  parameter := by
    intro p hp
    have hdistinct := Json.Value.distinct_of_at? hspec hp.at?
    have hnodes : ∀ c ∈ p.nodes Parameter.nodes, c.NoNull := fun c hc ↦ hnull c (hp.mem_nodes hc)
    refine finds_of_givenBack h hp.at? rfl ((Parameter.givenBack_refOr_iff hdistinct).2 hnodes) ?_
    rintro a rfl
    exact (Parameter.givenBack_iff hdistinct).2 hnodes
  body := by
    intro b hb
    have hdistinct := Json.Value.distinct_of_at? hspec hb.at?
    have hnodes : ∀ c ∈ b.nodes RequestBody.nodes, c.NoNull :=
      fun c hc ↦ hnull c (hb.mem_nodes hc)
    refine finds_of_givenBack h hb.at? rfl ((RequestBody.givenBack_refOr_iff hdistinct).2 hnodes) ?_
    rintro a rfl
    exact (RequestBody.givenBack_iff hdistinct).2 hnodes
  response := by
    intro r hr
    have hdistinct := Json.Value.distinct_of_at? hspec hr.at?
    have hnodes : ∀ c ∈ r.nodes Response.nodes, c.NoNull := fun c hc ↦ hnull c (hr.mem_nodes hc)
    refine finds_of_givenBack h hr.at? rfl ((Response.givenBack_refOr_iff hdistinct).2 hnodes) ?_
    rintro a rfl
    exact (Response.givenBack_iff hdistinct).2 hnodes

end Spec

/-- What is written of the document model is read back without the defaults and constants that are
null, so all of it is given back exactly if there are none: in a document, in its schemas,
parameters, bodies and responses, and in what stands there or refers to them. There are none in a
document from JSON or from a tree of YAML without infinities. A document that is prepared is given
back exactly if it was before. Every reference finds what the document has at its place, if the
document is given back. -/
theorem document_given_back :
    (∀ spec : Spec, spec.toValue.Distinct →
      (GivenBack Spec.ofNode Spec.toValue spec ↔ ∀ c ∈ spec.nodes, c.NoNull) ∧
      spec.prepare.spec.toValue.Distinct ∧
      (GivenBack Spec.ofNode Spec.toValue spec.prepare.spec ↔
        GivenBack Spec.ofNode Spec.toValue spec) ∧
      (GivenBack Spec.ofNode Spec.toValue spec →
        ∀ reference names, Pointer.segments reference = .ok names →
          spec.FindsAll reference names)) ∧
    (∀ text spec, Spec.ofJson text = .ok spec →
      spec.toValue.Distinct ∧ GivenBack Spec.ofNode Spec.toValue spec) ∧
    (∀ text spec, Spec.ofYaml text = .ok spec → spec.toValue.Distinct ∧
      ∀ doc, Yaml.Document.ofText text = some doc → doc.node.Finite →
        GivenBack Spec.ofNode Spec.toValue spec) ∧
    (∀ s : Schema, s.toValue.Distinct →
      (GivenBack Schema.ofNode Schema.toValue s ↔ (RefOr.inline s).NoNull)) ∧
    (∀ c : RefOr Schema, (nodeValue c).Distinct →
      (GivenBack (RefOr.read Schema.ofNode) nodeValue c ↔ c.NoNull)) ∧
    (∀ p : Parameter, p.toValue.Distinct →
      (GivenBack Parameter.ofNode Parameter.toValue p ↔ ∀ c ∈ p.nodes, c.NoNull)) ∧
    (∀ c : RefOr Parameter, (c.toValue Parameter.toValue).Distinct →
      (GivenBack (RefOr.read Parameter.ofNode) (RefOr.toValue Parameter.toValue) c ↔
        ∀ d ∈ c.nodes Parameter.nodes, d.NoNull)) ∧
    (∀ b : RequestBody, b.toValue.Distinct →
      (GivenBack RequestBody.ofNode RequestBody.toValue b ↔ ∀ c ∈ b.nodes, c.NoNull)) ∧
    (∀ c : RefOr RequestBody, (c.toValue RequestBody.toValue).Distinct →
      (GivenBack (RefOr.read RequestBody.ofNode) (RefOr.toValue RequestBody.toValue) c ↔
        ∀ d ∈ c.nodes RequestBody.nodes, d.NoNull)) ∧
    (∀ r : Response, r.toValue.Distinct →
      (GivenBack Response.ofNode Response.toValue r ↔ ∀ c ∈ r.nodes, c.NoNull)) ∧
    ∀ c : RefOr Response, (c.toValue Response.toValue).Distinct →
      (GivenBack (RefOr.read Response.ofNode) (RefOr.toValue Response.toValue) c ↔
        ∀ d ∈ c.nodes Response.nodes, d.NoNull) := by
  refine ⟨fun spec h ↦ ⟨Spec.givenBack_iff h, Spec.distinct_prepare h, ?_, fun hback _ _ ↦ ?_⟩,
    fun text spec h ↦ ?_, fun text spec h ↦ ?_, fun _ ↦ Schema.givenBack_iff,
    fun _ ↦ Schema.givenBack_node_iff, fun _ ↦ Parameter.givenBack_iff,
    fun _ ↦ Parameter.givenBack_refOr_iff, fun _ ↦ RequestBody.givenBack_iff,
    fun _ ↦ RequestBody.givenBack_refOr_iff, fun _ ↦ Response.givenBack_iff,
    fun _ ↦ Response.givenBack_refOr_iff⟩
  · rw [Spec.givenBack_iff (Spec.distinct_prepare h), Spec.givenBack_iff h]
    exact Spec.noNull_prepare_iff h
  · exact Spec.findsAll_of_noNull h ((Spec.givenBack_iff h).1 hback)
  · have hsound := Spec.sound_of_ofJson h
    exact ⟨hsound.distinct, (Spec.givenBack_iff hsound.distinct).2 (hsound.noNull trivial)⟩
  · obtain ⟨doc, hdoc, -⟩ := Spec.ofNode_of_ofYaml h
    have hdistinct := (Spec.sound_of_ofYaml hdoc h).distinct
    refine ⟨hdistinct, fun doc hdoc hfinite ↦ (Spec.givenBack_iff hdistinct).2 ?_⟩
    exact (Spec.sound_of_ofYaml hdoc h).noNull hfinite

/-! ## Constants that are read -/

/-- If a test of the component `A` succeeds on what was read, then a document was read, and it has a
component that passes the test. -/
theorem exists_component_of_test {result : Except ParseError Spec} {test : Schema → Bool}
    (h : (result.toOption.any fun spec : Spec ↦ match Table.get? "A" spec.schemas with
      | some (.inline s) => test s
      | _ => false) = true) :
    ∃ spec s, result = .ok spec ∧ Table.get? "A" spec.schemas = some (.inline s) ∧
      test s = true := by
  cases result with
  | error e => cases h
  | ok spec =>
    rw [Except.toOption, Option.any_some] at h
    split at h
    next s hs => exact ⟨spec, s, rfl, hs, h⟩
    · cases h

namespace TextConstant

def text : String :=
  "\x7b\"openapi\": \"3.0.0\", \"info\": \x7b\"title\": \"t\", \"version\": \"v\"\x7d, " ++
    "\"components\": \x7b\"schemas\": \x7b\"A\": \x7b\"const\": \"a\"\x7d\x7d\x7d\x7d"

def isRead : Value → Bool
  | .str t => t == "a"
  | _ => false

theorem exists_ofJson : ∃ spec s, Spec.ofJson text = .ok spec ∧
    Table.get? "A" spec.schemas = some (.inline s) ∧ s.const = some (.str "a") := by
  obtain ⟨spec, s, hspec, hs, hread⟩ := @exists_component_of_test (Spec.ofJson text)
    (fun s ↦ s.const.any isRead) (by decide +kernel)
  obtain ⟨v, hv, hread⟩ := (Option.any_eq_true _ _).1 hread
  refine ⟨spec, s, hspec, hs, ?_⟩
  cases v with
  | str t => rw [hv, beq_iff_eq.1 hread]
  | _ => cases hread

end TextConstant

/-- A document that is read from JSON is given back, also when it is prepared, and the reference to
its component finds the component as it is. -/
theorem text_constant_given_back : ∃ spec s, Spec.ofJson TextConstant.text = .ok spec ∧
    s.const = some (.str "a") ∧ spec.toValue.Distinct ∧
    GivenBack Spec.ofNode Spec.toValue spec ∧
    GivenBack Spec.ofNode Spec.toValue spec.prepare.spec ∧
    (Snapshot.ofSpec spec).resolve Schema.ofNode "#/components/schemas/A" = .ok s := by
  obtain ⟨spec, s, hspec, hs, hconst⟩ := TextConstant.exists_ofJson
  obtain ⟨hprepare, hjson, -⟩ := document_given_back
  obtain ⟨hdistinct, hback⟩ := hjson _ _ hspec
  obtain ⟨-, -, hprepared, hfinds⟩ := hprepare _ hdistinct
  have hfound := (hfinds hback "#/components/schemas/A" _ rfl).schema _ (Spec.schemaAt_component hs)
  exact ⟨spec, s, hspec, hconst, hdistinct, hback, hprepared.2 hback, hfound.2 s rfl⟩

namespace NanConstant

def text : String :=
  "openapi: 3.0.0\ninfo:\n  title: t\n  version: v\n" ++
    "components:\n  schemas:\n    A:\n      const: .nan\n"

/-- Whether the component `A` has null as its constant. -/
def isRead (spec : Spec) : Bool :=
  match Table.get? "A" spec.schemas with
  | some (.inline s) => s.const.any Json.Value.isNull
  | _ => false

theorem exists_ofYaml : ∃ spec s, Spec.ofYaml text = .ok spec ∧
    Table.get? "A" spec.schemas = some (.inline s) ∧ s.const = some .null := by
  have hread : (Spec.ofYaml text).toOption.any isRead = true := by decide +kernel
  obtain ⟨spec, s, hspec, hs, hnull⟩ := exists_component_of_test hread
  obtain ⟨v, hv, hnull⟩ := (Option.any_eq_true _ _).1 hnull
  refine ⟨spec, s, hspec, hs, ?_⟩
  cases v with
  | null => exact hv
  | _ => cases hnull

end NanConstant

/-- A constant that is read as no number is written as null, and null is read as no constant. So
neither the document nor the schema is given back. -/
theorem nan_constant_not_given_back : ∃ spec s, Spec.ofYaml NanConstant.text = .ok spec ∧
    spec.SchemaAt ["components", "schemas", "A"] (.inline s) ∧
    ¬GivenBack Spec.ofNode Spec.toValue spec ∧
    (Snapshot.ofSpec spec).resolve Schema.ofNode "#/components/schemas/A" ≠ .ok s := by
  obtain ⟨spec, s, hspec, hs, hconst⟩ := NanConstant.exists_ofYaml
  have hat := Spec.schemaAt_component hs
  obtain ⟨doc, hdoc, -⟩ := Spec.ofNode_of_ofYaml hspec
  have hdistinct := (Spec.sound_of_ofYaml hdoc hspec).distinct
  have hnull : ¬(RefOr.inline s).NoNull := by
    rintro (_ | ⟨-, h, -⟩)
    exact h hconst
  refine ⟨spec, s, hspec, hat, fun hback ↦ ?_, fun hresolve ↦ ?_⟩
  · exact hnull (hat.noNull ((Spec.givenBack_iff hdistinct).1 hback))
  · have hschema : s.toValue.Distinct := by
      have h := Json.Value.distinct_of_at? hdistinct hat.at?
      rwa [Schema.nodeValue] at h
    have hsegments : Pointer.segments "#/components/schemas/A" =
        .ok ["components", "schemas", "A"] := rfl
    rw [resolve_of_lookup _ (Spec.lookup_of_at? hsegments hat.at?), Schema.nodeValue] at hresolve
    exact hnull ((Schema.givenBack_iff hschema).1 (expected_eq_ok.1 hresolve))

end ApiClient
