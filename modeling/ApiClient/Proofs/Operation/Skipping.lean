import ApiClient.Proofs.Document.ComponentReferences
import ApiClient.Proofs.Document.OutsidePaths
import ApiClient.Proofs.Operation.Agreement

/-!
# Operations that are left out

An operation that the options leave out has no part in a module. It reserves no name, and what
stands in it is never looked at unless a reference leads there. So as long as no reference that is
followed leads into the paths of the document, taking those operations out of the document changes
neither the module nor the error.
-/

namespace ApiClient

open TypeScript

/-- A path without the operations that the options leave out. -/
def PathItem.withoutSkipped (options : Options) (item : PathItem) : PathItem :=
  { item with operation := fun m ↦ (item.operation m).filter fun op ↦ !options.skips op.tags }

def Spec.withoutSkipped (options : Options) (spec : Spec) : Spec :=
  { spec with paths := Table.mapValues (PathItem.withoutSkipped options) spec.paths }

/-- The schemas and references to schemas that stand directly in an operation or in the parameters
of its path. -/
def Endpoint.nodes (e : Endpoint) : List (RefOr Schema) :=
  Parameter.nodesOfList e.item.parameters ++ e.operation.nodes

/-- The references that making functions for operations may follow: those in the operations and in
the parameters of their paths, and those in whatever such a reference leads to. -/
inductive Follows (snapshot : Snapshot) (endpoints : List Endpoint) : Kind → String → Prop where
  | parameter {e : Endpoint} {path : String} (he : e ∈ endpoints)
      (h : .ref path ∈ e.item.parameters ++ e.operation.parameters) :
      Follows snapshot endpoints .parameter path
  | body {e : Endpoint} {path : String} (he : e ∈ endpoints)
      (h : e.operation.body = some (.ref path)) : Follows snapshot endpoints .requestBody path
  | response {e : Endpoint} {rs : Table (RefOr Response)} {code path : String} (he : e ∈ endpoints)
      (hrs : e.operation.responses = some rs) (h : (code, .ref path) ∈ rs) :
      Follows snapshot endpoints .response path
  | schema {e : Endpoint} {c : RefOr Schema} {path : String} (he : e ∈ endpoints)
      (hc : c ∈ e.nodes) (h : c.Mentions path) : Follows snapshot endpoints .schema path
  | leads {kind : Kind} {path next : String} {a : kind.Object} {c : RefOr Schema}
      (hpath : Follows snapshot endpoints kind path)
      (ha : snapshot.resolve kind.read path = .ok a) (hc : c ∈ kind.nodes a)
      (h : c.Mentions next) : Follows snapshot endpoints .schema next

/-- The references that making the module of a document may follow. -/
def Spec.Follows (spec : Spec) (options : Options) : Kind → String → Prop :=
  ApiClient.Follows (spec.prepare.env options).snapshot
    ((spec.prepare.env options).operations spec.endpoints)

namespace Follows

variable {snapshot : Snapshot} {endpoints : List Endpoint} {e : Endpoint}

theorem stays (he : e ∈ endpoints) :
    e.operation.Stays (Follows snapshot endpoints) e.item where
  parameters c hc := by
    cases c with
    | ref path => exact .parameter he hc
    | inline p =>
      refine fun d hd path hpath ↦ .schema he ?_ hpath
      rcases List.mem_append.1 hc with hc | hc
      · exact List.mem_append_left _ (List.mem_flatMap.2 ⟨_, hc, hd⟩)
      · refine List.mem_append_right _ (List.mem_append_left _ (List.mem_append_left _ ?_))
        exact List.mem_flatMap.2 ⟨_, hc, hd⟩
  body c hc := by
    cases c with
    | ref path => exact .body he hc
    | inline b =>
      refine fun d hd path hpath ↦ .schema he ?_ hpath
      refine List.mem_append_right _ (List.mem_append_left _ (List.mem_append_right _ ?_))
      exact List.mem_flatMap.2 ⟨_, Option.mem_toList.2 hc, hd⟩
  responses rs hrs entry hentry := by
    obtain ⟨code, c⟩ := entry
    cases c with
    | ref path => exact .response he hrs hentry
    | inline r =>
      refine fun d hd path hpath ↦ .schema he ?_ hpath
      refine List.mem_append_right _ (List.mem_append_right _ ?_)
      exact List.mem_flatMap.2 ⟨rs, Option.mem_toList.2 hrs, List.mem_flatMap.2 ⟨_, hentry, hd⟩⟩

/-- Documents with other paths agree on the references that are followed, if none of them leads into
the paths. -/
theorem agrees {spec : Spec} (paths : Table PathItem)
    (h : ∀ kind path, Follows (.ofSpec spec) endpoints kind path → ¬Pointer.IntoPaths path) :
    (Snapshot.ofSpec spec).Agrees (.ofSpec { spec with paths })
      (Follows (.ofSpec spec) endpoints) where
  lookup kind path hpath := spec.lookup_outside_paths paths (h kind path hpath)
  free path hpath := spec.freeReference_outside_paths paths (h .schema path hpath)
  leads _ _ _ hpath ha _ hc _ hnext := .leads hpath ha hc hnext

end Follows

theorem PathItem.operations_withoutSkipped (options : Options) (item : PathItem) :
    (item.withoutSkipped options).operations =
      item.operations.filter fun e ↦ !options.skips e.2.tags := by
  rw [operations, operations, List.filter_filterMap]
  refine List.filterMap_congr fun m _ ↦ ?_
  rw [Option.filter_map]
  rfl

namespace Spec

variable (options : Options) (spec : Spec)

theorem endpoints_withoutSkipped : (spec.withoutSkipped options).endpoints =
    (spec.endpoints.filter fun e ↦ !options.skips e.operation.tags).map fun e ↦
      { e with item := e.item.withoutSkipped options } := by
  unfold endpoints withoutSkipped Table.mapValues
  rw [List.flatMap_map, List.filter_flatMap, List.map_flatMap]
  refine List.flatMap_congr fun entry _ ↦ ?_
  obtain ⟨path, item⟩ := entry
  dsimp only
  rw [PathItem.operations_withoutSkipped, List.filter_map, List.map_map]
  rfl

theorem prepare_withoutSkipped : (spec.withoutSkipped options).prepare =
    ⟨spec.prepare.spec.withoutSkipped options, spec.prepare.discriminating⟩ := by
  obtain ⟨version, info, servers, paths, components, tags⟩ := spec
  cases components <;> rfl

end Spec

section

variable (env : Env) (upgraded : Bool) (endpoints : List Endpoint)

/-- Operations that are left out have no part in the functions. -/
theorem functions_operations :
    functions env upgraded (env.operations endpoints) = functions env upgraded endpoints := by
  induction endpoints with
  | nil => rfl
  | cons e rest ih =>
    cases hskips : env.options.skips e.operation.tags with
    | true =>
      rw [Env.operations, List.filter_cons_of_neg (by simp [hskips]), functions,
        Operation.synthesize_eq, if_pos hskips, pure_bind, ← ih]
      exact (bind_pure _).symm
    | false =>
      rw [Env.operations, List.filter_cons_of_pos (by simp [hskips]), functions, functions, ← ih]
      rfl

/-- Of its path, an operation needs the parameters only. -/
theorem functions_withoutSkipped (options : Options) :
    functions env upgraded
        (endpoints.map fun e ↦ { e with item := e.item.withoutSkipped options }) =
      functions env upgraded endpoints := by
  induction endpoints with
  | nil => rfl
  | cons e rest ih =>
    rw [List.map_cons, functions, functions, ih]
    rfl

end

namespace Spec

variable {options : Options} {spec : Spec}

theorem env_withoutSkipped (options : Options) (spec : Spec) :
    (spec.withoutSkipped options).prepare.env options =
      (spec.prepare.env options).over (.ofSpec (spec.prepare.spec.withoutSkipped options)) := by
  rw [prepare_withoutSkipped]
  rfl

theorem functions_of_withoutSkipped
    (h : ∀ kind path, spec.Follows options kind path → ¬Pointer.IntoPaths path) (upgraded : Bool) :
    functions ((spec.withoutSkipped options).prepare.env options) upgraded
        (spec.withoutSkipped options).prepare.spec.endpoints =
      functions (spec.prepare.env options) upgraded spec.prepare.spec.endpoints := by
  have hendpoints : spec.prepare.spec.endpoints = spec.endpoints := by
    obtain ⟨version, info, servers, paths, components, tags⟩ := spec
    cases components <;> rfl
  have hagrees : (spec.prepare.env options).snapshot.Agrees
      (.ofSpec (spec.prepare.spec.withoutSkipped options)) (spec.Follows options) :=
    Follows.agrees _ h
  calc
    _ = functions ((spec.prepare.env options).over
          (.ofSpec (spec.prepare.spec.withoutSkipped options))) upgraded
        ((spec.prepare.env options).operations spec.endpoints) := by
      rw [env_withoutSkipped, prepare_withoutSkipped, endpoints_withoutSkipped,
        functions_withoutSkipped, hendpoints]
      rfl
    _ = functions (spec.prepare.env options) upgraded
        ((spec.prepare.env options).operations spec.endpoints) :=
      hagrees.functions fun e he ↦ Follows.stays he
    _ = functions (spec.prepare.env options) upgraded spec.prepare.spec.endpoints := by
      rw [functions_operations, hendpoints]

end Spec

/-- As long as no reference that is followed leads into the paths of a document, the operations that
the options leave out do not influence the module: without them in the document, the text of the
module is the same, or the error. What is followed are references and discriminator targets of the
document, and targets in the components that preparing it adds to discriminators. -/
theorem skipped_without_influence {spec : Spec} {settings : Settings}
    (h : ∀ kind path, spec.Follows settings.options kind path → ¬Pointer.IntoPaths path) :
    (spec.withoutSkipped settings.options).clientModule settings = spec.clientModule settings := by
  have hdeclarations : declarations (spec.withoutSkipped settings.options).prepare settings =
      declarations spec.prepare settings := by
    unfold declarations
    dsimp only
    rw [Spec.functions_of_withoutSkipped h]
  unfold Spec.clientModule
  dsimp only
  rw [hdeclarations, Spec.prepare_withoutSkipped]
  exact bind_congr fun ds ↦ congrArg pure rfl

namespace Shop

def pet : Schema := { title := some "pet" }

def response : Response where
  content := [("application/json", { schema := some (.ref "#/components/schemas/Pet") })]

def listing : Operation := { responses := some [("200", .inline response)] }

def removal : Operation := { tags := ["internal"], responses := some [("200", .inline response)] }

def item : PathItem where
  operation
    | .get => some listing
    | .delete => some removal
    | _ => none

/-- A document with an internal operation. -/
def spec : Spec where
  version := "3.0.0"
  info := { title := "Shop", version := "1" }
  paths := [("/pets", item)]
  components := some { schemas := [("Pet", .inline pet)] }

def settings : Settings := { options := { exclude := ["internal"] } }

/-- The pet once it is prepared. -/
def prepared : Schema := { pet with component := some "#/components/schemas/Pet" }

theorem resolve_pet : (spec.prepare.env settings.options).snapshot.resolve Schema.ofNode
    "#/components/schemas/Pet" = .ok prepared := by
  have hget : Table.get? "Pet" spec.prepare.spec.schemas = some (.inline prepared) := rfl
  have hdistinct : prepared.toValue.Distinct :=
    Schema.distinct_toValue.2 (by constructor <;> exact nofun)
  have hat : spec.prepare.spec.toValue.at? ["components", "schemas", "Pet"] =
      some prepared.toValue := by
    rw [Spec.at?_schemas hget, hget, Option.map_some, Schema.nodeValue]
  refine (resolve_eq_ok.2 ⟨_, lookup_eq_ok.2 ⟨_, rfl, hat⟩,
    congrArg Read.result (Schema.ofNode_toValue hdistinct)⟩).trans ?_
  rw [Schema.reread_eq]
  rfl

theorem follows {kind : Kind} {path : String} (h : spec.Follows settings.options kind path) :
    kind = .schema ∧ path = "#/components/schemas/Pet" := by
  have hoperations : (spec.prepare.env settings.options).operations spec.endpoints =
      [⟨"/pets", item, .get, listing⟩] :=
    rfl
  unfold Spec.Follows at h
  rw [hoperations] at h
  induction h with
  | parameter he hpath =>
    cases List.mem_singleton.1 he
    cases hpath
  | body he hpath =>
    cases List.mem_singleton.1 he
    cases hpath
  | response he hrs hpath =>
    cases List.mem_singleton.1 he
    cases hrs
    cases List.mem_singleton.1 hpath
  | schema he hc hpath =>
    cases List.mem_singleton.1 he
    cases List.mem_singleton.1 hc
    exact ⟨rfl, RefOr.mentions_ref.1 hpath⟩
  | leads _ ha hc hnext ih =>
    obtain ⟨rfl, rfl⟩ := ih
    cases resolve_pet.symm.trans ha
    cases List.mem_singleton.1 hc
    cases hnext with
    | target hd => cases hd
    | part hc => cases hc <;> contradiction

end Shop

/-- The internal operation of a document is left out of its endpoints and of nothing else. -/
theorem internal_without_influence :
    (Shop.spec.endpoints.map fun e ↦ e.method) = [.get, .delete] ∧
    ((Shop.spec.withoutSkipped Shop.settings.options).endpoints.map fun e ↦ e.method) = [.get] ∧
    (∀ kind path, Shop.spec.Follows Shop.settings.options kind path →
      ¬Pointer.IntoPaths path) ∧
    (Shop.spec.withoutSkipped Shop.settings.options).clientModule Shop.settings =
      Shop.spec.clientModule Shop.settings := by
  have hfollows : ∀ kind path, Shop.spec.Follows Shop.settings.options kind path →
      ¬Pointer.IntoPaths path := by
    rintro kind path h ⟨names, hnames⟩
    obtain ⟨-, rfl⟩ := Shop.follows h
    have hsegments : Pointer.segments "#/components/schemas/Pet" =
        .ok ["components", "schemas", "Pet"] :=
      rfl
    rw [hnames] at hsegments
    simp at hsegments
  exact ⟨rfl, rfl, hfollows, skipped_without_influence hfollows⟩

end ApiClient
