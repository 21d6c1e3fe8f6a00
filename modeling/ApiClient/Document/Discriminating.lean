import ApiClient.Document.Pointer
import ApiClient.Document.Spec

/-!
# Discriminating schemas

A component schema with a discriminator and without a union of its own is discriminating: it is the
base that other components extend through `allOf`. Preparing a document writes into every inline
component schema the reference under which it is declared, and completes the mapping of each
discriminating schema by an entry for every extension that no entry points to.
-/

namespace ApiClient

def Schema.isDiscriminating (s : Schema) : Bool :=
  s.discriminator.isSome && s.oneOf.isNone && s.anyOf.isNone

def declare (name : String) : RefOr Schema → RefOr Schema
  | .inline s => .inline { s with component := some (Pointer.ofComponent name) }
  | .ref path => .ref path

def discriminatingRefs (schemas : Table (RefOr Schema)) : List String :=
  schemas.filterMap fun (name, node) =>
    match node with
    | .inline s => if s.isDiscriminating then some (Pointer.ofComponent name) else none
    | .ref _ => none

/-- The names of the components that a schema extends. -/
def Schema.parents (s : Schema) : List String :=
  (s.allOf.getD []).filterMap fun node => node.path?.bind Pointer.componentName?

/-- Whether the mapping of a component has an entry for a reference. -/
def mapsTo (schemas : Table (RefOr Schema)) (name target : String) : Bool :=
  match Table.get? name schemas with
  | some (.inline s) =>
    (s.discriminator.map fun d => (Table.values d.mapping).contains target).getD false
  | _ => false

/-- The pairs of a discriminating component and an extension that its mapping lacks. -/
def missingEntries (schemas : Table (RefOr Schema)) : List (String × String) :=
  schemas.flatMap fun (name, node) =>
    match node with
    | .ref _ => []
    | .inline s =>
      (s.parents.filter fun parent =>
        (discriminatingRefs schemas).contains (Pointer.ofComponent parent)
          && !mapsTo schemas parent (Pointer.ofComponent name)).map (·, name)

/-- Adds an entry for an extension, unless its name is taken. -/
def Discriminator.addEntry (d : Discriminator) (name : String) : Discriminator :=
  if Table.has d.mapping name then d
  else { d with mapping := Table.put name (Pointer.ofComponent name) d.mapping }

def addEntry (schemas : Table (RefOr Schema)) (parent child : String) : Table (RefOr Schema) :=
  match Table.get? parent schemas with
  | some (.inline s) =>
    Table.put parent
      (.inline { s with discriminator := s.discriminator.map (·.addEntry child) }) schemas
  | _ => schemas

def prepareSchemas (schemas : Table (RefOr Schema)) : Table (RefOr Schema) :=
  let declared := schemas.map fun (name, node) => (name, declare name node)
  (missingEntries declared).foldl (fun table (parent, child) => addEntry table parent child)
    declared

structure Prepared where
  spec : Spec
  discriminating : List String

def Spec.prepare (spec : Spec) : Prepared :=
  match spec.components with
  | none => ⟨spec, []⟩
  | some c =>
    ⟨{ spec with components := some { c with schemas := prepareSchemas c.schemas } },
      discriminatingRefs c.schemas⟩

end ApiClient
