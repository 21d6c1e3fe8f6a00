import ApiClient.Document.Operation
import ApiClient.Json.Printer

/-!
# Documents

The root of a document: what it is called, where its servers are, its paths, and the components that
references point into.
-/

namespace ApiClient

/-- The title and the version of the described interface. -/
structure Info where
  title : String
  description : Option String := none
  version : String

structure Tag where
  name : String
  description : Option String := none

/-- Definitions to be referred to by kind and name. -/
structure Components where
  schemas : Table (RefOr Schema) := []
  responses : Table (RefOr Response) := []
  parameters : Table (RefOr Parameter) := []
  bodies : Table (RefOr RequestBody) := []

structure ServerVariable where
  default : Json.Value
  description : Option String := none
  values : List Json.Value := []

/-- The default as it stands in an address. -/
def ServerVariable.defaultText (v : ServerVariable) : String :=
  match v.default with
  | .str s => s
  | .null => ""
  | other => other.text

/-- The address of a server, in which names in braces are variables. -/
structure Server where
  url : String
  description : Option String := none
  vars : Table ServerVariable := []

/-- The address with each variable in turn replaced by its default. -/
def Server.defaultUrl (server : Server) : String :=
  String.ofList <| server.vars.foldl (fun url (name, v) =>
    Text.replace '\x7b' (name.toList ++ ['\x7d']) v.defaultText.toList url) server.url.toList

structure Spec where
  version : String
  info : Info
  servers : List Server := []
  paths : Table PathItem := []
  components : Option Components := none
  tags : List Tag := []

def Spec.schemas (spec : Spec) : Table (RefOr Schema) :=
  (spec.components.map (·.schemas)).getD []

/-- An operation with the path item and the method that it stands under. -/
structure Endpoint where
  path : String
  item : PathItem
  method : Method
  operation : Operation

def Spec.endpoints (spec : Spec) : List Endpoint :=
  spec.paths.flatMap fun (path, item) => item.operations.map fun (m, op) => ⟨path, item, m, op⟩

end ApiClient
