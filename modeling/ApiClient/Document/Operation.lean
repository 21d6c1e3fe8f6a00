import ApiClient.Document.Schema

/-!
# Operations

An operation is a method of a path. It takes parameters and a body and gives responses; bodies and
responses have a table of media types.
-/

namespace ApiClient

structure MediaType where
  schema : Option (RefOr Schema) := none

/-- Where a parameter travels. -/
inductive Location where
  | query
  | header
  | path
  | cookie
deriving DecidableEq, Repr

def Location.word : Location → String
  | .query => "query"
  | .header => "header"
  | .path => "path"
  | .cookie => "cookie"

/-- A parameter. Within an operation its name and location identify it. -/
structure Parameter where
  name : String
  location : Location
  description : Option String := none
  required : Bool := false
  schema : Option (RefOr Schema) := none
  /-- Instead of a schema: the media type in which the value is written. -/
  content : Table MediaType := []
  style : Option String := none
  explode : Option Bool := none

/-- Whether the value is written in a media type. -/
def Parameter.hasContent (p : Parameter) : Bool := !p.content.isEmpty

structure RequestBody where
  description : Option String := none
  content : Table MediaType := []
  required : Bool := false

structure Response where
  description : String := ""
  content : Table MediaType := []

def Response.hasContent (r : Response) : Bool := !r.content.isEmpty

inductive Method where
  | get
  | put
  | post
  | delete
  | options
  | head
  | patch
  | trace
deriving DecidableEq, Repr

namespace Method

/-- The methods in the order in which they are put out. -/
def all : List Method := [.get, .put, .post, .delete, .options, .head, .patch, .trace]

def key : Method → String
  | .get => "get"
  | .put => "put"
  | .post => "post"
  | .delete => "delete"
  | .options => "options"
  | .head => "head"
  | .patch => "patch"
  | .trace => "trace"

def verb : Method → String
  | .get => "GET"
  | .put => "PUT"
  | .post => "POST"
  | .delete => "DELETE"
  | .options => "OPTIONS"
  | .head => "HEAD"
  | .patch => "PATCH"
  | .trace => "TRACE"

def ofKey? (key : String) : Option Method :=
  all.find? fun m => m.key == key

end Method

structure Operation where
  id : Option String := none
  summary : Option String := none
  description : Option String := none
  tags : List String := []
  parameters : List (RefOr Parameter) := []
  body : Option (RefOr RequestBody) := none
  /-- Absent if the operation says nothing about responses. -/
  responses : Option (Table (RefOr Response)) := none
  deprecated : Option Bool := none

/-- The operations of a path, and the parameters that all of them take. -/
structure PathItem where
  summary : Option String := none
  description : Option String := none
  parameters : List (RefOr Parameter) := []
  operation : Method → Option Operation := fun _ => none

def PathItem.operations (item : PathItem) : List (Method × Operation) :=
  Method.all.filterMap fun m => (item.operation m).map (m, ·)

end ApiClient
