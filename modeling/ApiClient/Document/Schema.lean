import ApiClient.Json.Value
import ApiClient.Table

/-!
# Schemas

The model of a schema: what its keywords say, each absent or present. A schema that is part of
another one stands in it directly or is referred to by a pointer into the document.
-/

namespace ApiClient

/-- An object that stands in place, or a reference to one. -/
inductive RefOr (α : Type) where
  | ref (path : String)
  | inline (value : α)

namespace RefOr

variable {α : Type}

def path? : RefOr α → Option String
  | .ref path => some path
  | .inline _ => none

end RefOr

/-- The names of the basic types of JSON. -/
inductive TypeName where
  | string
  | number
  | integer
  | boolean
  | array
  | object
  | null
deriving DecidableEq, Repr

/-- The keyword `type`: one name, or a list of them. -/
inductive TypeSet where
  | one (name : TypeName)
  | many (names : List TypeName)
deriving DecidableEq, Repr

def TypeSet.is (name : TypeName) : TypeSet → Bool
  | .one n => n == name
  | .many names => names == [name]

/-- How the members of a union tell which one they are. -/
structure Discriminator where
  property : Option String := none
  mapping : Table String := []

inductive Additional (σ : Type) where
  | allowed (b : Bool)
  | schema (s : RefOr σ)

structure Schema where
  types : Option TypeSet := none
  format : Option String := none
  title : Option String := none
  description : Option String := none
  default : Option Json.Value := none
  nullable : Option Bool := none
  properties : Option (List (String × RefOr Schema)) := none
  required : Option (List String) := none
  additional : Option (Additional Schema) := none
  items : Option (RefOr Schema) := none
  prefixItems : Option (List (RefOr Schema)) := none
  allOf : Option (List (RefOr Schema)) := none
  oneOf : Option (List (RefOr Schema)) := none
  anyOf : Option (List (RefOr Schema)) := none
  discriminator : Option Discriminator := none
  enum : Option (List Json.Value) := none
  enumNames : Option (List String) := none
  enumVarNames : Option (List String) := none
  readOnly : Option Bool := none
  writeOnly : Option Bool := none
  const : Option Json.Value := none
  /-- The reference under which the schema is declared as a component, once that is known. -/
  component : Option String := none
deriving Inhabited

namespace Schema

def isNullable (s : Schema) : Bool := s.nullable.getD false

def isRequired (s : Schema) (name : String) : Bool :=
  (s.required.getD []).contains name

def memberNames (s : Schema) : Option (List String) :=
  s.enumNames <|> s.enumVarNames

def enumValues (s : Schema) : Option (List Json.Value) :=
  s.enum.filter fun values => !values.isEmpty

def hasObjectShape (s : Schema) : Bool :=
  s.properties.isSome ||
    match s.additional with
    | some (.schema _) | some (.allowed true) => true
    | _ => false

end Schema

end ApiClient
