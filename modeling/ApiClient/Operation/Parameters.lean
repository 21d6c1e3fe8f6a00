import ApiClient.Document.Operation
import ApiClient.TypeScript.Identifier

/-!
# Parameters of an operation

The parameters of an operation are those of its path, replaced and continued by its own. In a
document that came from an older format, parameters named like members of an object are folded into
one. Each parameter gets the name of an argument, the shorter names first.
-/

namespace ApiClient

open TypeScript

def Parameter.same (p q : Parameter) : Bool :=
  p.name == q.name && p.location == q.location

namespace Parameters

/-- Puts a parameter in the place of the first one that is the same, or at the end. -/
def override (params : List Parameter) (p : Parameter) : List Parameter :=
  match params with
  | [] => [p]
  | q :: rest => if q.same p then p :: rest else q :: override rest p

/-- The parameters of a path, overridden by those of an operation. -/
def merge (ofPath ofOperation : List Parameter) : List Parameter :=
  ofOperation.foldl override ofPath

/-! ## Deep objects -/

/-- The object and the member that a name such as `filter[tag]` names. -/
def memberOf? (name : String) : Option (String × String) :=
  match name.toList.span (· != '[') with
  | (c :: object, _ :: rest) =>
    match rest.span (· != ']') with
    | (member, _ :: _) => some (String.ofList (c :: object), String.ofList member)
    | _ => none
  | _ => none

def emptyObject (name : String) (location : Location) : Parameter where
  name := name
  location := location
  schema := some (.inline { types := some (.one .object), properties := some [] })
  style := some "deepObject"
  explode := some true

/-- The schema of a parameter, which without one is that of anything. -/
def schemaOrAny (p : Parameter) : RefOr Schema :=
  p.schema.getD (.inline {})

def addMember (p : Parameter) (name : String) (schema : RefOr Schema) : Parameter :=
  match p.schema with
  | some (.inline s) =>
    { p with
      schema := some (.inline
        { s with properties := some (Table.put name schema (s.properties.getD [])) }) }
  | _ => p

/-- Parameters in which some are objects folded from others. -/
structure Folded where
  params : List Parameter := []
  /-- The positions of the folded objects by their names. -/
  objects : Table Nat := []

def Folded.add (folded : Folded) (p : Parameter) : Folded :=
  match memberOf? p.name with
  | none => { folded with params := folded.params ++ [p] }
  | some (object, member) =>
    let folded := match Table.get? object folded.objects with
      | some _ => folded
      | none =>
        { params := folded.params ++ [emptyObject object p.location]
          objects := Table.put object folded.params.length folded.objects }
    match Table.get? object folded.objects with
    | some i =>
      { folded with params := folded.params.modify i fun q => addMember q member (schemaOrAny p) }
    | none => folded

/-- Folds the parameters that name members of an object into one parameter for the object. -/
def fold (params : List Parameter) : List Parameter :=
  (params.foldl Folded.add {}).params

/-! ## Arguments -/

def byteLength (s : String) : Nat := s.utf8ByteSize

/-- Puts a parameter behind those whose names are no longer than its own. -/
def insertByLength (entry : Nat × Parameter) : List (Nat × Parameter) → List (Nat × Parameter)
  | [] => [entry]
  | e :: rest =>
    if byteLength e.2.name ≤ byteLength entry.2.name then e :: insertByLength entry rest
    else entry :: e :: rest

/-- Parameters with their positions, the shorter names first and else in order. -/
def byLength (params : List Parameter) : List (Nat × Parameter) :=
  params.zipIdx.foldl (fun sorted (p, i) => insertByLength (i, p) sorted) []

def argumentName (taken : List String) (p : Parameter) : String :=
  let name := toIdentifier p.name
  if taken.contains name then name ++ Text.upperFirst p.location.word else name

/-- Names for parameters with their positions, in order; `taken` holds the names given so far. -/
def nameEach (taken : List String) : List (Nat × Parameter) → List (Nat × String)
  | [] => []
  | (i, p) :: rest =>
    let name := argumentName taken p
    (i, name) :: nameEach (name :: taken) rest

def argumentNames (params : List Parameter) : List String :=
  let named := nameEach [] (byLength params)
  (List.range params.length).map fun i => (named.lookup i).getD ""

/-- The parameters at a location with the names of their arguments. -/
def located (params : List Parameter) (names : List String) (location : Location) :
    List (Parameter × String) :=
  (params.zip names).filter fun (p, _) => p.location == location

end Parameters

end ApiClient
