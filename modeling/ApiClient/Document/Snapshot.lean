import ApiClient.Document.Pointer
import ApiClient.Document.Writing

/-!
# Looking up references

References are looked up in the written form of the document. A name selects a member of an object
or, if it is a number, an item of a list.
-/

namespace ApiClient

def position? (name : String) : Option Nat :=
  let digits := match name.toList with
    | '+' :: rest => rest
    | rest => rest
  (CoreSchema.nat? 10 digits).filter (· < Nat.pow 2 64)

def Json.Value.at? : List String → Json.Value → Option Json.Value
  | [], v => some v
  | name :: names, .obj members => (Table.get? name members).bind (at? names)
  | name :: names, .arr items => ((position? name).bind (items[·]?)).bind (at? names)
  | _ :: _, _ => none

mutual

def Json.Value.size : Json.Value → Nat
  | .arr items => 1 + sizeItems items
  | .obj members => 1 + sizeMembers members
  | _ => 1

def Json.sizeItems : List Json.Value → Nat
  | [] => 0
  | v :: rest => v.size + sizeItems rest

def Json.sizeMembers : List (String × Json.Value) → Nat
  | [] => 0
  | (_, v) :: rest => v.size + sizeMembers rest

end

/-- The written form of a document. -/
structure Snapshot where
  root : Json.Value
  /-- The number of values in it, which bounds the number of references in it. -/
  size : Nat := root.size
  size_eq : size = root.size := by rfl

namespace Snapshot

def ofSpec (spec : Spec) : Snapshot := { root := spec.toValue }

def lookup (snapshot : Snapshot) (reference : String) : Except ResolveError Json.Value := do
  let names ← Pointer.segments reference
  match snapshot.root.at? names with
  | some v => return v
  | none => throw (.notFound reference)

def contains (snapshot : Snapshot) (reference : String) : Bool :=
  (snapshot.lookup reference).toBool

variable {α : Type}

/-- What a reference points to, read as an object of some kind. -/
def resolve (snapshot : Snapshot) (read : Node → Read α) (reference : String) :
    Except ResolveError α := do
  let v ← snapshot.lookup reference
  match Read.result (read (Node.ofValue v)) with
  | .ok a => return a
  | .error _ => throw (.unexpected reference)

/-- The object that stands in place or is referred to. -/
def get (snapshot : Snapshot) (read : Node → Read α) : RefOr α → Except ResolveError α
  | .inline a => .ok a
  | .ref path => snapshot.resolve read path

end Snapshot

end ApiClient
