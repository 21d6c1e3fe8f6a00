import ApiClient.Json.Value

/-!
# The tree of a text

Reading a document goes in two steps: the text becomes a tree, and the tree is read as something.
A text with a fault still has a tree. The fault stands in it where reading would meet it, so a
reader that walks the tree in order meets the faults of the text and its own complaints in the order
in which they stand in the text.

A notation may let a node stand in several places. The tree then has it in one of them and says in
the others where it stands, and a reader that goes there leaves the text for a moment. Readers are
allowed a limited number of such steps.

Some faults exist only for a reader that wants the value: a number out of range, half of a surrogate
pair, too deep a nesting. Passing over such a value is fine.
-/

namespace ApiClient

/-- Why a text could not be read. -/
inductive Fault where
  /-- The text breaks the rules of its notation. -/
  | malformed
  | truncated
  /-- The text is well formed but holds something other than expected. -/
  | mismatch
deriving DecidableEq, Repr

/-- What a tag may say about the type of a scalar. -/
inductive CoreTag where
  | bool
  | int
  | float
  | null
  | text
  /-- The type is the one that the scalar has without a tag. -/
  | untyped
deriving DecidableEq, Repr

/-- A scalar. In some notations its type is part of the notation, in others the same text can be
read as different types. -/
inductive Scalar where
  | null
  | bool (b : Bool)
  | num (n : Json.Number)
  /-- The integer zero with a minus sign. Its value is zero, but it counts nothing. -/
  | negativeZero
  /-- An infinity, or no number at all. -/
  | nonFinite
  | str (s : String)
  /-- Text without quotes, whose type depends on the text and on the reader. -/
  | plain (text : String) (tag : Option CoreTag)
  /-- Text in quotes or in a block; `literal` marks a block that keeps its lines. -/
  | quoted (text : String) (literal : Bool) (tag : Option CoreTag)

/-- A tree read from text. -/
inductive Node where
  | scalar (s : Scalar)
  /-- Items up to the end of the list, or up to a fault after them. `positional` says whether the
  notation lets a list of fields stand for a record. -/
  | seq (items : List Node) (stop : Option Fault) (positional : Bool)
  /-- Keys and values up to the end of the map, or up to a fault after them. -/
  | map (members : List (Node × Node)) (stop : Option Fault)
  /-- A node with a tag that means nothing to the core schema. -/
  | labelled (node : Node)
  /-- A node that stands elsewhere in the text and is meant here too. -/
  | shared (node : Node)
  /-- A node with a fault, and the fault that remains when the node is passed over. -/
  | bad (fault : Fault) (skipped : Option Fault)
deriving Inhabited

namespace Node

mutual

/-- The first fault that is met when a node is passed over. Nothing is met where a node only stands
for one that stands elsewhere. -/
def skip : Node → Option Fault
  | .scalar _ => none
  | .seq items stop _ => skipItems items <|> stop
  | .map members stop => skipMembers members <|> stop
  | .labelled node => skip node
  | .shared _ => none
  | .bad _ skipped => skipped

def skipItems : List Node → Option Fault
  | [] => none
  | n :: rest => skip n <|> skipItems rest

def skipMembers : List (Node × Node) → Option Fault
  | [] => none
  | (k, v) :: rest => skip k <|> skip v <|> skipMembers rest

end

/-- The node itself, without labels and wherever it stands. -/
def bare : Node → Node
  | .labelled node => bare node
  | .shared node => bare node
  | node => node

/-- How many steps lead from a node to the place where it stands. -/
def distance : Node → Nat
  | .labelled node => distance node
  | .shared node => distance node + 1
  | _ => 0

theorem sizeOf_bare_le (n : Node) : sizeOf n.bare ≤ sizeOf n := by
  fun_induction bare n with
  | case1 node ih => simp; omega
  | case2 node ih => simp; omega
  | case3 node => exact Nat.le_refl _

mutual

def ofValue : Json.Value → Node
  | .null => .scalar .null
  | .bool b => .scalar (.bool b)
  | .num n => .scalar (.num n)
  | .str s => .scalar (.str s)
  | .arr items => .seq (ofItems items) none true
  | .obj members => .map (ofMembers members) none

def ofItems : List Json.Value → List Node
  | [] => []
  | v :: rest => ofValue v :: ofItems rest

def ofMembers : List (String × Json.Value) → List (Node × Node)
  | [] => []
  | (k, v) :: rest => (.scalar (.str k), ofValue v) :: ofMembers rest

end

end Node

end ApiClient
