import ApiClient.Decimal.Shortest
import ApiClient.Table

/-!
# JSON values

Numbers are integers, kept exactly, or doubles. The members of an object stand in the order in which
their keys first appeared.
-/

namespace ApiClient.Json

/-- A number: an integer of 64 bits with or without sign, or a double. -/
inductive Number where
  | int (n : Int)
  | real (x : Binary64)
deriving DecidableEq, Repr

inductive Value where
  | null
  | bool (b : Bool)
  | num (n : Number)
  | str (s : String)
  | arr (items : List Value)
  | obj (members : List (String × Value))
deriving Inhabited

def Value.get? (key : String) : Value → Option Value
  | .obj members => Table.get? key members
  | _ => none

end ApiClient.Json
