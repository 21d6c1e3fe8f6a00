import ApiClient.Operation.Placeholders
import ApiClient.Text.Blank
import ApiClient.Text.FinalSigma
import ApiClient.TypeScript.Identifier

/-!
# Names of functions

The function for an operation is named by the identifier of the operation if that is made of words,
and else by its method and path.
-/

namespace ApiClient

open TypeScript

/-- Reads the first placeholder as a word before its name. -/
def spellPlaceholder (word : List Char) (path : List Char) : List Char :=
  match Piece.first? path with
  | some (before, c :: inside, after) => before ++ word ++ ' ' :: c :: inside ++ after
  | _ => path

/-- A name for a method and a path: the first placeholder reads as `by` and its name, the next one
as `and` and its name. -/
def routeName (method path : String) : String :=
  let path := spellPlaceholder "and".toList (spellPlaceholder "by".toList path.toList)
  Text.camelCase (String.ofList (Text.lowercase method.toList ++ ' ' :: path))

def isWords (id : String) : Bool :=
  id.toList.all fun c => c.isAlphanum || c == '_' || Text.isBlank c

/-- The name that the identifier of an operation gives, if it gives one. -/
def nameOfId? (id : String) : Option String :=
  let name := Text.camelCase id
  if isWords id && isIdentifier name then some name else none

def operationName (id : Option String) (method path : String) : String :=
  (id.bind nameOfId?).getD (toIdentifier (routeName method path))

end ApiClient
