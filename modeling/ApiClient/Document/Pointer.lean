import ApiClient.Text.Join
import ApiClient.Text.Utf8
import ApiClient.Text.Words
import ApiClient.Tree.CoreSchema

/-!
# Pointers and the names made from them

A reference into the document is `#/` and a list of segments. In a segment `~1` stands for `/` and
`~0` for `~`; after that, `%` and two hexadecimal digits stand for a byte.
-/

namespace ApiClient

/-- Why a reference leads nowhere. -/
inductive ResolveError where
  /-- The reference does not point into the document. -/
  | external (reference : String)
  | notFound (reference : String)
  /-- What stands there is not of the expected kind. -/
  | unexpected (reference : String)
deriving DecidableEq, Repr

def ResolveError.message : ResolveError → String
  | .external reference =>
    "external references are not supported (" ++ reference ++ "); bundle the document first"
  | .notFound reference => "reference target not found: " ++ reference
  | .unexpected reference => "reference " ++ reference ++ " does not point at the expected object"

namespace Pointer

/-- Replaces `~1` by `/`. -/
def unescapeSlash : List Char → List Char
  | '~' :: '1' :: rest => '/' :: unescapeSlash rest
  | c :: rest => c :: unescapeSlash rest
  | [] => []

/-- Replaces `~0` by `~`. -/
def unescapeTilde : List Char → List Char
  | '~' :: '0' :: rest => '~' :: unescapeTilde rest
  | c :: rest => c :: unescapeTilde rest
  | [] => []

/-- The byte that two characters after `%` stand for. A plus sign may take the place of the first
digit. -/
def escapedByte? (a b : Char) : Option Nat :=
  match CoreSchema.nat? 16 [b], CoreSchema.nat? 16 [a] with
  | some low, some high => some (16 * high + low)
  | some low, none => if a = '+' then some low else none
  | none, _ => none

def percentBytes : List Char → List Nat
  | '%' :: a :: b :: rest =>
    match escapedByte? a b with
    | some byte => byte :: percentBytes rest
    | none => 0x25 :: percentBytes (a :: b :: rest)
  | c :: rest => Text.Utf8.encodeChar c ++ percentBytes rest
  | [] => []

/-- A segment with its percent escapes replaced and the bytes read as text. -/
def percentDecode (cs : List Char) : List Char :=
  Text.Utf8.decode (percentBytes cs)

def decodeSegment (cs : List Char) : List Char :=
  percentDecode (unescapeTilde (unescapeSlash cs))

def segments (reference : String) : Except ResolveError (List String) :=
  match reference.toList with
  | '#' :: '/' :: path =>
    .ok ((Text.splitOn '/' path).map fun piece => String.ofList (decodeSegment piece))
  | _ => .error (.external reference)

def escape (name : String) : String :=
  String.ofList <| name.toList.flatMap fun c =>
    if c = '~' then ['~', '0'] else if c = '/' then ['~', '1'] else [c]

def ofComponent (name : String) : String :=
  "#/components/schemas/" ++ escape name

/-- The name of the component schema that a reference points to, if it points to one. -/
def componentName? (reference : String) : Option String :=
  match segments reference with
  | .ok ["components", "schemas", name] => some name
  | _ => none

def baseName (reference : String) : String :=
  String.ofList ((Text.splitOn '/' reference.toList).getLastD [])

/-- A name for what a reference points to: the characters after the last slash, or the whole path
without the punctuation before it if those begin with a digit. -/
def displayName (reference : String) : String :=
  let base := baseName reference
  match base.toList with
  | c :: _ =>
    if c.isDigit then
      String.ofList (reference.toList.dropWhile fun c => !(Text.isAlphanumeric c || c == '_'))
    else base
  | [] => base

end Pointer

end ApiClient
