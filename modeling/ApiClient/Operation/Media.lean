import ApiClient.Document.Operation

/-!
# Media types

How the body of a request is encoded, how a response is read, and which schema describes the values
of a content table.
-/

namespace ApiClient

inductive BodyFormat where
  | json
  | form
  | multipart
deriving DecidableEq, Repr

def BodyFormat.helper : BodyFormat → String
  | .json => "json"
  | .form => "form"
  | .multipart => "multipart"

inductive ResponseKind where
  | json
  | text
  | blob
deriving DecidableEq, Repr

namespace ResponseKind

def fetcher : ResponseKind → String
  | .json => "fetchJson"
  | .text => "fetchText"
  | .blob => "fetchBlob"

/-- Whether the possible responses are part of the type of a call. -/
def isTyped (kind : ResponseKind) : Bool := kind != .text

end ResponseKind

namespace Media

def occurs (pattern : List Char) : List Char → Bool
  | [] => pattern.isEmpty
  | c :: rest => pattern.isPrefixOf (c :: rest) || occurs pattern rest

def isJson (mime : String) : Bool :=
  mime == "*/*" || occurs "json".toList (mime.toList.map Char.toLower)

/-- Whether a text is a type and a subtype with one slash between them. -/
def isMediaType (s : String) : Bool :=
  match s.toList.span (· != '/') with
  | (_ :: _, _ :: sub) => !sub.isEmpty && !sub.contains '/'
  | _ => false

def isText (mime : String) : Bool :=
  "text/".toList.isPrefixOf mime.toList

/-- The media types with an encoding of their own, the preferred ones first. -/
def bodyFormats : List (String × BodyFormat) := [
  ("*/*", .json), ("application/json", .json), ("application/x-www-form-urlencoded", .form),
  ("multipart/form-data", .multipart)]

/-- The encoding of a body, if there is one for its media types. -/
def bodyFormat (content : Table MediaType) : Option BodyFormat :=
  match bodyFormats.find? fun (mime, _) => Table.has content mime with
  | some (_, format) => some format
  | none => if (Table.keys content).any isJson then some .json else none

def responseKind (responses : List (List String)) : ResponseKind :=
  let all := responses.flatten
  if all.isEmpty then .text
  else if all.any isJson then .json
  else if all.any isText then .text
  else .blob

def fallbackSchema (binary : Bool) : Schema :=
  { types := some (.one .string), format := if binary then some "binary" else none }

/-- The schema of the values of a content table: that of the first well-formed media type, or else a
string where there is no content or some of it is text, and binary data otherwise. -/
def schemaOf (content : Table MediaType) : RefOr Schema :=
  match (content.find? fun (mime, _) => isMediaType mime).bind fun (_, media) => media.schema with
  | some schema => schema
  | none => .inline (fallbackSchema (!(content.isEmpty || (Table.keys content).any isText)))

end Media

end ApiClient
