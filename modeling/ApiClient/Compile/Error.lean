import ApiClient.Document.Pointer
import ApiClient.Json.Printer

/-!
# Why no module can be made
-/

namespace ApiClient

/-- Why no type or function can be made. -/
inductive CompileError where
  | reference (e : ResolveError)
  /-- A discriminator does not say which property it is about. -/
  | propertyMissing
  /-- A union with a discriminator has a member in place instead of by reference. -/
  | inlineVariant (property : String)
  /-- An enumerated or constant value has no literal. -/
  | enumValue (value : Json.Value)
  /-- An enumeration does not have one name for each value. -/
  | enumNames (name : String) (expected found : Nat)

def CompileError.message : CompileError → String
  | .reference e => "resolve error: " ++ e.message
  | .propertyMissing => "invalid discriminator: discriminators require a propertyName"
  | .inlineVariant property =>
    "invalid discriminator: discriminator " ++ property ++
      " requires references, not inline schemas"
  | .enumValue value => "unexpected enum value " ++ value.text
  | .enumNames name expected found =>
    "enum " ++ name ++ " has " ++ toString found ++ " custom member names but "
      ++ toString expected ++ " values"

end ApiClient
