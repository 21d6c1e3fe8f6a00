import ApiClient.Text.Words
import ApiClient.Json.Printer
import ApiClient.Mode

/-!
# Identifiers

Which texts may name a variable, how any text is turned into such a name, and how the key of a
property is written.
-/

namespace ApiClient.TypeScript

def reservedWords : List String := [
  "break", "case", "catch", "class", "const", "continue", "debugger", "default", "delete", "do",
  "else", "enum", "export", "extends", "false", "finally", "for", "function", "if", "import", "in",
  "instanceof", "new", "null", "return", "super", "switch", "this", "throw", "true", "try",
  "typeof", "var", "void", "while", "with", "implements", "interface", "let", "package", "private",
  "protected", "public", "static", "yield", "await"]

def startsIdentifier (c : Char) : Bool :=
  c == '_' || c == '$' || Text.isAlphabetic c

def continuesIdentifier (c : Char) : Bool :=
  c == '_' || c == '$' || Text.isAlphanumeric c

def isIdentifier (s : String) : Bool :=
  match s.toList with
  | [] => false
  | c :: rest => startsIdentifier c && rest.all continuesIdentifier && !reservedWords.contains s

/-- An identifier made from a text: its camel case, with a capital if `upper` says so, with the
ending of a mode, and with a dollar sign in front if it would not be an identifier otherwise. -/
def toIdentifier (s : String) (upper : Bool := false) (mode : Mode := .base) : String :=
  let name := Text.camelCase s
  let name := (if upper then Text.upperFirst name else name) ++ mode.ending
  if isIdentifier name then name else "$" ++ name

def isPlainKey (name : String) : Bool :=
  match name.toList with
  | [] => false
  | c :: rest => !c.isDigit && (c :: rest).all continuesIdentifier

/-- A property name as it stands in an object, quoted where it has to be. -/
def propertyKey (name : String) : String :=
  if isPlainKey name then name else Json.quote name

end ApiClient.TypeScript
