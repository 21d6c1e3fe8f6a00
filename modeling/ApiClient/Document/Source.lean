import ApiClient.Document.Reading
import ApiClient.Json.Reader
import ApiClient.Text.Blank
import ApiClient.Yaml.Expansion

/-!
# Documents from text

A document is written in JSON or in YAML. Where it is not known which, a text that begins with a
brace is JSON.
-/

namespace ApiClient

inductive ParseError where
  | yaml
  | json (fault : Fault)
  | version (version : String)
deriving DecidableEq, Repr

namespace Spec

def checkVersion (spec : Spec) : Except ParseError Spec :=
  if "3.".toList.isPrefixOf spec.version.toList then .ok spec else .error (.version spec.version)

def ofJson (text : String) : Except ParseError Spec :=
  let (node, after) := Json.document text
  match Read.result (Spec.ofNode node), after with
  | .error fault, _ => .error (.json fault)
  | .ok _, some fault => .error (.json fault)
  | .ok spec, none => spec.checkVersion

def ofYaml (text : String) : Except ParseError Spec :=
  match Yaml.read? Spec.ofNode text with
  | some spec => spec.checkVersion
  | none => .error .yaml

/-- Reads a text as a document: as JSON if it begins with a brace, as YAML otherwise. -/
def ofText (text : String) : Except ParseError Spec :=
  match Text.trimStart text.toList with
  | '\x7b' :: _ => ofJson text
  | _ => ofYaml text

end Spec

end ApiClient
