import ApiClient.Operation.Synthesis
import ApiClient.Servers

/-!
# Client modules

A client module begins with a comment and its imports, goes on with the constants for its servers,
and then declares the types, the functions and the enumerations of its document.
-/

namespace ApiClient

open TypeScript

structure Settings where
  /-- The library that the functions call. -/
  runtime : String := "@apigen/runtime"
  /-- Whether the document came from an older format. -/
  upgraded : Bool := false
  options : Options := {}
deriving DecidableEq

def functions (env : Env) (upgraded : Bool) : List Endpoint → Build (List Function)
  | [] => pure []
  | e :: rest => do
    let f ← e.operation.synthesize env upgraded e.path e.item e.method
    let others ← functions env upgraded rest
    return f.toList ++ others

def declarations (prepared : Prepared) (settings : Settings) :
    Except CompileError (List Declaration) :=
  let env := prepared.env settings.options
  match (functions env settings.upgraded prepared.spec.endpoints).run.run {} with
  | (.ok fs, ctx) => .ok (ctx.typeDeclarations ++ fs.map .function ++ ctx.enumDeclarations)
  | (.error e, _) => .error e

def headerComment (info : Info) : String :=
  let line (s : String) := " * " ++ String.ofList (escapeComment s.toList) ++ "\n"
  "/**\n" ++ line info.title ++ line info.version
    ++ " * DO NOT MODIFY - This file has been generated using apigen.\n */\n"

def imports (runtime : String) : String :=
  "import * as Runtime from " ++ Json.quote runtime ++ ";\n"
    ++ "import * as QS from " ++ Json.quote (runtime ++ "/query") ++ ";\n"

def constants (servers : List Server) : String :=
  "export const defaults: Runtime.RequestOpts = \x7b\n"
    ++ "    baseUrl: " ++ Json.quote (baseUrl servers) ++ ",\n\x7d;\n"
    ++ "const runtime = Runtime.runtime(defaults);\n"

def serverList (entries : List (String × String)) : String :=
  if entries.isEmpty then "export const servers = \x7b\x7d;\n" else
  "export const servers = \x7b\n"
    ++ Text.join ",\n" (entries.map fun (key, value) => "    " ++ key ++ ": " ++ value)
    ++ "\n\x7d;\n"

def moduleText (spec : Spec) (settings : Settings) (declared : List Declaration) : String :=
  headerComment spec.info ++ imports settings.runtime ++ "\n" ++ constants spec.servers ++ "\n"
    ++ serverList (serverEntries spec.servers)
    ++ String.join (declared.map fun d => "\n" ++ d.render ++ "\n")

def Spec.clientModule (spec : Spec) (settings : Settings) : Except CompileError String := do
  let prepared := spec.prepare
  return moduleText prepared.spec settings (← declarations prepared settings)

end ApiClient
