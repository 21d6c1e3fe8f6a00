import ApiClient.ClientModule
import ApiClient.Yaml.Expansion

/-!
# Configuration

The configuration file says where the document is, where the module goes, and how it is made. All of
it has defaults.
-/

namespace ApiClient

open Node (optional)

structure Config where
  input : String := "openapi.yaml"
  output : String := "src/api.ts"
  settings : Settings := {}
deriving DecidableEq

def Options.fields : List Field := [
  ⟨"include", .defaulted, none⟩, ⟨"exclude", .defaulted, none⟩,
  ⟨"use_enum_type", .defaulted, some "useEnumType"⟩,
  ⟨"merge_read_write_only", .defaulted, some "mergeReadWriteOnly"⟩,
  ⟨"union_undefined", .defaulted, some "unionUndefined"⟩, ⟨"optimistic", .defaulted, none⟩]

def Options.ofNode (node : Node) : Read Options :=
  node.record fields {} fun key n _ o =>
    match key with
    | "include" => do return { o with include? := ← optional n n.texts }
    | "exclude" => do return { o with exclude := ← n.texts }
    | "use_enum_type" => do return { o with namedEnums := ← n.flag }
    | "merge_read_write_only" => do return { o with singleMode := ← n.flag }
    | "union_undefined" => do return { o with withUndefined := ← n.flag }
    | "optimistic" => do return { o with optimistic := ← n.flag }
    | _ => return o

def Config.fields : List Field :=
  ["input", "output", "runtime_module", "upgraded", "options"].map (⟨·, .defaulted, none⟩)

def Config.ofNode (node : Node) : Read Config :=
  node.record fields {} fun key n _ c =>
    match key with
    | "input" => do return { c with input := ← n.text }
    | "output" => do return { c with output := ← n.text }
    | "runtime_module" => do return { c with settings := { c.settings with runtime := ← n.text } }
    | "upgraded" => do return { c with settings := { c.settings with upgraded := ← n.flag } }
    | "options" => do
      return { c with settings := { c.settings with options := ← Options.ofNode n } }
    | _ => return c

def Config.ofText (text : String) : Option Config :=
  Yaml.read? Config.ofNode text

def Config.fileName : String := ".apigen.yaml"

def Config.initialText : String :=
  "# apigen configuration\n"
    ++ "input: openapi.yaml\n"
    ++ "output: src/api.ts\n"
    ++ "runtime_module: \"@apigen/runtime\"\n"
    ++ "upgraded: false       # set when the document was converted from Swagger 2.0\n"
    ++ "\n"
    ++ "options:\n"
    ++ "  # include: [pets]   # only emit operations tagged with one of these\n"
    ++ "  exclude: []         # never emit operations tagged with one of these\n"
    ++ "  use_enum_type: false\n"
    ++ "  merge_read_write_only: false\n"
    ++ "  union_undefined: false\n"
    ++ "  optimistic: false\n"

end ApiClient
