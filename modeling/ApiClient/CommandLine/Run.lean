import ApiClient.CommandLine.Arguments
import ApiClient.CommandLine.FileTree
import ApiClient.CommandLine.Path
import ApiClient.CommandLine.Usage
import ApiClient.Config
import ApiClient.Document.Source

/-!
# Carrying out commands

A command reads and writes files and says what it does. It fails with a message, after what it has
said until then.
-/

namespace ApiClient.CommandLine

variable {m : Type → Type} [Monad m] [FileSystem m]

/-- A step of a command. The state is what has been said. -/
abbrev Session (m : Type → Type) := ExceptT String (StateT String m)

def say (line : String) : Session m Unit := modify (· ++ line ++ "\n")

def onFiles {α : Type} (step : m α) : Session m α := ExceptT.lift (StateT.lift step)

/-- A step that fails with a message where there is no value. -/
def orFail {α : Type} (message : String) : Option α → Session m α
  | some value => pure value
  | none => throw message

/-- Settings changed by the arguments of a command line. Flags only add to what is configured. -/
def Overrides.apply (o : Overrides) (c : Config) : Config :=
  let options := c.settings.options
  { input := o.input?.getD c.input
    output := o.output?.getD c.output
    settings :=
      { c.settings with
        upgraded := c.settings.upgraded || o.upgraded
        options :=
          { include? := if o.includedTags.isEmpty then options.include? else some o.includedTags
            exclude := options.exclude ++ o.excludedTags
            namedEnums := options.namedEnums || o.namedEnums
            singleMode := options.singleMode || o.singleMode
            withUndefined := options.withUndefined || o.withUndefined
            optimistic := options.optimistic || o.optimistic } } }

def loadConfig : Session m Config := do
  let path := Config.fileName
  if !(← onFiles (FileSystem.has path)) then return {}
  let text ← orFail ("failed to read config " ++ path) (← onFiles (FileSystem.read? path))
  orFail ("failed to parse config " ++ path) (Config.ofText text)

/-- Reads a text in the notation that the name of its file stands for. -/
def readDocument (path text : String) : Except ParseError Spec :=
  match Path.extension? path with
  | some "json" => Spec.ofJson text
  | some "yaml" => Spec.ofYaml text
  | some "yml" => Spec.ofYaml text
  | _ => Spec.ofText text

def loadDocument (path : String) : Session m Spec := do
  let text ← orFail ("failed to read " ++ path) (← onFiles (FileSystem.read? path))
  orFail ("failed to parse " ++ path) (readDocument path text).toOption

def clientModule (spec : Spec) (settings : Settings) : Session m String :=
  match spec.clientModule settings with
  | .ok text => pure text
  | .error e => throw e.message

/-- Writes a file into a directory that is created if need be. -/
def writeFile (path text : String) : Session m Unit := do
  match Path.parent? path with
  | none => pure ()
  | some "" => pure ()
  | some directory =>
    if !(← onFiles (FileSystem.createDirectory directory)) then
      throw ("failed to create directory " ++ directory)
  if (← onFiles (FileSystem.write path text)).isSome then throw ("failed to write " ++ path)
  say ("  wrote " ++ path)

def generate (overrides : Overrides) : Session m Unit := do
  let config := overrides.apply (← loadConfig)
  let spec ← loadDocument config.input
  say ("Generating " ++ config.input ++ " → " ++ config.output)
  writeFile config.output (← clientModule spec config.settings)
  say ""
  say "The generated module should not be edited manually; changes will be overwritten."

/-- Reports on a document and checks that a client module can be made for it. -/
def validate (input : String) : Session m Unit := do
  let spec ← loadDocument input
  say ("Valid OpenAPI " ++ spec.version ++ " spec: " ++ spec.info.title)
  say ("  Version: " ++ spec.info.version)
  say ("  Paths: " ++ toString spec.paths.length)
  say ("  Schemas: " ++ toString spec.schemas.length)
  say ("  Operations: " ++ toString spec.endpoints.length)
  let _ ← clientModule spec {}
  say "Validation successful."

def createConfig (force : Bool) : Session m Unit := do
  let path := Config.fileName
  if (← onFiles (FileSystem.has path)) && !force then
    throw (path ++ " already exists. Use --force to overwrite.")
  match ← onFiles (FileSystem.write path Config.initialText) with
  | some reason => throw reason
  | none => say ("Created " ++ path)

/-- Carries out a command. The result is what it puts out. -/
def perform : Command → Session m String
  | .generate overrides => do
    generate overrides
    return ""
  | .validate input => do
    validate input
    return ""
  | .init force => do
    createConfig force
    return ""
  | .completions shell => pure shell.script

structure Outcome where
  /-- Zero for success, one for a failure, two for a command line that makes no sense. -/
  exitCode : Nat
  messages : String := ""
  output : String := ""

def run (arguments : List String) : m Outcome := do
  match Request.ofArguments arguments with
  | some (.perform command) =>
    match ← ((perform command).run.run "" : m (Except String String × String)) with
    | (.ok output, said) => return { exitCode := 0, messages := said, output }
    | (.error message, said) =>
      return { exitCode := 1, messages := said ++ "Error: " ++ message ++ "\n" }
  | some .help => return { exitCode := 0, output := usageText }
  | some .version => return { exitCode := 0, output := versionText }
  | none => return { exitCode := 2, messages := usageText }

end ApiClient.CommandLine
