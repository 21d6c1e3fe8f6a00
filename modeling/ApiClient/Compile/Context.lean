import ApiClient.Compile.Error
import ApiClient.Compile.Names
import ApiClient.Document.Discriminating
import ApiClient.Document.Snapshot
import ApiClient.Options
import ApiClient.TypeScript.Declaration

/-!
# The state of a compilation

Compiling types and functions fills tables of names and collects declarations. A step that fails
keeps what it entered before it failed.
-/

namespace ApiClient

open TypeScript

/-- The names given to the types of a reference. -/
structure Aliases where
  base : String
  read : Option String := none
  write : Option String := none
deriving DecidableEq

namespace Aliases

/-- The name in a mode, which is the base name if the mode has none of its own. -/
def get (a : Aliases) : Mode → String
  | .base => a.base
  | .read => a.read.getD a.base
  | .write => a.write.getD a.base

def set (a : Aliases) (mode : Mode) (name : String) : Aliases :=
  match mode with
  | .base => a
  | .read => { a with read := some name }
  | .write => { a with write := some name }

end Aliases

structure EnumEntry where
  signature : String
  type : Ty

structure Context where
  aliases : Table Aliases := []
  typeNames : Names.Counts := []
  enums : Table EnumEntry := []
  flags : Table Flags := []
  functionNames : Names.Counts := []
  /-- The declared aliases, first to last. -/
  typeDeclarations : List Declaration := []
  /-- The declared enumerations, first to last. -/
  enumDeclarations : List Declaration := []

/-- What a compilation reads. -/
structure Env where
  snapshot : Snapshot
  discriminating : List String
  options : Options

def Prepared.env (prepared : Prepared) (options : Options) : Env where
  snapshot := .ofSpec prepared.spec
  discriminating := prepared.discriminating
  options := options

abbrev Build := ExceptT CompileError (StateM Context)

namespace Build

variable {α : Type}

def ofResolve : Except ResolveError α → Build α
  | .ok a => pure a
  | .error e => throw (.reference e)

/-- A name for a type. -/
def allocate (wanted : String) : Build String :=
  modifyGet fun ctx =>
    let (name, counts) := Names.allocate wanted ctx.typeNames
    (name, { ctx with typeNames := counts })

/-- A name for a function. -/
def reserve (wanted : String) : Build String :=
  modifyGet fun ctx =>
    let (name, counts) := Names.reserve wanted ctx.functionNames
    (name, { ctx with functionNames := counts })

def register (key : String) (names : Aliases) : Build Unit :=
  modify fun ctx => { ctx with aliases := Table.put key names ctx.aliases }

def declareType (name : String) (type : Ty) : Build Unit :=
  modify fun ctx => { ctx with typeDeclarations := ctx.typeDeclarations ++ [.typeAlias name type] }

def declareEnum (name : String) (members : List EnumMember) : Build Unit :=
  modify fun ctx => { ctx with enumDeclarations := ctx.enumDeclarations ++ [.enum name members] }

end Build

end ApiClient
