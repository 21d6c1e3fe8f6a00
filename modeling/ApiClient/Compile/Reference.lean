import ApiClient.Compile.Schema

/-!
# Types of references

A reference gets a name for its type when it is met for the first time, and one more name for each
mode in which its type differs: the read mode if its closure has a read-only schema, the write mode
if it has a write-only one. The type of a discriminating schema without its discriminator is entered
under a key that no reference into the document has.
-/

namespace ApiClient

open TypeScript

/-- The first number from `n` on that makes a reference point nowhere, looked for at most `steps`
times. -/
def Snapshot.freeNumber? (snapshot : Snapshot) (reference : String) : Nat → Nat → Option Nat
  | 0, _ => none
  | steps + 1, n =>
    if snapshot.contains (reference ++ toString n) then freeNumber? snapshot reference steps (n + 1)
    else some n

/-- The reference itself if it points nowhere, else the first of it with the number 2, 3, and so on
that does. -/
def Snapshot.freeReference (snapshot : Snapshot) (reference : String) : String :=
  if snapshot.contains reference then
    match snapshot.freeNumber? reference (snapshot.size + 1) 2 with
    | some n => reference ++ toString n
    | none => reference
  else reference

/-- The key under which the names of a reference are entered. -/
def Env.aliasKey (env : Env) (path : String) (plain : Bool) : String :=
  if plain then env.snapshot.freeReference (path ++ "Base") else path

/-- The schema that a reference points to, without its discriminator if `plain` says so. -/
def Env.target (env : Env) (path : String) (plain : Bool) : Except ResolveError Schema := do
  let s ← env.snapshot.resolve Schema.ofNode path
  return if plain then { s with discriminator := none } else s

/-- Declares the type of a schema in one mode under a name. -/
def declareIn (env : Env) (s : Schema) (name : String) (mode : Mode) : Plan Unit := do
  let t ← inlineType env s none mode
  Build.declareType name t

/-- Gives the entry of a key a name in one more mode, and declares the type. -/
def addVariant (env : Env) (key : String) (s : Schema) (name : String) (mode : Mode) :
    Plan Unit := do
  let variant ← Build.allocate (toIdentifier name true mode)
  match Table.get? key (← get).aliases with
  | some names => Build.register key (names.set mode variant)
  | none => pure ()
  declareIn env s variant mode

/-- Declares the type of a schema under the name that its key has got, and once more for each mode
in which it differs. -/
def declareModes (env : Env) (key : String) (s : Schema) (name base : String) : Plan Unit := do
  declareIn env s base .base
  let flags ← env.closureMarks s
  if flags.readOnly then addVariant env key s name .read
  if flags.writeOnly then addVariant env key s name .write

/-- The plan of a reference: the name that its key has, or new names and their declarations. -/
def referencePlan (env : Env) (path : String) (mode : Mode) (plain : Bool) : Plan Ty := do
  let key := env.aliasKey path plain
  match Table.get? key (← get).aliases with
  | some names => return .named (names.get mode)
  | none =>
    let s ← Build.ofResolve (env.target path plain)
    let name := s.title.getD (Pointer.displayName key)
    if env.options.declaresEnum s name then declareEnum s name else
    let base ← Build.allocate (toIdentifier name true)
    Build.register key { base := base }
    declareModes env key s name base
    match Table.get? key (← get).aliases with
    | some names => return .named (names.get mode)
    | none => return .named base

/-- The plan of a schema or reference, where an absent one stands for anything. The name is that of
the property it belongs to. -/
def schemaPlan (env : Env) (node : Option (RefOr Schema)) (name : Option String) (mode : Mode) :
    Plan Ty :=
  match node with
  | none => pure .any
  | some node => nodeType env node name mode

/-- The type of a reference, through at most `hops` references that have no name yet. -/
def referenceType (env : Env) : Nat → Follow
  | 0, _, _, _ => pure .any
  | hops + 1, path, mode, plain => (referencePlan env path mode plain).run (referenceType env hops)

/-- How many references without a name can be met one below the other: each of those in the document
with and without its discriminator, and one from outside. -/
def Env.hops (env : Env) : Nat := 2 * env.snapshot.size + 3

def Env.referenceType (env : Env) (path : String) (mode : Mode) (plain : Bool := false) :
    Build Ty :=
  ApiClient.referenceType env env.hops path mode plain

def Env.schemaType (env : Env) (node : Option (RefOr Schema)) (name : Option String) (mode : Mode) :
    Build Ty :=
  (schemaPlan env node name mode).run (ApiClient.referenceType env env.hops)

end ApiClient
