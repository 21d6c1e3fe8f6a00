import ApiClient.Compile.Context

/-!
# Enumerations

An enumeration with a name can have a declaration of its own. It is entered under the name that it
proposes. Another one that proposes the same name and has the same values, as far as their texts
tell, shares the declaration; one with other values gets a new name and takes over the entry.
-/

namespace ApiClient

open TypeScript Json

def literalOf : Value → Except CompileError Literal
  | .str s => .ok (.str s)
  | .num n => .ok (.num n)
  | .bool b => .ok (.bool b)
  | .null => .ok .null
  | v => .error (.enumValue v)

def literalType (v : Value) : Except CompileError Ty :=
  (literalOf v).map .literal

def literalUnion (values : List Value) : Except CompileError Ty := do
  return .unionOf (← values.mapM literalType)

/-- Whether an enumeration with this name gets a declaration of its own. -/
def Options.declaresEnum (options : Options) (s : Schema) (name : String) : Bool :=
  options.namedEnums && !name.isEmpty && s.enumValues.isSome
    && !(s.types.any fun types => types.is .boolean)

def isNameChar (c : Char) : Bool :=
  c.isAlphanum || c == '$' || c == '_'

/-- The name that an enumeration proposes: the pieces of a text, each with a capital. -/
def proposedName (base : String) : String :=
  String.join <| (Text.splitWhere (fun c => !isNameChar c) base.toList).map fun piece =>
    Text.upperFirst (String.ofList piece)

def signaturePart : Value → Except CompileError String
  | .str s => .ok s
  | .num n => .ok n.text
  | .bool b => .ok (if b then "true" else "false")
  | .null => .ok ""
  | v => .error (.enumValue v)

def signature (values : List Value) : Except CompileError String := do
  return Text.join "_" (← values.mapM signaturePart)

/-- The member of an enumeration for a value, named by the value unless it has another name. -/
def enumMember (value : Value) (custom : Option String) : Except CompileError EnumMember :=
  match value with
  | .str s => .ok ⟨toIdentifier (custom.getD s) true, .str s⟩
  | .num n => .ok ⟨toIdentifier (custom.getD n.text) true, .num n⟩
  | v => .error (.enumValue v)

def enumMembers : List Value → Option (List String) → Except CompileError (List EnumMember)
  | [], _ => .ok []
  | v :: values, names => do
    let member ← enumMember v (names.bind List.head?)
    let members ← enumMembers values (names.map List.tail)
    return member :: members

/-- Whether there is a name for each value, if there are names. -/
def Schema.checkMemberNames (s : Schema) (enumName : String) : Except CompileError Unit :=
  let values := s.enumValues.getD []
  match s.memberNames with
  | some names =>
    if names.length = values.length then .ok ()
    else .error (.enumNames enumName values.length names.length)
  | none => .ok ()

/-- Declares an enumeration and enters it under the name that it proposes. -/
def newEnum (s : Schema) (proposed text : String) : Build Ty := do
  let enumName ← Build.allocate proposed
  s.checkMemberNames enumName
  let members ← enumMembers (s.enumValues.getD []) s.memberNames
  Build.declareEnum enumName members
  modify fun ctx => { ctx with enums := Table.put proposed ⟨text, .named enumName⟩ ctx.enums }
  return .named enumName

def declareEnum (s : Schema) (name : String) : Build Ty := do
  let proposed := proposedName (s.title.getD (Text.upperFirst name))
  let text ← signature (s.enumValues.getD [])
  match Table.get? proposed (← get).enums with
  | some entry => if entry.signature = text then return entry.type else newEnum s proposed text
  | none => newEnum s proposed text

end ApiClient
