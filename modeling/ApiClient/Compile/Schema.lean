import ApiClient.Compile.Enum
import ApiClient.Compile.Plan
import ApiClient.Compile.Scan

/-!
# Types of schemas

A schema is compiled by the first of its keywords that decides: `oneOf`, `anyOf`, the mapping of a
discriminating schema, `allOf`, `prefixItems`, `items`, the shape of an object, `enum`, a binary
format, `const`, `type`. A reference becomes a name, which is declared when the reference is met for
the first time.

Compiling a schema goes down its parts and makes a plan in which references are left open. The name
of a reference is entered before what the reference points to is compiled, so a schema that comes
back to itself finds the name.
-/

namespace ApiClient

open TypeScript Json

/-- A type that also has the value null if the schema says so. -/
def orNull (s : Schema) (t : Ty) : Ty :=
  if s.isNullable then .union [t, .keyword .null] else t

def TypeName.type : TypeName → Ty
  | .string => .keyword .string
  | .number | .integer => .keyword .number
  | .boolean => .keyword .boolean
  | .null => .keyword .null
  | .object => .keyword .object
  | .array => .array .any

def TypeSet.type : TypeSet → Ty
  | .one name => name.type
  | .many [] => .any
  | .many names => .unionOf (names.map TypeName.type)

def Env.isDiscriminating (env : Env) (s : Schema) : Bool :=
  s.component.any env.discriminating.contains

/-- The mapping of a discriminating component, if it has entries. -/
def Env.mapping? (env : Env) (s : Schema) : Option (Table String) :=
  if env.isDiscriminating s then
    (s.discriminator.map (·.mapping)).filter fun mapping => !mapping.isEmpty
  else none

def tag (property value : String) : Ty :=
  .object [⟨property, .text value, false⟩] none

def Discriminator.requireProperty (d : Discriminator) : Except CompileError String :=
  d.property.elim (.error .propertyMissing) .ok

/-- The values and references of the members of a union that do not occur in the mapping. The value
is the last part of the reference. -/
def unmapped (property : String) (mapped : List String) :
    List (RefOr Schema) → Except CompileError (List (String × String))
  | [] => .ok []
  | .inline _ :: _ => .error (.inlineVariant property)
  | .ref path :: rest => do
    let others ← unmapped property mapped rest
    let value := Pointer.baseName path
    return if mapped.contains value then others else (value, path) :: others

def taggedMembers (property : String) (mode : Mode) : List (String × String) → Plan (List Ty)
  | [] => pure []
  | (value, path) :: rest => do
    let t ← Plan.follow path mode
    let ts ← taggedMembers property mode rest
    return .inter [tag property value, t] :: ts

/-- The type of a union whose members are told apart by a discriminator. -/
def taggedUnion (variants : List (RefOr Schema)) (d : Discriminator) (mode : Mode) : Plan Ty := do
  let property ← d.requireProperty
  let mapped := (Table.values d.mapping).map Pointer.baseName
  let others ← unmapped property mapped variants
  return .unionOf (← taggedMembers property mode (d.mapping ++ others))

def followAll (mode : Mode) : List String → Plan (List Ty)
  | [] => pure []
  | path :: rest => do
    let t ← Plan.follow path mode
    let ts ← followAll mode rest
    return t :: ts

/-- The tag that a schema carries as an extension of a discriminating one. -/
def ownTag (parent child : Schema) : Except CompileError (Option Ty) :=
  match parent.discriminator, child.component with
  | some d, some path =>
    match d.mapping.find? fun entry => entry.2 == path with
    | some (value, _) => do return some (tag (← d.requireProperty) value)
    | none => .ok none
  | _, _ => .ok none

/-- The type of a reference in `allOf`. An extension of a discriminating schema has its tag and the
type of that schema without the discriminator. -/
def extendedTypes (env : Env) (child : Schema) (path : String) (mode : Mode) : Plan (List Ty) := do
  let parent ← Build.ofResolve (env.snapshot.resolve Schema.ofNode path)
  if env.isDiscriminating parent then
    let own ← ownTag parent child
    let t ← Plan.follow path mode true
    return own.toList ++ [t]
  else
    let t ← Plan.follow path mode
    return [t]

def Env.optionalType (env : Env) (t : Ty) : Ty :=
  if env.options.withUndefined then .union [t, .keyword .undefined] else t

/-- The type of a schema by its values alone, without parts. -/
def simpleType (env : Env) (s : Schema) (name : Option String) : Build Ty := do
  match s.enumValues with
  | some values =>
    match name with
    | some name =>
      if env.options.declaresEnum s name then declareEnum s name else literalUnion values
    | none => literalUnion values
  | none =>
    if s.format = some "binary" then return .named "Blob" else
    match s.const with
    | some v => literalType v
    | none => return s.types.elim .any TypeSet.type

mutual

/-- The type of a schema or reference. The name is that of the property it belongs to. -/
def nodeType (env : Env) (node : RefOr Schema) (name : Option String) (mode : Mode) : Plan Ty :=
  match node with
  | .ref path => Plan.follow path mode
  | .inline s => do return orNull s (← plainType env s s.required name mode)
termination_by (sizeOf node, 0)

/-- The type of a schema apart from null. The names of the required members are given, as they may
come from around the schema. -/
def plainType (env : Env) (s : Schema) (required : Option (List String)) (name : Option String)
    (mode : Mode) : Plan Ty :=
  match _ : s.oneOf, _ : s.anyOf, env.mapping? s, _ : s.allOf, _ : s.prefixItems, _ : s.items with
  | some cs, _, _, _, _, _ =>
    match s.discriminator with
    | some d => taggedUnion cs d mode
    | none => do return .unionOf (← nodeTypes env cs mode)
  | none, some cs, _, _, _, _ => do return .unionOf (← nodeTypes env cs mode)
  | none, none, some mapping, _, _, _ => do
    return .unionOf (← followAll mode (Table.values mapping))
  | none, none, none, some cs, _, _ => do
    let ts ← factorTypes env s required cs mode
    if s.hasObjectShape then
      let t ← objectType env s required mode
      return .inter (ts ++ [t])
    else return .inter ts
  | none, none, none, none, some cs, _ => do return .tuple (← nodeTypes env cs mode)
  | none, none, none, none, none, some c => do return .array (← nodeType env c none mode)
  | none, none, none, none, none, none =>
    if s.hasObjectShape then objectType env s required mode else simpleType env s name
termination_by (sizeOf s, 1)
decreasing_by
  · exact Prod.Lex.left _ _ (Schema.sizeOf_oneOf (by assumption))
  · exact Prod.Lex.left _ _ (Schema.sizeOf_anyOf (by assumption))
  · exact Prod.Lex.left _ _ (Schema.sizeOf_allOf (by assumption))
  · exact Prod.Lex.right _ (by omega)
  · exact Prod.Lex.left _ _ (Schema.sizeOf_prefixItems (by assumption))
  · exact Prod.Lex.left _ _ (Schema.sizeOf_items (by assumption))
  · exact Prod.Lex.right _ (by omega)

def nodeTypes (env : Env) (nodes : List (RefOr Schema)) (mode : Mode) : Plan (List Ty) :=
  match nodes with
  | [] => pure []
  | c :: cs => do
    let t ← nodeType env c none mode
    let ts ← nodeTypes env cs mode
    return t :: ts
termination_by (sizeOf nodes, 0)

/-- The types of the members of `allOf`. A member that does not name its required properties takes
those of the schema `s` around it. -/
def factorTypes (env : Env) (s : Schema) (required : Option (List String))
    (nodes : List (RefOr Schema)) (mode : Mode) : Plan (List Ty) :=
  match nodes with
  | [] => pure []
  | .ref path :: cs => do
    let ts ← extendedTypes env s path mode
    let others ← factorTypes env s required cs mode
    return ts ++ others
  | .inline c :: cs => do
    let t ← plainType env c (c.required <|> required) none mode
    let others ← factorTypes env s required cs mode
    return orNull c t :: others
termination_by (sizeOf nodes, 0)

/-- The type of an object: its members that show in the mode, and what other members may be. -/
def objectType (env : Env) (s : Schema) (required : Option (List String)) (mode : Mode) :
    Plan Ty := do
  let members ← memberTypes env (s.properties.getD []) (required.getD []) mode
  let index ← additionalType env s.additional mode
  return .object members index
termination_by (sizeOf s, 0)
decreasing_by
  · exact Prod.Lex.left _ _ (Schema.sizeOf_getD_properties s)
  · exact Prod.Lex.left _ _ (Schema.sizeOf_additional s)

/-- The type of the members of an object that are not named, if there may be any. -/
def additionalType (env : Env) (additional : Option (Additional Schema)) (mode : Mode) :
    Plan (Option Ty) :=
  match additional with
  | some (.schema c) => do return some (← nodeType env c none mode)
  | some (.allowed true) => pure (some .any)
  | some (.allowed false) | none => pure none
termination_by (sizeOf additional, 0)

def memberTypes (env : Env) (properties : List (String × RefOr Schema)) (required : List String)
    (mode : Mode) : Plan (List (Member Ty)) :=
  match properties with
  | [] => pure []
  | (name, node) :: rest =>
    if mode.keeps (env.ownMarks node) then do
      let t ← nodeType env node (some name) mode
      let others ← memberTypes env rest required mode
      let member : Member Ty :=
        if required.contains name then ⟨name, t, false⟩ else ⟨name, env.optionalType t, true⟩
      return member :: others
    else memberTypes env rest required mode
termination_by (sizeOf properties, 0)

end

/-! The keyword of a schema that decides. -/

section

variable {env : Env} {s : Schema} {cs : List (RefOr Schema)} (required : Option (List String))
  (name : Option String) (mode : Mode)

theorem plainType_oneOf_tagged {d : Discriminator} (h : s.oneOf = some cs)
    (hd : s.discriminator = some d) :
    plainType env s required name mode = taggedUnion cs d mode := by
  rw [plainType]
  split <;> simp_all

theorem plainType_oneOf (h : s.oneOf = some cs) (hd : s.discriminator = none) :
    plainType env s required name mode = do return .unionOf (← nodeTypes env cs mode) := by
  rw [plainType]
  split <;> simp_all

theorem plainType_anyOf (h₁ : s.oneOf = none) (h : s.anyOf = some cs) :
    plainType env s required name mode = do return .unionOf (← nodeTypes env cs mode) := by
  rw [plainType]
  split <;> simp_all

theorem plainType_mapping {mapping : Table String} (h₁ : s.oneOf = none) (h₂ : s.anyOf = none)
    (h : env.mapping? s = some mapping) :
    plainType env s required name mode =
      do return .unionOf (← followAll mode (Table.values mapping)) := by
  rw [plainType]
  split <;> simp_all

theorem plainType_allOf (h₁ : s.oneOf = none) (h₂ : s.anyOf = none) (h₃ : env.mapping? s = none)
    (h : s.allOf = some cs) :
    plainType env s required name mode = (do
      let ts ← factorTypes env s required cs mode
      if s.hasObjectShape then
        let t ← objectType env s required mode
        return .inter (ts ++ [t])
      else return .inter ts) := by
  rw [plainType]
  split <;> simp_all

theorem plainType_prefixItems (h₁ : s.oneOf = none) (h₂ : s.anyOf = none)
    (h₃ : env.mapping? s = none) (h₄ : s.allOf = none) (h : s.prefixItems = some cs) :
    plainType env s required name mode = do return .tuple (← nodeTypes env cs mode) := by
  rw [plainType]
  split <;> simp_all

theorem plainType_items {c : RefOr Schema} (h₁ : s.oneOf = none) (h₂ : s.anyOf = none)
    (h₃ : env.mapping? s = none) (h₄ : s.allOf = none) (h₅ : s.prefixItems = none)
    (h : s.items = some c) :
    plainType env s required name mode = do return .array (← nodeType env c none mode) := by
  rw [plainType]
  split <;> simp_all

theorem plainType_object (h₁ : s.oneOf = none) (h₂ : s.anyOf = none) (h₃ : env.mapping? s = none)
    (h₄ : s.allOf = none) (h₅ : s.prefixItems = none) (h₆ : s.items = none)
    (h : s.hasObjectShape = true) :
    plainType env s required name mode = objectType env s required mode := by
  rw [plainType]
  split <;> simp_all

theorem plainType_simple (h₁ : s.oneOf = none) (h₂ : s.anyOf = none) (h₃ : env.mapping? s = none)
    (h₄ : s.allOf = none) (h₅ : s.prefixItems = none) (h₆ : s.items = none)
    (h : ¬s.hasObjectShape = true) :
    plainType env s required name mode = liftM (simpleType env s name) := by
  rw [plainType]
  split <;> simp_all

end

def inlineType (env : Env) (s : Schema) (name : Option String) (mode : Mode) : Plan Ty :=
  nodeType env (.inline s) name mode

end ApiClient
