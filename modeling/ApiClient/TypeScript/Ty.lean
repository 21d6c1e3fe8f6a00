import ApiClient.TypeScript.Identifier

/-!
# Types

The type expressions of a client module and their text. Of the operators, the postfix `[]` binds
tighter than `&`, and `&` tighter than `|`; parentheses are written where this matters.
-/

namespace ApiClient.TypeScript

/-- The types that are words of the language. -/
inductive Keyword where
  | any
  | string
  | number
  | boolean
  | object
  | null
  | undefined
deriving DecidableEq, Repr

/-- A literal, which is both a type and an expression. -/
inductive Literal where
  | str (s : String)
  | num (n : Json.Number)
  | bool (b : Bool)
  | null
deriving DecidableEq, Repr

structure Member (τ : Type) where
  name : String
  type : τ
  optional : Bool := false
deriving DecidableEq, Repr

inductive Ty where
  | keyword (k : Keyword)
  | literal (l : Literal)
  | named (name : String)
  | array (item : Ty)
  | tuple (items : List Ty)
  | union (members : List Ty)
  | inter (members : List Ty)
  /-- An object with members, and the type of all others if those are allowed. -/
  | object (members : List (Member Ty)) (index : Option Ty)
deriving Inhabited

namespace Ty

def any : Ty := .keyword .any

def text (s : String) : Ty := .literal (.str s)

/-- A union, which of one member is that member. -/
def unionOf : List Ty → Ty
  | [t] => t
  | ts => .union ts

def name? : Ty → Option String
  | .named name => some name
  | _ => none

end Ty

def Keyword.render : Keyword → String
  | .any => "any"
  | .string => "string"
  | .number => "number"
  | .boolean => "boolean"
  | .object => "object"
  | .null => "null"
  | .undefined => "undefined"

def Literal.render : Literal → String
  | .str s => Json.quote s
  | .num n => n.text
  | .bool b => if b then "true" else "false"
  | .null => "null"

def parenthesized (s : String) : String :=
  "(" ++ s ++ ")"

/-- Whether a type in front of `[]` needs parentheses. -/
def Ty.isLoose : Ty → Bool
  | .union _ | .inter _ => true
  | _ => false

def Ty.isWideUnion : Ty → Bool
  | .union (_ :: _ :: _) => true
  | _ => false

def braced (sep : String) : List String → String
  | [] => "\x7b\x7d"
  | parts => "\x7b " ++ Text.join sep parts ++ " \x7d"

mutual

def Ty.render : Ty → String
  | .keyword k => k.render
  | .literal l => l.render
  | .named name => name
  | .array item => (if item.isLoose then parenthesized item.render else item.render) ++ "[]"
  | .tuple items => "[" ++ Text.join ", " (renderTypes items) ++ "]"
  | .union [] => "never"
  | .union (t :: ts) => Text.join " | " (renderTypes (t :: ts))
  | .inter [] => "unknown"
  | .inter (t :: ts) => Text.join " & " (renderFactors (t :: ts))
  | .object members index => braced " " (renderMembers members ++ renderIndex index)

def renderTypes : List Ty → List String
  | [] => []
  | t :: ts => t.render :: renderTypes ts

def renderFactors : List Ty → List String
  | [] => []
  | t :: ts => (if t.isWideUnion then parenthesized t.render else t.render) :: renderFactors ts

def renderMembers : List (Member Ty) → List String
  | [] => []
  | ⟨name, type, optional⟩ :: rest =>
    (propertyKey name ++ (if optional then "?" else "") ++ ": " ++ type.render ++ ";")
      :: renderMembers rest

/-- The text of what an object type says of all other members. -/
def renderIndex : Option Ty → List String
  | none => []
  | some t => ["[key: string]: " ++ t.render ++ ";"]

end

end ApiClient.TypeScript
