import ApiClient.TypeScript.Ty

/-!
# Expressions

The expressions that the functions and constants of a client module consist of, and their text. A
template without holes is written as a string literal.
-/

namespace ApiClient.TypeScript

inductive Entry (ε : Type) where
  | prop (key : String) (value : ε)
  | spread (value : ε)
deriving DecidableEq

inductive TemplatePart (ε : Type) where
  | text (s : String)
  | hole (e : ε)
deriving DecidableEq

/-- An element of a destructuring pattern: the property `key` is bound to `name`. -/
structure Binding (ε : Type) where
  key : String
  name : String
  fallback : Option ε := none
deriving DecidableEq

/-- What a parameter binds. -/
inductive Pattern (ε : Type) where
  | name (s : String)
  | object (bindings : List (Binding ε))
deriving DecidableEq

structure Param (ε : Type) where
  pattern : Pattern ε
  type : Option Ty := none
  optional : Bool := false
  fallback : Option ε := none

inductive Expr where
  | ident (name : String)
  | literal (l : Literal)
  | member (object : Expr) (name : String)
  | call (callee : Expr) (typeArgs : List Ty) (args : List Expr)
  | object (entries : List (Entry Expr))
  | template (parts : List (TemplatePart Expr))
  /-- The right operand if the left one counts as true, else the left one. -/
  | and (left right : Expr)
  | arrow (params : List (Param Expr)) (body : Expr)
deriving Inhabited

namespace Expr

def text (s : String) : Expr := .literal (.str s)

def path (object name : String) : Expr := .member (.ident object) name

def apply (callee : Expr) (args : List Expr) : Expr := .call callee [] args

end Expr

/-- A character of a template as it is written before `next`. Only what would end the template or
open a hole is escaped. -/
def escapeTemplateChar (c : Char) (next : Option Char) : List Char :=
  if c = '\\' then ['\\', '\\']
  else if c = Char.ofNat 0x60 then ['\\', c]
  else if c = '$' && next == some '\x7b' then ['\\', '$']
  else [c]

/-- The text between the holes of a template. -/
def escapeTemplate : List Char → List Char
  | [] => []
  | c :: rest => escapeTemplateChar c rest.head? ++ escapeTemplate rest

/-- The text of a template if it has no holes. -/
def staticText? : List (TemplatePart ε) → Option String
  | [] => some ""
  | .text s :: rest => (staticText? rest).map (s ++ ·)
  | .hole _ :: _ => none

/-- Whether an entry can be written as its key alone. -/
def isShorthand (key : String) : Expr → Bool
  | .ident name => key == name && isIdentifier key
  | _ => false

/-- A property of a pattern and the name that it is bound to. -/
def renderBound (key name : String) : String :=
  if key = name then name else propertyKey key ++ ": " ++ name

mutual

def Expr.render : Expr → String
  | .ident name => name
  | .literal l => l.render
  | .member object name => object.render ++ "." ++ name
  | .call callee typeArgs args =>
    callee.render
      ++ (if typeArgs.isEmpty then "" else "<" ++ Text.join ", " (renderTypes typeArgs) ++ ">")
      ++ "(" ++ Text.join ", " (renderExprs args) ++ ")"
  | .object entries => braced ", " (renderEntries entries)
  | .template parts =>
    match staticText? parts with
    | some s => Json.quote s
    | none => "\x60" ++ renderParts parts ++ "\x60"
  | .and left right => left.render ++ " && " ++ right.render
  | .arrow params body => "(" ++ Text.join ", " (renderParams params) ++ ") => " ++ body.render

def renderExprs : List Expr → List String
  | [] => []
  | e :: es => e.render :: renderExprs es

def renderEntries : List (Entry Expr) → List String
  | [] => []
  | .prop key value :: rest =>
    (if isShorthand key value then key else propertyKey key ++ ": " ++ value.render)
      :: renderEntries rest
  | .spread value :: rest => ("..." ++ value.render) :: renderEntries rest

def renderParts : List (TemplatePart Expr) → String
  | [] => ""
  | .text s :: rest => String.ofList (escapeTemplate s.toList) ++ renderParts rest
  | .hole e :: rest => "$\x7b" ++ e.render ++ "\x7d" ++ renderParts rest

def renderBindings : List (Binding Expr) → List String
  | [] => []
  | ⟨key, name, fallback⟩ :: rest =>
    (renderBound key name ++ renderFallback fallback) :: renderBindings rest

/-- The text of a value that stands in for a missing one. -/
def renderFallback : Option Expr → String
  | none => ""
  | some e => " = " ++ e.render

def renderPattern : Pattern Expr → String
  | .name s => s
  | .object bindings => "\x7b " ++ Text.join ", " (renderBindings bindings) ++ " \x7d"

def renderParams : List (Param Expr) → List String
  | [] => []
  | ⟨pattern, type, optional, fallback⟩ :: rest =>
    (renderPattern pattern ++ (if optional then "?" else "")
        ++ (match type with | none => "" | some t => ": " ++ t.render) ++ renderFallback fallback)
      :: renderParams rest

end

end ApiClient.TypeScript
