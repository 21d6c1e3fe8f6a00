import ApiClient.Text.Blank
import ApiClient.TypeScript.Expr

/-!
# Declarations

What a client module declares: names for types, enumerations and functions. The text of a document
may stand in a comment, where the sequence that ends a comment is broken up.
-/

namespace ApiClient.TypeScript

structure EnumMember where
  name : String
  value : Literal
deriving DecidableEq

/-- An exported function whose body is one expression. -/
structure Function where
  name : String
  doc : Option String
  params : List (Param Expr)
  body : Expr

inductive Declaration where
  | typeAlias (name : String) (type : Ty)
  | enum (name : String) (members : List EnumMember)
  | function (f : Function)

def Declaration.name : Declaration → String
  | .typeAlias name _ => name
  | .enum name _ => name
  | .function f => f.name

/-- Breaks up every `*/`. -/
def escapeComment : List Char → List Char
  | '*' :: '/' :: rest => '*' :: '\\' :: '/' :: escapeComment rest
  | c :: rest => c :: escapeComment rest
  | [] => []

def commentLine (line : List Char) : List Char :=
  match escapeComment (Text.trimEnd line) with
  | [] => [' ', '*', '\n']
  | cs => ' ' :: '*' :: ' ' :: (cs ++ ['\n'])

/-- The lines of a text; a text without characters has none. -/
def lines (cs : List Char) : List (List Char) :=
  if cs.isEmpty then [] else Text.splitOn '\n' cs

def renderDoc (doc : String) : String :=
  "/**\n" ++ String.ofList ((lines (Text.trim doc.toList)).flatMap commentLine) ++ " */\n"

def EnumMember.render (member : EnumMember) : String :=
  "    " ++ member.name ++ " = " ++ member.value.render

def Function.render (f : Function) : String :=
  f.doc.elim "" renderDoc
    ++ "export function " ++ f.name ++ "(" ++ Text.join ", " (renderParams f.params) ++ ") \x7b\n"
    ++ "    return " ++ f.body.render ++ ";\n\x7d"

def Declaration.render : Declaration → String
  | .typeAlias name type => "export type " ++ name ++ " = " ++ type.render ++ ";"
  | .enum name members =>
    "export enum " ++ name ++ " \x7b\n" ++ Text.join ",\n" (members.map EnumMember.render) ++
      "\n\x7d"
  | .function f => f.render

end ApiClient.TypeScript
