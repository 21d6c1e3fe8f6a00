import ApiClient.Compile.Enum
import ApiClient.Document.Spec
import ApiClient.Operation.Placeholders

/-!
# Servers

A client module lists the servers of its document: a server without variables by its address, one
with variables by a function from their values to the address.
-/

namespace ApiClient

open TypeScript Json

/-- The address of the first server with the defaults of its variables. -/
def baseUrl (servers : List Server) : String :=
  servers.head?.elim "/" Server.defaultUrl

/-- The default of a variable as an expression, if it is a text, a number or a truth value. -/
def defaultExpr : Value → Option Expr
  | .str s => some (.text s)
  | .num n => some (.literal (.num n))
  | .bool b => some (.literal (.bool b))
  | _ => none

namespace ServerVariable

def valueTypes (v : ServerVariable) : List Ty :=
  v.values.filterMap fun value => (literalType value).toOption

/-- The type of a variable: one of its allowed values, or any text, number or truth value. -/
def type (v : ServerVariable) : Ty :=
  match v.valueTypes with
  | [] => .union [.keyword .string, .keyword .number, .keyword .boolean]
  | ts => .unionOf ts

end ServerVariable

namespace Server

/-- The part of the address for a piece of it; what is no variable stays as it is. -/
def urlPart (server : Server) (piece : Piece) : TemplatePart Expr :=
  match piece with
  | .name cs =>
    if Table.has server.vars (String.ofList cs) then
      .hole (.ident (toIdentifier (String.ofList cs)))
    else .text (String.ofList piece.source)
  | .text cs => .text (String.ofList cs)

def expr (server : Server) : Expr :=
  if server.vars.isEmpty then .text server.url else
  .arrow
    [{ pattern := .object <| server.vars.map fun (name, v) =>
         ⟨name, toIdentifier name, defaultExpr v.default⟩
       type := some <| .object (server.vars.map fun (name, v) => ⟨name, v.type, false⟩) none }]
    (.template ((Piece.split server.url.toList).map server.urlPart))

/-- The key of the server at a position: its description, or a number. -/
def key (server : Server) (i : Nat) : String :=
  propertyKey (server.description.elim ("server" ++ toString (i + 1)) Text.camelCase)

end Server

def serverEntries (servers : List Server) : List (String × String) :=
  servers.zipIdx.map fun (server, i) => (server.key i, server.expr.render)

end ApiClient
