import ApiClient.Compile.Reference
import ApiClient.Operation.Media
import ApiClient.Operation.Naming
import ApiClient.Operation.Query

/-!
# Functions of operations

The function for an operation takes the required parameters, then the body, then the optional
parameters as one object, then the options of the call. It calls the fetching function for the kind
of response with the address, which holds the path and query parameters, and with the request, which
holds the method, the body and the header parameters.
-/

namespace ApiClient

open TypeScript

namespace Operation

def resolvedParameters (env : Env) (upgraded : Bool) (item : PathItem) (op : Operation) :
    Except ResolveError (List Parameter) := do
  let ofPath ← item.parameters.mapM (env.snapshot.get Parameter.ofNode)
  let ofOperation ← op.parameters.mapM (env.snapshot.get Parameter.ofNode)
  let params := Parameters.merge ofPath ofOperation
  return if upgraded then Parameters.fold params else params

def parameterType (env : Env) (p : Parameter) : Build Ty :=
  if p.hasContent then env.schemaType (some (Media.schemaOf p.content)) none .write
  else env.schemaType p.schema none .write

def requiredParams (env : Env) : List (Parameter × String) → Build (List (Param Expr))
  | [] => pure []
  | (p, arg) :: rest =>
    if p.required then do
      let t ← parameterType env p
      let others ← requiredParams env rest
      return { pattern := .name arg, type := some t } :: others
    else requiredParams env rest

/-- The members of the object for the parameters that may be left out. -/
def optionalMembers (env : Env) : List (Parameter × String) → Build (List (Member Ty))
  | [] => pure []
  | (p, arg) :: rest =>
    if p.required then optionalMembers env rest
    else do
      let t ← parameterType env p
      let others ← optionalMembers env rest
      return ⟨arg, t, true⟩ :: others

def optionalParam (members : List (Member Ty)) : List (Param Expr) :=
  if members.isEmpty then [] else
    [{ pattern := .object (members.map fun m => ⟨m.name, m.name, none⟩)
       type := some (.object members none)
       fallback := some (.object []) }]

def optsParam : Param Expr where
  pattern := .name "opts"
  type := some (.named "Runtime.RequestOpts")
  optional := true

def bodyArgument (schema : RefOr Schema) : String :=
  toIdentifier ((schema.path?.map Pointer.baseName).getD "body")

def bodyParam (env : Env) (body : RequestBody) : Build (Param Expr × String) := do
  let schema := Media.schemaOf body.content
  let t ← env.schemaType (some schema) none .write
  let arg := bodyArgument schema
  return ({ pattern := .name arg, type := some t, optional := !body.required }, arg)

def urlPart (params : List (Parameter × String)) : Piece → TemplatePart Expr
  | .text cs => .text (String.ofList cs)
  | .name cs =>
    let name := String.ofList cs
    let arg := match params.find? fun (p, _) => p.name == name with
      | some (_, arg) => arg
      | none => toIdentifier name
    .hole (.apply (.ident "encodeURIComponent") [.ident arg])

/-- The address: the path with its placeholders filled in, and the query string. -/
def urlExpr (path : String) (params : List (Parameter × String)) (query : Option Expr) : Expr :=
  .template ((Piece.split path.toList).map (urlPart params) ++ (query.map .hole).toList)

/-- The headers of a request: those of the options and those of the parameters. -/
def headersEntry (params : List (Parameter × String)) : List (Entry Expr) :=
  if params.isEmpty then [] else
    [.prop "headers" <| .object <|
      .spread (.and (.ident "opts") (.path "opts" "headers"))
        :: params.map fun (p, arg) => .prop p.name (.ident arg)]

def requestExpr (method : Method) (bodyArg : Option String) (headers : List (Parameter × String))
    (format : Option BodyFormat) : Expr :=
  let init : Expr := .object <|
    .spread (.ident "opts")
      :: (if method = .get then [] else [.prop "method" (.text method.verb)])
      ++ (bodyArg.map fun arg => .prop "body" (.ident arg)).toList
      ++ headersEntry headers
  match format with
  | some format => .apply (.path "runtime" format.helper) [init]
  | none => init

/-- The type of the status of a response: its number, or any number for a range of them. -/
def statusType (code : String) : Ty :=
  let digits := match code.toList with
    | '+' :: rest => rest
    | rest => rest
  match (CoreSchema.nat? 10 digits).filter (· < 65536) with
  | some n => .literal (.num (.int n))
  | none => .keyword .number

/-- The types of responses: their status and, if they have content, their data. -/
def responseTypes (env : Env) : List (String × Response) → Build (List Ty)
  | [] => pure []
  | (code, response) :: rest => do
    let status : Member Ty := ⟨"status", statusType code, false⟩
    let data ← if response.hasContent then do
        let t ← env.schemaType (some (Media.schemaOf response.content)) none .read
        pure [⟨"data", t, false⟩]
      else pure []
    let others ← responseTypes env rest
    return .object (status :: data) none :: others

def resolvedResponses (env : Env) (op : Operation) :
    Except ResolveError (List (String × Response)) :=
  (op.responses.getD []).mapM fun (code, response) => do
    return (code, ← env.snapshot.get Response.ofNode response)

def doc (op : Operation) : Option String :=
  let text := op.summary <|> op.description
  if op.deprecated = some true then
    some (text.elim "@deprecated" (· ++ "\n@deprecated"))
  else text

def callExpr (optimistic : Bool) (kind : ResponseKind) (typeArgs : List Ty) (url request : Expr) :
    Expr :=
  let call : Expr := .call (.path "runtime" kind.fetcher) typeArgs [url, request]
  if optimistic then .apply (.path "runtime" "ok") [call] else call

/-- The function for an operation, unless the operation is left out. -/
def synthesize (env : Env) (upgraded : Bool) (path : String) (item : PathItem) (method : Method)
    (op : Operation) : Build (Option Function) := do
  if env.options.skips op.tags then return none
  let name ← Build.reserve (operationName op.id method.key path)
  let params ← Build.ofResolve (resolvedParameters env upgraded item op)
  let named := params.zip (Parameters.argumentNames params)
  let located (location : Location) := named.filter fun (p, _) => p.location == location
  let required ← requiredParams env named
  let body ← Build.ofResolve (op.body.mapM (env.snapshot.get RequestBody.ofNode))
  let bodyArg ← body.mapM (bodyParam env)
  let optional ← optionalMembers env named
  let url := urlExpr path (located .path) (queryExpr (located .query))
  let request := requestExpr method (bodyArg.map (·.2)) (located .header)
    (body.bind fun body => Media.bodyFormat body.content)
  let responses ← Build.ofResolve (resolvedResponses env op)
  let kind := Media.responseKind (responses.map fun (_, response) => Table.keys response.content)
  let typeArgs ←
    if kind.isTyped then do pure [.unionOf (← responseTypes env responses)] else pure []
  return some {
    name
    doc := op.doc
    params := required ++ (bodyArg.map (·.1)).toList ++ optionalParam optional ++ [optsParam]
    body := callExpr env.options.optimistic kind typeArgs url request }

end Operation

end ApiClient
