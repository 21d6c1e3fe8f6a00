import ApiClient.Operation.Parameters
import ApiClient.TypeScript.Expr

/-!
# Query strings

The parameters of a query are written by a few helpers, each of which takes the parameters that it
can write.
-/

namespace ApiClient

open TypeScript

inductive QueryFormat where
  | form
  | deep
  | explode
  | space
  | pipe
  | json
deriving DecidableEq, Repr

namespace QueryFormat

def helper : QueryFormat → String
  | .form => "form"
  | .deep => "deep"
  | .explode => "explode"
  | .space => "space"
  | .pipe => "pipe"
  | .json => "json"

def of (p : Parameter) : QueryFormat :=
  if p.hasContent then .json
  else if p.explode.getD false then
    if p.style = some "deepObject" then .deep else .explode
  else if p.style = some "spaceDelimited" then .space
  else if p.style = some "pipeDelimited" then .pipe
  else .form

end QueryFormat

/-- Adds an entry to the group of a format, which is opened at the end if it does not exist. -/
def addToGroup {α : Type} (format : QueryFormat) (entry : α) :
    List (QueryFormat × List α) → List (QueryFormat × List α)
  | [] => [(format, [entry])]
  | (f, entries) :: rest =>
    if f = format then (f, entries ++ [entry]) :: rest
    else (f, entries) :: addToGroup format entry rest

/-- Entries in groups by format, in the order in which the formats first occur. -/
def groupByFormat {α : Type} (entries : List (QueryFormat × α)) : List (QueryFormat × List α) :=
  entries.foldl (fun groups (format, entry) => addToGroup format entry groups) []

/-- The expression for a query string, if there are parameters for one. -/
def queryExpr (params : List (Parameter × String)) : Option Expr :=
  if params.isEmpty then none else
  let groups := groupByFormat
    (params.map fun (p, arg) => (QueryFormat.of p, Entry.prop p.name (.ident arg)))
  some <| .apply (.path "QS" "query") <| groups.map fun (format, entries) =>
    .apply (.path "QS" format.helper) [.object entries]

end ApiClient
