import ApiClient.Proofs.Operation.Arguments
import ApiClient.Proofs.Operation.QueryGroups

/-!
# Where the parameters of a function go

Every parameter of an operation is an argument of the function: the required ones by themselves, in
front of the body, and the others as the members of one object behind it. So no argument that has to
be given follows one that can be left out. The parameters of the query are written in groups by
format and those of the header one by one, each under its own name and with its own argument.
-/

namespace ApiClient

open TypeScript

namespace Operation

/-- A call can leave the argument out. -/
def omittable (param : Param Expr) : Bool :=
  param.optional || param.fallback.isSome

/-- One argument for several parameters that may be left out. It is an object that is taken apart,
and the empty object stands in for it. -/
def BundledParam (env : Env) (entries : List (Parameter × String)) (param : Param Expr) : Prop :=
  ∃ members, List.Forall₂ (OptionalMember env) entries members ∧
    param = { pattern := .object (entries.map fun entry ↦ ⟨entry.2, entry.2, none⟩)
              type := some (.object members none)
              fallback := some (.object []) }

/-- The headers of a request: those of the options, and each parameter under its own name. -/
inductive HeadersOf (params : List (Parameter × String)) : List (Entry Expr) → Prop where
  | absent (h : params = []) : HeadersOf params []
  | present (h : params ≠ []) : HeadersOf params
      [.prop "headers" (.object
        (.spread (.and (.ident "opts") (.path "opts" "headers"))
          :: params.map fun entry ↦ .prop entry.1.name (.ident entry.2)))]

/-- A request as it is given to the fetching function. -/
def wrapped (format : Option BodyFormat) (init : Expr) : Expr :=
  format.elim init fun format ↦ .apply (.path "runtime" format.helper) [init]

namespace Parts

/-- Each parameter of the operation has its own argument, and is either required or optional. -/
structure Aligned (parts : Parts) : Prop where
  params : parts.named.map (·.1) = parts.params
  names : parts.named.map (·.2) = Parameters.argumentNames parts.params
  lossless : (parts.required ++ parts.optional).Perm parts.named

/-- The arguments of a function in their order. -/
structure Signature (env : Env) (parts : Parts) (params : List (Param Expr)) : Prop where
  order : ∃ ofRequired ofBody ofOptional,
    params = ofRequired ++ ofBody ++ ofOptional ++ [optsParam] ∧
      List.Forall₂ (RequiredParam env) parts.required ofRequired ∧
      List.Forall₂ (BodyParam env) parts.body.toList ofBody ∧
      List.Forall₂ (BundledParam env) (if parts.optional = [] then [] else [parts.optional])
        ofOptional
  omittable : params.Pairwise fun p q ↦ omittable p → omittable q

/-- The query and the headers of a call. -/
structure Requests (parts : Parts) (path : String) (body : Expr) : Prop where
  call : ∃ optimistic kind typeArgs query format entries headers,
    body = callExpr optimistic kind typeArgs (urlExpr path (parts.located .path) query)
        (wrapped format (.object (entries ++ headers))) ∧
      (query.isSome ↔ ∃ p ∈ parts.params, p.location = .query) ∧
      (∀ e ∈ query, ∃ groups, e = queryCall groups ∧ GroupsOf (parts.located .query) groups) ∧
      (∀ value, Entry.prop "headers" value ∉ entries) ∧
      HeadersOf (parts.located .header) headers

variable {parts : Parts}

theorem aligned (parts : Parts) : parts.Aligned where
  params := List.map_fst_zip (Nat.le_of_eq (length_argumentNames _).symm)
  names := args_named parts
  lossless := List.filter_append_perm _ parts.named

/-- The parameters of a location are those of the operation that have it, in their order. -/
theorem map_located (parts : Parts) (location : Location) :
    (parts.located location).map (·.1) = parts.params.filter (·.location == location) := by
  rw [← parts.aligned.params, List.filter_map]
  rfl

theorem located_ne_nil_iff {location : Location} :
    parts.located location ≠ [] ↔ ∃ p ∈ parts.params, p.location = location := by
  have hmap : parts.located location = [] ↔ (parts.located location).map (·.1) = [] :=
    List.map_eq_nil_iff.symm
  rw [ne_eq, hmap, map_located, List.filter_eq_nil_iff]
  simp

end Parts

section

variable {env : Env}

theorem bundled_of_optional {entries : List (Parameter × String)} {members : List (Member Ty)}
    (h : List.Forall₂ (OptionalMember env) entries members) :
    List.Forall₂ (BundledParam env) (if entries = [] then [] else [entries])
      (optionalParam members) := by
  have hnames : members.map (fun m ↦ (⟨m.name, m.name, none⟩ : Binding Expr)) =
      entries.map fun entry ↦ ⟨entry.2, entry.2, none⟩ := by
    have hmap := congrArg (List.map fun x ↦ (⟨x, x, none⟩ : Binding Expr)) (names_of_forall₂ h)
    rwa [List.map_map, List.map_map] at hmap
  cases hmembers : members with
  | nil =>
    rw [hmembers] at h
    cases h
    exact .nil
  | cons m ms =>
    have hne : entries ≠ [] := by
      rintro rfl
      rw [hmembers] at h
      cases h
    rw [← hmembers, if_neg hne, optionalParam, if_neg (by simp [hmembers]), hnames]
    exact .cons ⟨members, h, rfl⟩ .nil

theorem forall_mem_of_forall₂ {α β : Type} {R : α → β → Prop} {P : β → Prop} {xs : List α}
    {ys : List β} (h : List.Forall₂ R xs ys) (hR : ∀ x y, R x y → P y) : ∀ y ∈ ys, P y := by
  induction h with
  | nil => exact List.forall_mem_nil P
  | cons hhead _ ih => exact List.forall_mem_cons.2 ⟨hR _ _ hhead, ih⟩

theorem not_omittable_of_required {entries : List (Parameter × String)} {ps : List (Param Expr)}
    (h : List.Forall₂ (RequiredParam env) entries ps) : ∀ p ∈ ps, ¬omittable p := by
  refine forall_mem_of_forall₂ h fun entry p hp ↦ ?_
  obtain ⟨t, -, rfl⟩ := hp
  exact Bool.false_ne_true

theorem omittable_of_bundled {entries : List (List (Parameter × String))} {ps : List (Param Expr)}
    (h : List.Forall₂ (BundledParam env) entries ps) : ∀ p ∈ ps, omittable p := by
  refine forall_mem_of_forall₂ h fun entries p hp ↦ ?_
  obtain ⟨members, -, rfl⟩ := hp
  rfl

end

/-- Arguments that cannot be left out, at most one of any kind, and arguments that can. -/
theorem pairwise_omittable {must may : List (Param Expr)} {between : List (Param Expr)}
    (hmust : ∀ p ∈ must, ¬omittable p) (hbetween : between.length ≤ 1)
    (hmay : ∀ p ∈ may, omittable p) :
    (must ++ between ++ may).Pairwise fun p q ↦ omittable p → omittable q := by
  rw [List.pairwise_append, List.pairwise_append]
  refine ⟨⟨?_, ?_, fun p hp q _ h ↦ absurd h (hmust p hp)⟩, ?_, fun p _ q hq _ ↦ hmay q hq⟩
  · exact List.pairwise_of_forall_mem_list fun p hp q _ h ↦ absurd h (hmust p hp)
  · match between, hbetween with
    | [], _ => exact .nil
    | [p], _ => exact List.pairwise_singleton _ p
  · exact List.pairwise_of_forall_mem_list fun p _ q hq _ ↦ hmay q hq

/-- The entries of a request but for its headers. -/
def requestEntries (method : Method) (bodyArg : Option String) : List (Entry Expr) :=
  .spread (.ident "opts")
    :: (if method = .get then [] else [.prop "method" (.text method.verb)])
    ++ (bodyArg.map fun arg ↦ .prop "body" (.ident arg)).toList

theorem requestExpr_eq (method : Method) (bodyArg : Option String)
    (headers : List (Parameter × String)) (format : Option BodyFormat) :
    requestExpr method bodyArg headers format =
      wrapped format (.object (requestEntries method bodyArg ++ headersEntry headers)) := by
  cases format <;> rfl

theorem not_headers_mem_requestEntries (method : Method) (bodyArg : Option String) (value : Expr) :
    Entry.prop "headers" value ∉ requestEntries method bodyArg := by
  cases bodyArg <;> by_cases hget : method = .get <;> simp [requestEntries, hget]

theorem headersOf_headersEntry (params : List (Parameter × String)) :
    HeadersOf params (headersEntry params) := by
  cases params with
  | nil => exact .absent rfl
  | cons entry params => exact .present (List.cons_ne_nil _ _)

namespace Composition

variable {env : Env} {path : String} {method : Method} {parts : Parts}
  {ofRequired ofBody : List (Param Expr)} {ofOptional : List (Member Ty)} {f : Function}

theorem signature (h : Composition env path method parts ofRequired ofBody ofOptional f) :
    parts.Signature env f.params := by
  have hbundled := bundled_of_optional h.optional
  refine ⟨⟨_, _, _, h.params, h.required, h.bodyParam, hbundled⟩, ?_⟩
  have hbody : ofBody.length ≤ 1 := by
    rw [← h.bodyParam.length_eq]
    exact Option.length_toList_le
  rw [h.params, List.append_assoc]
  refine pairwise_omittable (not_omittable_of_required h.required) hbody ?_
  rw [List.forall_mem_append]
  exact ⟨omittable_of_bundled hbundled, by simp [optsParam, omittable]⟩

theorem requests (h : Composition env path method parts ofRequired ofBody ofOptional f) :
    parts.Requests path f.body := by
  obtain ⟨kind, typeArgs, hbody⟩ := h.body
  rw [Parts.url, Parts.request, requestExpr_eq] at hbody
  refine ⟨_, kind, typeArgs, _, _, _, _, hbody, ?_, fun e he ↦ ?_,
    not_headers_mem_requestEntries method _, headersOf_headersEntry _⟩
  · rw [← Parts.located_ne_nil_iff, ne_eq, ← queryExpr_eq_none_iff, Option.isSome_iff_ne_none]
  · exact ⟨_, queryExpr_eq_some he, groupsOf_queryGroups _⟩

end Composition

variable {env : Env} {upgraded : Bool} {path : String} {item : PathItem} {method : Method}
  {op : Operation} {f : Function} {ctx ctx' : Context}

/-- A function takes each parameter of its operation as an argument, the required ones first, and
gives those of the query and of the header to the call, each once and with its own argument. -/
theorem parameters_partitioned
    (h : (op.synthesize env upgraded path item method).outcome ctx = (.ok (some f), ctx')) :
    ∃ parts, op.Resolves env upgraded item parts ∧ parts.Aligned ∧
      parts.Signature env f.params ∧ parts.Requests path f.body := by
  obtain ⟨-, parts, _, _, _, hparts, hf⟩ := composition_of_compose (synthesize_eq_some.1 h).2
  exact ⟨parts, hparts, parts.aligned, hf.signature, hf.requests⟩

end Operation

namespace Search

def limit : Parameter where
  name := "limit"
  location := .query
  required := true

def filter : Parameter where
  name := "filter"
  location := .query
  style := some "deepObject"
  explode := some true

def trace : Parameter where
  name := "X-Trace"
  location := .header

def operation : Operation where
  parameters := [.inline trace, .inline filter, .inline limit]

def env : Env where
  snapshot := { root := .obj [("paths", .obj [("/search", .obj [])])] }
  discriminating := []
  options := {}

theorem argumentNames : Parameters.argumentNames [trace, filter, limit] =
    ["xTrace", "filter", "limit"] := by
  decide +kernel

theorem named : Operation.Parts.named ⟨[trace, filter, limit], none⟩ =
    [(trace, "xTrace"), (filter, "filter"), (limit, "limit")] := by
  rw [Operation.Parts.named, argumentNames]
  rfl

theorem resolves : operation.Resolves env false {} ⟨[trace, filter, limit], none⟩ :=
  ⟨rfl, rfl⟩

theorem outcome_synthesize : ∃ f ctx,
    (operation.synthesize env false "/search" {} .get).outcome {} = (.ok (some f), ctx) := by
  refine Operation.synthesize_of_types rfl resolves rfl fun p hp ctx ↦ ⟨.any, ?_⟩
  simp only [List.mem_cons, List.not_mem_nil, or_false] at hp
  rcases hp with rfl | rfl | rfl <;> rfl

end Search

/-- Of three parameters the last one is required and comes first, and two belong to the query. -/
theorem search_partitioned : ∃ (f : Function) (ctx : Context) (parts : Operation.Parts),
    (Search.operation.synthesize Search.env false "/search" {} .get).outcome {} =
        (.ok (some f), ctx) ∧
      parts.params = [Search.trace, Search.filter, Search.limit] ∧
      parts.Signature Search.env f.params ∧ parts.Requests "/search" f.body ∧
      parts.required = [(Search.limit, "limit")] ∧
      parts.located .query = [(Search.filter, "filter"), (Search.limit, "limit")] := by
  obtain ⟨f, ctx, hout⟩ := Search.outcome_synthesize
  obtain ⟨parts, hparts, -, hsignature, hrequests⟩ := Operation.parameters_partitioned hout
  obtain rfl := hparts.eq Search.resolves
  refine ⟨f, ctx, _, hout, rfl, hsignature, hrequests, ?_, ?_⟩
  · rw [Operation.Parts.required, Search.named]
    rfl
  · rw [Operation.Parts.located, Search.named]
    rfl

end ApiClient
