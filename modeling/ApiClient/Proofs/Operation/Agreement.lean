import ApiClient.Proofs.Compile.Agreement
import ApiClient.Proofs.Operation.Invariants
import ApiClient.Proofs.Operation.Resolved

/-!
# What the functions of operations read of a document

The function for an operation is put together from what its references lead to, and from types of
the schemas there. So documents that agree on these references give the same function, and the
same of a whole list of operations. Operations that are left out have no part in it.
-/

namespace ApiClient

open TypeScript

theorem Build.ofResolve_bind_congr {α β : Type} {x : Except ResolveError α} {f g : α → Build β}
    (h : ∀ a, x = .ok a → f a = g a) : (ofResolve x >>= f) = (ofResolve x >>= g) := by
  cases x with
  | error e => rfl
  | ok a => exact h a rfl

/-- The references in an object that stands in place or is referred to are all of some kinds. -/
def Kind.Stays (G : Kind → String → Prop) (kind : Kind) : RefOr kind.Object → Prop
  | .ref path => G kind path
  | .inline a => ∀ c ∈ kind.nodes a, c.Stays (G .schema)

/-- The references in an operation and in the parameters of its path are all of some kinds. -/
structure Operation.Stays (G : Kind → String → Prop) (item : PathItem) (op : Operation) : Prop where
  parameters : ∀ c ∈ item.parameters ++ op.parameters, Kind.parameter.Stays G c
  body : ∀ c ∈ op.body, Kind.requestBody.Stays G c
  responses : ∀ rs ∈ op.responses, ∀ e ∈ rs, Kind.response.Stays G e.2

/-! ## The schemas of an operation -/

section

variable {P : String → Prop}

theorem RefOr.stays_inline {s : Schema} : Stays P (.inline s) ↔
    (∀ d ∈ s.discriminator, ∀ path ∈ Table.values d.mapping, P path) ∧
      ∀ c, s.Part c → c.Stays P := by
  constructor
  · exact fun h ↦ ⟨fun d hd path hpath ↦ h path (.target hd hpath), fun c hc path hpath ↦
      h path (.part hc hpath)⟩
  · rintro ⟨htargets, hparts⟩ path (_ | ⟨hd, hpath⟩ | ⟨hc, hpath⟩)
    · exact htargets _ hd path hpath
    · exact hparts _ hc path hpath

theorem Media.stays_schemaOf {content : Table MediaType} (h : ∀ c ∈ nodes content, c.Stays P) :
    (schemaOf content).Stays P := by
  unfold schemaOf
  split
  next c hc =>
    obtain ⟨e, he, hc⟩ := Option.bind_eq_some_iff.1 hc
    exact h c (List.mem_flatMap.2 ⟨e, List.mem_of_find?_eq_some he, Option.mem_toList.2 hc⟩)
  next => exact RefOr.stays_inline.2 ⟨nofun, fun c hc ↦ by cases hc <;> contradiction⟩

theorem Parameter.stays_node {p : Parameter} (h : ∀ c ∈ p.nodes, c.Stays P) :
    ∀ c ∈ p.node, c.Stays P := by
  rw [nodes, List.forall_mem_append] at h
  unfold node
  split
  · rintro _ ⟨⟩
    exact Media.stays_schemaOf h.2
  · exact fun c hc ↦ h.1 c (Option.mem_toList.2 hc)

theorem Parameters.stays_schemaOrAny {p : Parameter} (h : ∀ c ∈ p.nodes, c.Stays P) :
    (schemaOrAny p).Stays P := by
  rw [Parameter.nodes, List.forall_mem_append] at h
  unfold schemaOrAny
  cases hs : p.schema with
  | some c => exact h.1 c (Option.mem_toList.2 hs)
  | none =>
    exact RefOr.stays_inline.2 ⟨by simp, fun c hc ↦ by cases hc <;> contradiction⟩

/-- An object that parameters are folded into has the references of their schemas. -/
theorem Parameters.handedOn_stays : HandedOn fun p ↦ ∀ c ∈ p.nodes, c.Stays P where
  empty p object member _ _ := by
    refine List.forall_mem_append.2 ⟨List.forall_mem_singleton.2 (RefOr.stays_inline.2 ?_), nofun⟩
    refine ⟨nofun, fun c hc ↦ ?_⟩
    cases hc with
    | property hps hc =>
      cases hps
      cases hc
    | _ => contradiction
  add p object member hp _ q hq := by
    unfold addMember
    split
    next s hs =>
      rw [Parameter.nodes, List.forall_mem_append] at hq
      obtain ⟨htargets, hparts⟩ := RefOr.stays_inline.1 (hq.1 _ (Option.mem_toList.2 hs))
      refine List.forall_mem_append.2 ⟨List.forall_mem_singleton.2 (RefOr.stays_inline.2
        ⟨htargets, fun c hc ↦ ?_⟩), hq.2⟩
      cases hc with
      | property hps hc =>
        cases hps
        rcases Table.mem_of_mem_put hc with hc | heq
        · obtain ⟨ps, hps, hc⟩ := Schema.mem_getD_nil hc
          exact hparts c (.property hps hc)
        · cases heq
          exact stays_schemaOrAny hp
      | additional h => exact hparts c (.additional h)
      | items h => exact hparts c (.items h)
      | prefixItem h hc => exact hparts c (.prefixItem h hc)
      | allOf h hc => exact hparts c (.allOf h hc)
      | oneOf h hc => exact hparts c (.oneOf h hc)
      | anyOf h hc => exact hparts c (.anyOf h hc)
    next => exact hq

end

namespace Snapshot.Agrees

variable {env : Env} {other : Snapshot} {G : Kind → String → Prop}
  (h : env.snapshot.Agrees other G) {upgraded : Bool} {item : PathItem} {op : Operation}

include h

theorem get (kind : Kind) {c : RefOr kind.Object} (hc : kind.Stays G c) :
    other.get kind.read c = env.snapshot.get kind.read c := by
  cases c with
  | ref path => exact h.resolve hc kind.read
  | inline a => rfl

theorem stays_of_get (kind : Kind) {c : RefOr kind.Object} (hc : kind.Stays G c) {a : kind.Object}
    (ha : env.snapshot.get kind.read c = .ok a) : ∀ d ∈ kind.nodes a, d.Stays (G .schema) := by
  cases c with
  | ref path => exact h.leads kind path a hc ha
  | inline b =>
    cases ha
    exact hc

/-- The schemas that are compiled for an operation refer to nothing outside the set. -/
theorem compiles (upgraded : Bool) (hop : op.Stays G item) :
    op.Compiles env upgraded item (RefOr.Stays (G .schema)) where
  params params hparams p hp := by
    refine Parameter.stays_node ?_
    exact Operation.forall_mem_resolvedParameters Parameters.handedOn_stays
      (fun c hc p hget ↦ h.stays_of_get .parameter (hop.parameters c hc) hget) hparams p hp
  body body hbody b hb := by
    obtain rfl := Option.mem_def.1 hb
    obtain ⟨c, hc, hget⟩ := Operation.exists_of_body hbody
    exact Media.stays_schemaOf (h.stays_of_get .requestBody (hop.body c hc) hget)
  responses responses hresponses entry hentry := by
    obtain ⟨rs, hrs, e, he, hget⟩ := Operation.exists_of_mem_resolvedResponses hresponses hentry
    exact Media.stays_schemaOf
      (h.stays_of_get .response (hop.responses rs hrs e he) hget)

/-! ## Functions -/

theorem resolvedParameters (hop : op.Stays G item) :
    Operation.resolvedParameters (env.over other) upgraded item op =
      Operation.resolvedParameters env upgraded item op := by
  have hget : ∀ c ∈ item.parameters ++ op.parameters,
      (env.over other).snapshot.get Parameter.ofNode c = env.snapshot.get Parameter.ofNode c :=
    fun c hc ↦ h.get .parameter (hop.parameters c hc)
  rw [List.forall_mem_append] at hget
  unfold Operation.resolvedParameters
  rw [mapM_congr hget.1, mapM_congr hget.2]

theorem resolvedBody (hop : op.Stays G item) :
    op.body.mapM ((env.over other).snapshot.get RequestBody.ofNode) =
      op.body.mapM (env.snapshot.get RequestBody.ofNode) := by
  cases hbody : op.body with
  | none => rfl
  | some c =>
    have hget : (env.over other).snapshot.get RequestBody.ofNode c =
        env.snapshot.get RequestBody.ofNode c :=
      h.get .requestBody (hop.body c hbody)
    rw [Option.mapM_some, Option.mapM_some, hget]

theorem resolvedResponses (hop : op.Stays G item) :
    Operation.resolvedResponses (env.over other) op = Operation.resolvedResponses env op := by
  refine mapM_congr fun e he ↦ ?_
  obtain ⟨rs, hrs, he⟩ := Schema.mem_getD_nil he
  have hget : (env.over other).snapshot.get Response.ofNode e.2 =
      env.snapshot.get Response.ofNode e.2 :=
    h.get .response (hop.responses rs hrs e he)
  exact congrArg (· >>= fun r ↦ pure (e.1, r)) hget

theorem parameterType {p : Parameter} (hp : ∀ c ∈ p.node, c.Stays (G .schema)) :
    Operation.parameterType (env.over other) p = Operation.parameterType env p := by
  rw [Operation.parameterType_eq, Operation.parameterType_eq, h.schemaType hp]

theorem requiredParams {named : List (Parameter × String)}
    (hnamed : ∀ entry ∈ named, ∀ c ∈ entry.1.node, c.Stays (G .schema)) :
    Operation.requiredParams (env.over other) named = Operation.requiredParams env named := by
  induction named with
  | nil => rfl
  | cons entry rest ih =>
    rw [List.forall_mem_cons] at hnamed
    rw [Operation.requiredParams, Operation.requiredParams, h.parameterType hnamed.1, ih hnamed.2]

theorem optionalMembers {named : List (Parameter × String)}
    (hnamed : ∀ entry ∈ named, ∀ c ∈ entry.1.node, c.Stays (G .schema)) :
    Operation.optionalMembers (env.over other) named = Operation.optionalMembers env named := by
  induction named with
  | nil => rfl
  | cons entry rest ih =>
    rw [List.forall_mem_cons] at hnamed
    rw [Operation.optionalMembers, Operation.optionalMembers, h.parameterType hnamed.1,
      ih hnamed.2]

theorem bodyParam {body : RequestBody} (hbody : (Media.schemaOf body.content).Stays (G .schema)) :
    Operation.bodyParam (env.over other) body = Operation.bodyParam env body := by
  unfold Operation.bodyParam
  dsimp only
  rw [h.schemaType (by rintro _ ⟨⟩; exact hbody)]

theorem responseTypes {responses : List (String × Response)}
    (hresponses : ∀ entry ∈ responses, (Media.schemaOf entry.2.content).Stays (G .schema)) :
    Operation.responseTypes (env.over other) responses = Operation.responseTypes env responses := by
  induction responses with
  | nil => rfl
  | cons entry rest ih =>
    rw [List.forall_mem_cons] at hresponses
    rw [Operation.responseTypes, Operation.responseTypes, ih hresponses.2,
      h.schemaType (by rintro _ ⟨⟩; exact hresponses.1)]

theorem compose (hop : op.Stays G item) (path : String) (method : Method) (name : String) :
    op.compose (env.over other) upgraded path item method name =
      op.compose env upgraded path item method name := by
  obtain ⟨hparams, hbody, hresponses⟩ := h.compiles upgraded hop
  unfold Operation.compose
  rw [h.resolvedParameters hop, h.resolvedBody hop, h.resolvedResponses hop, Env.over_options]
  refine Build.ofResolve_bind_congr fun params hresolved ↦ ?_
  have hnamed : ∀ entry ∈ params.zip (Parameters.argumentNames params),
      ∀ c ∈ entry.1.node, c.Stays (G .schema) :=
    fun entry hentry ↦ hparams params hresolved entry.1 (List.of_mem_zip hentry).1
  dsimp only
  rw [h.requiredParams hnamed, h.optionalMembers hnamed]
  refine bind_congr fun required ↦ Build.ofResolve_bind_congr fun body hresolved ↦ ?_
  have hbodyArg : body.mapM (Operation.bodyParam (env.over other)) =
      body.mapM (Operation.bodyParam env) := by
    cases body with
    | none => rw [Option.mapM_none, Option.mapM_none]
    | some b => rw [Option.mapM_some, Option.mapM_some, h.bodyParam (hbody _ hresolved b rfl)]
  rw [hbodyArg]
  refine bind_congr fun bodyArg ↦ bind_congr fun optional ↦ ?_
  refine Build.ofResolve_bind_congr fun responses hresolved ↦ ?_
  unfold Operation.typeArguments
  rw [h.responseTypes (hresponses responses hresolved)]

/-- Two documents that agree on all references that an operation leads to have the same function for
it, or the same error. -/
theorem synthesize (hop : op.Stays G item) (path : String) (method : Method) :
    op.synthesize (env.over other) upgraded path item method =
      op.synthesize env upgraded path item method := by
  rw [Operation.synthesize_eq, Operation.synthesize_eq]
  simp only [h.compose hop, Env.over_options]

theorem functions {endpoints : List Endpoint} (hops : ∀ e ∈ endpoints, e.operation.Stays G e.item) :
    functions (env.over other) upgraded endpoints = functions env upgraded endpoints := by
  induction endpoints with
  | nil => rfl
  | cons e rest ih =>
    rw [List.forall_mem_cons] at hops
    rw [ApiClient.functions, ApiClient.functions, h.synthesize hops.1, ih hops.2]

end Snapshot.Agrees

end ApiClient
