import ApiClient.Proofs.Compile.Invariants
import ApiClient.Proofs.Operation.Assembly
import ApiClient.Proofs.Operation.Functions

/-!
# Invariants of making functions

Composing the function for an operation compiles the schemas of its parameters, of its body and of
its responses, and does nothing else that a context shows. So it preserves what compiling these
schemas preserves.
-/

namespace ApiClient

open TypeScript

/-- The schema that the type of a parameter is made from. -/
def Parameter.node (p : Parameter) : Option (RefOr Schema) :=
  if p.hasContent then some (Media.schemaOf p.content) else p.schema

namespace Operation

/-- The schemas that are compiled for an operation have some property. -/
structure Compiles (env : Env) (upgraded : Bool) (item : PathItem) (op : Operation)
    (H : RefOr Schema → Prop) : Prop where
  params : ∀ params, resolvedParameters env upgraded item op = .ok params →
    ∀ p ∈ params, ∀ c ∈ p.node, H c
  body : ∀ body, op.body.mapM (env.snapshot.get RequestBody.ofNode) = .ok body →
    ∀ b ∈ body, H (Media.schemaOf b.content)
  responses : ∀ responses, resolvedResponses env op = .ok responses →
    ∀ entry ∈ responses, H (Media.schemaOf entry.2.content)

/-- The schemas that the types of an operation are made from. -/
inductive Needs (env : Env) (upgraded : Bool) (item : PathItem) (op : Operation) :
    RefOr Schema → Prop where
  | param {params : List Parameter} {p : Parameter} {c : RefOr Schema}
      (h : resolvedParameters env upgraded item op = .ok params) (hp : p ∈ params)
      (hc : c ∈ p.node) : Needs env upgraded item op c
  | body {body : Option RequestBody} {b : RequestBody}
      (h : op.body.mapM (env.snapshot.get RequestBody.ofNode) = .ok body) (hb : b ∈ body) :
      Needs env upgraded item op (Media.schemaOf b.content)
  | response {responses : List (String × Response)} {entry : String × Response}
      (h : resolvedResponses env op = .ok responses) (hentry : entry ∈ responses) :
      Needs env upgraded item op (Media.schemaOf entry.2.content)

theorem compiles_iff {env : Env} {upgraded : Bool} {item : PathItem} {op : Operation}
    {H : RefOr Schema → Prop} : op.Compiles env upgraded item H ↔
      ∀ c, op.Needs env upgraded item c → H c := by
  constructor
  · rintro ⟨hparams, hbody, hresponses⟩ c (⟨h, hp, hc⟩ | ⟨h, hb⟩ | ⟨h, hentry⟩)
    · exact hparams _ h _ hp c hc
    · exact hbody _ h _ hb
    · exact hresponses _ h _ hentry
  · intro h
    exact ⟨fun _ hparams p hp c hc ↦ h c (.param hparams hp hc),
      fun _ hbody b hb ↦ h _ (.body hbody hb),
      fun _ hresponses entry hentry ↦ h _ (.response hresponses hentry)⟩

/-- Compiling schemas of some kind preserves what holds of contexts. -/
def SchemasPreserve (env : Env) (H : RefOr Schema → Prop) (I : Context → Prop) : Prop :=
  ∀ node mode, (∀ c ∈ node, H c) → (env.schemaType node none mode).Preserves I

section

variable {env : Env} {H : RefOr Schema → Prop} {I : Context → Prop}

open Build (Preserves)

theorem parameterType_eq (env : Env) (p : Parameter) :
    parameterType env p = env.schemaType p.node none .write := by
  rw [parameterType, Parameter.node]
  split <;> rfl

theorem preserves_parameterType (h : SchemasPreserve env H I) {p : Parameter}
    (hp : ∀ c ∈ p.node, H c) : (parameterType env p).Preserves I :=
  parameterType_eq env p ▸ h _ _ hp

theorem preserves_requiredParams (h : SchemasPreserve env H I) {named : List (Parameter × String)}
    (hnamed : ∀ entry ∈ named, ∀ c ∈ entry.1.node, H c) :
    (requiredParams env named).Preserves I := by
  induction named with
  | nil => exact .pure _
  | cons entry rest ih =>
    obtain ⟨p, arg⟩ := entry
    have hrest := ih fun e he ↦ hnamed e (List.mem_cons_of_mem _ he)
    rw [requiredParams]
    split
    · refine .bind (preserves_parameterType h (hnamed _ List.mem_cons_self)) fun t ↦ ?_
      exact .bind hrest fun others ↦ .pure _
    · exact hrest

theorem preserves_optionalMembers (h : SchemasPreserve env H I)
    {named : List (Parameter × String)} (hnamed : ∀ entry ∈ named, ∀ c ∈ entry.1.node, H c) :
    (optionalMembers env named).Preserves I := by
  induction named with
  | nil => exact .pure _
  | cons entry rest ih =>
    obtain ⟨p, arg⟩ := entry
    have hrest := ih fun e he ↦ hnamed e (List.mem_cons_of_mem _ he)
    rw [optionalMembers]
    split
    · exact hrest
    · refine .bind (preserves_parameterType h (hnamed _ List.mem_cons_self)) fun t ↦ ?_
      exact .bind hrest fun others ↦ .pure _

theorem preserves_bodyParam (h : SchemasPreserve env H I) {body : Option RequestBody}
    (hbody : ∀ b ∈ body, H (Media.schemaOf b.content)) :
    (body.mapM (bodyParam env)).Preserves I := by
  cases body with
  | none => exact .pure _
  | some b =>
    rw [Option.mapM_some]
    refine .bind (.bind (h _ _ ?_) fun t ↦ .pure _) fun arg ↦ .pure _
    rintro c ⟨⟩
    exact hbody b rfl

theorem preserves_responseTypes (h : SchemasPreserve env H I) {responses : List (String × Response)}
    (hresponses : ∀ entry ∈ responses, H (Media.schemaOf entry.2.content)) :
    (responseTypes env responses).Preserves I := by
  induction responses with
  | nil => exact .pure _
  | cons entry rest ih =>
    obtain ⟨code, response⟩ := entry
    have hdata : (responseData env response).Preserves I := by
      unfold responseData
      split
      · refine .bind (h _ _ ?_) fun t ↦ .pure _
        rintro c ⟨⟩
        exact hresponses _ List.mem_cons_self
      · exact .pure _
    rw [responseTypes_cons]
    refine .bind hdata fun data ↦ ?_
    exact .bind (ih fun e he ↦ hresponses e (List.mem_cons_of_mem _ he)) fun others ↦ .pure _

theorem preserves_typeArguments (h : SchemasPreserve env H I) {responses : List (String × Response)}
    (hresponses : ∀ entry ∈ responses, H (Media.schemaOf entry.2.content)) :
    (typeArguments env responses).Preserves I := by
  unfold typeArguments
  split
  · exact .bind (preserves_responseTypes h hresponses) fun ts ↦ .pure _
  · exact .pure _

theorem preserves_compose (h : SchemasPreserve env H I) {upgraded : Bool} {item : PathItem}
    {op : Operation} (hop : op.Compiles env upgraded item H) (path : String) (method : Method)
    (name : String) : (op.compose env upgraded path item method name).Preserves I := by
  refine .ofResolve_bind fun params hparams ↦ ?_
  have hnamed : ∀ entry ∈ params.zip (Parameters.argumentNames params),
      ∀ c ∈ entry.1.node, H c :=
    fun entry hentry ↦ hop.params params hparams entry.1 (List.of_mem_zip hentry).1
  refine .bind (preserves_requiredParams h hnamed) fun required ↦ ?_
  refine .ofResolve_bind fun body hbody ↦ ?_
  refine .bind (preserves_bodyParam h (hop.body body hbody)) fun bodyArg ↦ ?_
  refine .bind (preserves_optionalMembers h hnamed) fun optional ↦ ?_
  refine .ofResolve_bind fun responses hresponses ↦ ?_
  exact .bind (preserves_typeArguments h (hop.responses responses hresponses)) fun _ ↦ .pure _

theorem preserves_synthesize (h : SchemasPreserve env H I)
    (hreserve : ∀ wanted, (Build.reserve wanted).Preserves I) {upgraded : Bool} {item : PathItem}
    {op : Operation} (hop : op.Compiles env upgraded item H) (path : String) (method : Method) :
    (op.synthesize env upgraded path item method).Preserves I := by
  rw [synthesize_eq]
  split
  · exact .pure _
  · refine .bind (hreserve _) fun name ↦ ?_
    exact .bind (preserves_compose h hop path method name) fun f ↦ .pure _

end

end Operation

section

variable {env : Env} {H : RefOr Schema → Prop} {I : Context → Prop} {upgraded : Bool}
  {endpoints : List Endpoint} {fs : List Function} {ctx ctx' : Context}

theorem preserves_functions (h : Operation.SchemasPreserve env H I)
    (hreserve : ∀ wanted, (Build.reserve wanted).Preserves I)
    (hops : ∀ e ∈ endpoints, e.operation.Compiles env upgraded e.item H) :
    (functions env upgraded endpoints).Preserves I := by
  induction endpoints with
  | nil => exact .pure _
  | cons e rest ih =>
    have hop := hops e List.mem_cons_self
    refine .bind (Operation.preserves_synthesize h hreserve hop e.path e.method) fun f ↦ ?_
    exact .bind (ih fun e he ↦ hops e (List.mem_cons_of_mem _ he)) fun others ↦ .pure _

theorem compiles_trivial (env : Env) (upgraded : Bool) (item : PathItem) (op : Operation) :
    op.Compiles env upgraded item fun _ ↦ True := by
  constructor <;> intros <;> trivial

/-- Composing a function reserves no name. -/
theorem functionNames_of_compose {path : String} {item : PathItem} {method : Method}
    {op : Operation} {name : String} {f : Function}
    (h : (op.compose env upgraded path item method name).outcome ctx = (.ok f, ctx')) :
    ctx'.functionNames = ctx.functionNames := by
  have hlasts : Lasts (fun _ ↦ True) (fun _ _ ↦ True)
      fun c : Context ↦ c.functionNames = ctx.functionNames :=
    ⟨fun _ _ hnames _ _ hctx ↦ hnames.trans hctx, fun _ _ _ _ _ _ _ ↦ id,
      fun _ _ _ _ _ _ _ _ _ _ _ ↦ id⟩
  have hschemas : Operation.SchemasPreserve env (fun _ ↦ True) fun c : Context ↦
      c.functionNames = ctx.functionNames :=
    fun node mode _ ↦ hlasts.schemaType inherited_trivial (leads_trivial env) (by simp) mode
  exact Operation.preserves_compose hschemas (compiles_trivial env upgraded item op) path method
    name ctx f ctx' rfl h

/-- The operations that get functions. -/
def Env.operations (env : Env) (endpoints : List Endpoint) : List Endpoint :=
  endpoints.filter fun e ↦ !env.options.skips e.operation.tags

def Endpoint.wantedName (e : Endpoint) : String :=
  operationName e.operation.id e.method.key e.path

/-- The functions get the names that their operations reserve, one after the other. -/
theorem names_of_functions (h : (functions env upgraded endpoints).outcome ctx = (.ok fs, ctx')) :
    fs.map Function.name = (Names.giveAll Names.reserve
      ((env.operations endpoints).map Endpoint.wantedName) ctx.functionNames).1 := by
  induction endpoints generalizing ctx fs with
  | nil =>
    cases h
    rfl
  | cons e rest ih =>
    obtain ⟨f?, ctx₁, hf, h⟩ := Build.outcome_bind_eq_ok.1 h
    obtain ⟨others, ctx₂, hothers, h⟩ := Build.outcome_bind_eq_ok.1 h
    cases h
    have ih := ih hothers
    cases f? with
    | none =>
      obtain ⟨hskips, rfl⟩ := Operation.skips_of_synthesize_eq_none hf
      rw [Env.operations, List.filter_cons_of_neg (by simp [hskips])]
      exact ih
    | some f =>
      obtain ⟨hskips, hcompose⟩ := Operation.synthesize_eq_some.1 hf
      obtain ⟨hname, -⟩ := Operation.assembled_of_compose hcompose
      rw [functionNames_of_compose hcompose] at ih
      rw [Env.operations, List.filter_cons_of_pos (by simp [hskips]), List.map_cons,
        Names.giveAll_cons]
      exact congrArg₂ List.cons hname ih

/-- A function is that of an operation. -/
theorem synthesize_of_mem_functions
    (h : (functions env upgraded endpoints).outcome ctx = (.ok fs, ctx')) {f : Function}
    (hf : f ∈ fs) : ∃ e ∈ env.operations endpoints, ∃ ctx₁ ctx₂,
      (e.operation.synthesize env upgraded e.path e.item e.method).outcome ctx₁ =
        (.ok (some f), ctx₂) := by
  induction endpoints generalizing ctx fs with
  | nil =>
    cases h
    simp at hf
  | cons e rest ih =>
    obtain ⟨f?, ctx₁, hf?, h⟩ := Build.outcome_bind_eq_ok.1 h
    obtain ⟨others, ctx₂, hothers, h⟩ := Build.outcome_bind_eq_ok.1 h
    cases h
    rcases List.mem_append.1 hf with hf | hf
    · obtain rfl := Option.mem_toList.1 hf
      obtain ⟨hskips, -⟩ := Operation.synthesize_eq_some.1 hf?
      have hmem : e ∈ env.operations (e :: rest) :=
        List.mem_filter.2 ⟨List.mem_cons_self, by simp [hskips]⟩
      exact ⟨e, hmem, ctx, ctx₁, hf?⟩
    · obtain ⟨e', he', hout⟩ := ih hothers hf
      obtain ⟨hmem, hskips⟩ := List.mem_filter.1 he'
      exact ⟨e', List.mem_filter.2 ⟨List.mem_cons_of_mem _ hmem, hskips⟩, hout⟩

end

theorem declarations_eq_ok {prepared : Prepared} {settings : Settings} {ds : List Declaration} :
    declarations prepared settings = .ok ds ↔ ∃ fs ctx,
      (functions (prepared.env settings.options) settings.upgraded
        prepared.spec.endpoints).outcome {} = (.ok fs, ctx) ∧
      ds = ctx.typeDeclarations ++ fs.map .function ++ ctx.enumDeclarations := by
  have houtcome : declarations prepared settings =
      match (functions (prepared.env settings.options) settings.upgraded
        prepared.spec.endpoints).outcome {} with
      | (.ok fs, ctx) => .ok (ctx.typeDeclarations ++ fs.map .function ++ ctx.enumDeclarations)
      | (.error e, _) => .error e := rfl
  rw [houtcome]
  rcases (functions (prepared.env settings.options) settings.upgraded
    prepared.spec.endpoints).outcome {} with ⟨e | fs, ctx⟩
  · simp
  · simp [eq_comm]

/-- The declarations of a document with one operation. -/
theorem declarations_of_endpoint {prepared : Prepared} {settings : Settings} {e : Endpoint}
    (he : prepared.spec.endpoints = [e]) {f : Function} {ctx : Context}
    (h : (e.operation.synthesize (prepared.env settings.options) settings.upgraded e.path e.item
      e.method).outcome {} = (.ok (some f), ctx)) :
    declarations prepared settings =
      .ok (ctx.typeDeclarations ++ [.function f] ++ ctx.enumDeclarations) := by
  refine declarations_eq_ok.2 ⟨[f], ctx, ?_, rfl⟩
  rw [he, functions, Build.outcome_bind_ok h]
  rfl

end ApiClient
