import ApiClient.ClientModule
import ApiClient.Proofs.Compile.Steps
import ApiClient.Proofs.TypeScript.Scopes
import Mathlib.Data.List.Forall2

/-!
# How functions are put together

The function for an operation that is not left out is put together from the parameters and the body
that the references of the operation lead to. Compiling their types decides what the function says
of its parameters, but not which names it binds, nor what its address and its request read.
-/

namespace ApiClient

open TypeScript

namespace Operation

structure Parts where
  params : List Parameter
  body : Option RequestBody

/-- These are the parts that the references of an operation lead to. -/
structure Resolves (env : Env) (upgraded : Bool) (item : PathItem) (op : Operation)
    (parts : Parts) : Prop where
  params : resolvedParameters env upgraded item op = .ok parts.params
  body : op.body.mapM (env.snapshot.get RequestBody.ofNode) = .ok parts.body

theorem Resolves.eq {env : Env} {upgraded : Bool} {item : PathItem} {op : Operation}
    {parts parts' : Parts} (h : op.Resolves env upgraded item parts)
    (h' : op.Resolves env upgraded item parts') : parts = parts' := by
  obtain ⟨params, body⟩ := parts
  obtain rfl : params = parts'.params := Except.ok.inj (h.params.symm.trans h'.params)
  obtain rfl : body = parts'.body := Except.ok.inj (h.body.symm.trans h'.body)
  rfl

namespace Parts

def named (parts : Parts) : List (Parameter × String) :=
  parts.params.zip (Parameters.argumentNames parts.params)

def located (parts : Parts) (location : Location) : List (Parameter × String) :=
  parts.named.filter fun entry ↦ entry.1.location == location

def required (parts : Parts) : List (Parameter × String) :=
  parts.named.filter fun entry ↦ entry.1.required

def optional (parts : Parts) : List (Parameter × String) :=
  parts.named.filter fun entry ↦ !entry.1.required

def bodyArg (parts : Parts) : Option String :=
  parts.body.map fun body ↦ bodyArgument (Media.schemaOf body.content)

/-- The names that the function binds: the required parameters, the body, the optional parameters
and the options of the call. -/
def bound (parts : Parts) : List String :=
  parts.required.map (·.2) ++ parts.bodyArg.toList ++ parts.optional.map (·.2) ++ ["opts"]

def url (parts : Parts) (path : String) : Expr :=
  urlExpr path (parts.located .path) (queryExpr (parts.located .query))

def request (parts : Parts) (method : Method) : Expr :=
  requestExpr method parts.bodyArg (parts.located .header)
    (parts.body.bind fun body ↦ Media.bodyFormat body.content)

end Parts

def typeArguments (env : Env) (responses : List (String × Response)) : Build (List Ty) :=
  if (Media.responseKind (responses.map fun (_, response) ↦ Table.keys response.content)).isTyped
  then do return [.unionOf (← responseTypes env responses)]
  else pure []

/-- The function for an operation under a name that was reserved for it. -/
def compose (env : Env) (upgraded : Bool) (path : String) (item : PathItem) (method : Method)
    (op : Operation) (name : String) : Build Function := do
  let params ← Build.ofResolve (resolvedParameters env upgraded item op)
  let named := params.zip (Parameters.argumentNames params)
  let required ← requiredParams env named
  let body ← Build.ofResolve (op.body.mapM (env.snapshot.get RequestBody.ofNode))
  let bodyArg ← body.mapM (bodyParam env)
  let optional ← optionalMembers env named
  let responses ← Build.ofResolve (resolvedResponses env op)
  let typeArgs ← typeArguments env responses
  return {
    name
    doc := op.doc
    params := required ++ (bodyArg.map (·.1)).toList ++ optionalParam optional ++ [optsParam]
    body := callExpr env.options.optimistic
      (Media.responseKind (responses.map fun (_, response) ↦ Table.keys response.content)) typeArgs
      (Parts.url ⟨params, body⟩ path)
      (requestExpr method (bodyArg.map (·.2)) (Parts.located ⟨params, body⟩ .header)
        (body.bind fun body ↦ Media.bodyFormat body.content)) }

theorem synthesize_eq (env : Env) (upgraded : Bool) (path : String) (item : PathItem)
    (method : Method) (op : Operation) :
    op.synthesize env upgraded path item method =
      if env.options.skips op.tags then pure none
      else do
        let name ← Build.reserve (operationName op.id method.key path)
        return some (← op.compose env upgraded path item method name) := by
  unfold synthesize compose typeArguments
  split
  · rfl
  · simp only [pure_bind, bind_assoc]
    refine bind_congr fun name ↦ bind_congr fun params ↦ bind_congr fun required ↦ ?_
    refine bind_congr fun body ↦ bind_congr fun bodyArg ↦ bind_congr fun optional ↦ ?_
    refine bind_congr fun responses ↦ ?_
    split
    · rw [bind_assoc]
      rfl
    · rfl

section

variable {env : Env} {ctx ctx' : Context}

/-- The type is compiled for a parameter. -/
def TypeOf (env : Env) (p : Parameter) (t : Ty) : Prop :=
  ∃ ctx ctx', (parameterType env p).outcome ctx = (.ok t, ctx')

/-- The argument for a required parameter. -/
def RequiredParam (env : Env) (entry : Parameter × String) (param : Param Expr) : Prop :=
  ∃ t, TypeOf env entry.1 t ∧ param = { pattern := .name entry.2, type := some t }

/-- The member for a parameter that may be left out. -/
def OptionalMember (env : Env) (entry : Parameter × String) (member : Member Ty) : Prop :=
  ∃ t, TypeOf env entry.1 t ∧ member = ⟨entry.2, t, true⟩

/-- The argument for a body. -/
def BodyParam (env : Env) (body : RequestBody) (param : Param Expr) : Prop :=
  ∃ t ctx ctx', (env.schemaType (some (Media.schemaOf body.content)) none .write).outcome ctx =
      (.ok t, ctx') ∧
    param = { pattern := .name (bodyArgument (Media.schemaOf body.content)), type := some t,
              optional := !body.required }

theorem params_of_requiredParams {named : List (Parameter × String)} {ps : List (Param Expr)}
    (h : (requiredParams env named).outcome ctx = (.ok ps, ctx')) :
    List.Forall₂ (RequiredParam env) (named.filter fun entry ↦ entry.1.required) ps := by
  induction named generalizing ctx ps with
  | nil =>
    cases h
    exact .nil
  | cons entry rest ih =>
    obtain ⟨p, arg⟩ := entry
    rw [requiredParams] at h
    by_cases hp : p.required = true
    · rw [if_pos hp] at h
      obtain ⟨t, ctx₁, ht, h⟩ := Build.outcome_bind_eq_ok.1 h
      obtain ⟨others, ctx₂, hothers, h⟩ := Build.outcome_bind_eq_ok.1 h
      cases h
      rw [List.filter_cons, if_pos hp]
      exact .cons ⟨t, ⟨_, _, ht⟩, rfl⟩ (ih hothers)
    · rw [if_neg hp] at h
      rw [List.filter_cons, if_neg hp]
      exact ih h

theorem members_of_optionalMembers {named : List (Parameter × String)} {ms : List (Member Ty)}
    (h : (optionalMembers env named).outcome ctx = (.ok ms, ctx')) :
    List.Forall₂ (OptionalMember env) (named.filter fun entry ↦ !entry.1.required) ms := by
  induction named generalizing ctx ms with
  | nil =>
    cases h
    exact .nil
  | cons entry rest ih =>
    obtain ⟨p, arg⟩ := entry
    rw [optionalMembers] at h
    by_cases hp : p.required = true
    · rw [if_pos hp] at h
      rw [List.filter_cons_of_neg (by simp [hp])]
      exact ih h
    · rw [if_neg hp] at h
      obtain ⟨t, ctx₁, ht, h⟩ := Build.outcome_bind_eq_ok.1 h
      obtain ⟨others, ctx₂, hothers, h⟩ := Build.outcome_bind_eq_ok.1 h
      cases h
      rw [List.filter_cons_of_pos (by simp [hp])]
      exact .cons ⟨t, ⟨_, _, ht⟩, rfl⟩ (ih hothers)

theorem boundNames_of_forall₂ {entries : List (Parameter × String)} {ps : List (Param Expr)}
    (h : List.Forall₂ (RequiredParam env) entries ps) : boundNames ps = entries.map (·.2) := by
  induction h with
  | nil => rfl
  | cons hp _ ih =>
    obtain ⟨t, -, rfl⟩ := hp
    rw [List.map_cons, ← ih]
    rfl

theorem names_of_forall₂ {entries : List (Parameter × String)} {ms : List (Member Ty)}
    (h : List.Forall₂ (OptionalMember env) entries ms) :
    ms.map Member.name = entries.map (·.2) := by
  induction h with
  | nil => rfl
  | cons hm _ ih =>
    obtain ⟨t, -, rfl⟩ := hm
    rw [List.map_cons, List.map_cons, ih]

theorem boundNames_optionalParam (members : List (Member Ty)) :
    boundNames (optionalParam members) = members.map Member.name := by
  cases members with
  | nil => rfl
  | cons m ms => simp [optionalParam, boundNames, Pattern.names, Function.comp_def]

theorem param_of_bodyParam {body : Option RequestBody} {bodyArg : Option (Param Expr × String)}
    (h : (body.mapM (bodyParam env)).outcome ctx = (.ok bodyArg, ctx')) :
    bodyArg.map (·.2) = body.map (fun body ↦ bodyArgument (Media.schemaOf body.content)) ∧
      List.Forall₂ (BodyParam env) body.toList (bodyArg.map (·.1)).toList := by
  cases body with
  | none =>
    cases h
    exact ⟨rfl, .nil⟩
  | some body =>
    rw [Option.mapM_some] at h
    obtain ⟨arg, ctx₁, harg, h⟩ := Build.outcome_bind_eq_ok.1 h
    cases h
    obtain ⟨t, ctx₂, ht, harg⟩ := Build.outcome_bind_eq_ok.1 harg
    cases harg
    have hparam : BodyParam env body { pattern := .name (bodyArgument (Media.schemaOf body.content))
                                       type := some t
                                       optional := !body.required } :=
      ⟨t, _, _, ht, rfl⟩
    simp only [Option.map_some, Option.toList_some, List.forall₂_cons, hparam, true_and]
    exact .nil

theorem boundNames_of_body {body : Option RequestBody} {ps : List (Param Expr)}
    (h : List.Forall₂ (BodyParam env) body.toList ps) : boundNames ps =
      (body.map fun body ↦ bodyArgument (Media.schemaOf body.content)).toList := by
  cases body with
  | none =>
    cases h
    rfl
  | some body =>
    obtain ⟨p, rest, ⟨t, _, _, -, rfl⟩, hrest, rfl⟩ := List.forall₂_cons_left_iff.1 h
    cases hrest
    rfl

end

/-- A function that is put together from the parts of an operation. -/
structure Assembled (env : Env) (path : String) (method : Method) (parts : Parts) (f : Function) :
    Prop where
  bound : f.bound = parts.bound
  body : ∃ kind typeArgs, f.body =
    callExpr env.options.optimistic kind typeArgs (parts.url path) (parts.request method)

variable {env : Env} {upgraded : Bool} {path : String} {item : PathItem} {method : Method}
  {op : Operation} {name : String} {f : Function} {ctx ctx' : Context}

/-- What a composed function takes and calls. -/
structure Composition (env : Env) (path : String) (method : Method) (parts : Parts)
    (ofRequired ofBody : List (Param Expr)) (ofOptional : List (Member Ty)) (f : Function) :
    Prop where
  required : List.Forall₂ (RequiredParam env) parts.required ofRequired
  bodyParam : List.Forall₂ (BodyParam env) parts.body.toList ofBody
  optional : List.Forall₂ (OptionalMember env) parts.optional ofOptional
  params : f.params = ofRequired ++ ofBody ++ optionalParam ofOptional ++ [optsParam]
  body : ∃ kind typeArgs, f.body =
    callExpr env.options.optimistic kind typeArgs (parts.url path) (parts.request method)

theorem composition_of_compose
    (h : (op.compose env upgraded path item method name).outcome ctx = (.ok f, ctx')) :
    f.name = name ∧ ∃ parts required body optional, op.Resolves env upgraded item parts ∧
      Composition env path method parts required body optional f := by
  obtain ⟨params, ctx₁, hparams, h⟩ := Build.outcome_bind_eq_ok.1 h
  obtain ⟨required, ctx₂, hrequired, h⟩ := Build.outcome_bind_eq_ok.1 h
  obtain ⟨body, ctx₃, hbody, h⟩ := Build.outcome_bind_eq_ok.1 h
  obtain ⟨bodyArg, ctx₄, harg, h⟩ := Build.outcome_bind_eq_ok.1 h
  obtain ⟨optional, ctx₅, hoptional, h⟩ := Build.outcome_bind_eq_ok.1 h
  obtain ⟨responses, ctx₆, -, h⟩ := Build.outcome_bind_eq_ok.1 h
  obtain ⟨typeArgs, ctx₇, -, h⟩ := Build.outcome_bind_eq_ok.1 h
  cases h
  obtain ⟨hparams, -⟩ := Build.ok_of_outcome_ofResolve hparams
  obtain ⟨hbody, -⟩ := Build.ok_of_outcome_ofResolve hbody
  obtain ⟨hname, hparam⟩ := param_of_bodyParam harg
  refine ⟨rfl, ⟨params, body⟩, required, _, optional, ⟨hparams, hbody⟩,
    params_of_requiredParams hrequired, hparam, members_of_optionalMembers hoptional, rfl, ?_⟩
  rw [hname]
  exact ⟨_, typeArgs, rfl⟩

theorem Composition.assembled {parts : Parts} {required body : List (Param Expr)}
    {optional : List (Member Ty)}
    (h : Composition env path method parts required body optional f) :
    Assembled env path method parts f := by
  refine ⟨?_, h.body⟩
  have hopts : boundNames [optsParam] = ["opts"] := rfl
  rw [Function.bound, h.params, boundNames_append, boundNames_append, boundNames_append,
    boundNames_of_forall₂ h.required, boundNames_optionalParam, names_of_forall₂ h.optional,
    boundNames_of_body h.bodyParam, hopts]
  rfl

theorem assembled_of_compose
    (h : (op.compose env upgraded path item method name).outcome ctx = (.ok f, ctx')) :
    f.name = name ∧
      ∃ parts, op.Resolves env upgraded item parts ∧ Assembled env path method parts f := by
  obtain ⟨hname, parts, required, body, optional, hparts, hf⟩ := composition_of_compose h
  exact ⟨hname, parts, hparts, hf.assembled⟩

theorem skips_of_synthesize_eq_none
    (h : (op.synthesize env upgraded path item method).outcome ctx = (.ok none, ctx')) :
    env.options.skips op.tags = true ∧ ctx' = ctx := by
  rw [synthesize_eq] at h
  split at h
  next hskips =>
    cases h
    exact ⟨hskips, rfl⟩
  · obtain ⟨name, ctx₁, -, h⟩ := Build.outcome_bind_eq_ok.1 h
    obtain ⟨f, ctx₂, -, h⟩ := Build.outcome_bind_eq_ok.1 h
    cases h

/-- An operation that gets a function has reserved the name that it wants, and then composed the
function. -/
theorem synthesize_eq_some :
    (op.synthesize env upgraded path item method).outcome ctx = (.ok (some f), ctx') ↔
      env.options.skips op.tags = false ∧
        (op.compose env upgraded path item method
            (Names.reserve (operationName op.id method.key path) ctx.functionNames).1).outcome
          { ctx with functionNames :=
              (Names.reserve (operationName op.id method.key path) ctx.functionNames).2 } =
          (.ok f, ctx') := by
  rw [synthesize_eq]
  constructor
  · intro h
    split at h
    · cases h
    next hskips =>
      obtain ⟨name, ctx₁, hname, h⟩ := Build.outcome_bind_eq_ok.1 h
      cases hname
      obtain ⟨f', ctx₂, hf, h⟩ := Build.outcome_bind_eq_ok.1 h
      cases h
      exact ⟨by simpa using hskips, hf⟩
  · rintro ⟨hskips, hf⟩
    rw [if_neg (by simp [hskips])]
    exact Build.outcome_bind_eq_ok.2 ⟨_, _, rfl, Build.outcome_bind_eq_ok.2 ⟨f, ctx', hf, rfl⟩⟩

/-- A function that an operation gets is put together from the parts of the operation. -/
theorem assembled_of_synthesize
    (h : (op.synthesize env upgraded path item method).outcome ctx = (.ok (some f), ctx')) :
    f.name = (Names.reserve (operationName op.id method.key path) ctx.functionNames).1 ∧
      ∃ parts, op.Resolves env upgraded item parts ∧ Assembled env path method parts f :=
  assembled_of_compose (synthesize_eq_some.1 h).2

/-- An operation without a body and without responses gets a function if the types of its parameters
can be compiled. -/
theorem synthesize_of_parts {params : List Parameter} (hskips : env.options.skips op.tags = false)
    (hparts : op.Resolves env upgraded item ⟨params, none⟩)
    (hresponses : resolvedResponses env op = .ok []) {required : List (Param Expr)}
    {optional : List (Member Ty)} {ctx₁ ctx₂ : Context}
    (hrequired : (requiredParams env (Parts.named ⟨params, none⟩)).outcome
      { ctx with functionNames :=
          (Names.reserve (operationName op.id method.key path) ctx.functionNames).2 } =
      (.ok required, ctx₁))
    (hoptional : (optionalMembers env (Parts.named ⟨params, none⟩)).outcome ctx₁ =
      (.ok optional, ctx₂)) :
    ∃ f, (op.synthesize env upgraded path item method).outcome ctx = (.ok (some f), ctx₂) := by
  have hcompose (name : String) : ∃ f, (op.compose env upgraded path item method name).outcome
      { ctx with functionNames :=
          (Names.reserve (operationName op.id method.key path) ctx.functionNames).2 } =
      (.ok f, ctx₂) := by
    unfold compose
    simp only [Parts.named] at hrequired hoptional
    simp only [hparts.params, hparts.body, hresponses, Build.ofResolve, pure_bind]
    rw [Build.outcome_bind_ok hrequired, Option.mapM_none, pure_bind,
      Build.outcome_bind_ok hoptional]
    exact ⟨_, rfl⟩
  obtain ⟨f, hf⟩ := hcompose _
  exact ⟨f, synthesize_eq_some.2 ⟨hskips, hf⟩⟩

section

variable {named : List (Parameter × String)}
  (htypes : ∀ entry ∈ named, ∀ ctx, ∃ t, (parameterType env entry.1).outcome ctx = (.ok t, ctx))

include htypes

theorem outcome_requiredParams (ctx : Context) :
    ∃ ps, (requiredParams env named).outcome ctx = (.ok ps, ctx) := by
  induction named with
  | nil => exact ⟨[], rfl⟩
  | cons entry rest ih =>
    rw [List.forall_mem_cons] at htypes
    obtain ⟨ps, hps⟩ := ih htypes.2
    rw [requiredParams]
    split
    · obtain ⟨t, ht⟩ := htypes.1 ctx
      rw [Build.outcome_bind_ok ht, Build.outcome_bind_ok hps]
      exact ⟨_, rfl⟩
    · exact ⟨ps, hps⟩

theorem outcome_optionalMembers (ctx : Context) :
    ∃ ms, (optionalMembers env named).outcome ctx = (.ok ms, ctx) := by
  induction named with
  | nil => exact ⟨[], rfl⟩
  | cons entry rest ih =>
    rw [List.forall_mem_cons] at htypes
    obtain ⟨ms, hms⟩ := ih htypes.2
    rw [optionalMembers]
    split
    · exact ⟨ms, hms⟩
    · obtain ⟨t, ht⟩ := htypes.1 ctx
      rw [Build.outcome_bind_ok ht, Build.outcome_bind_ok hms]
      exact ⟨_, rfl⟩

end

/-- An operation without a body and without responses gets a function if its parameters have types
that need no declarations. -/
theorem synthesize_of_types {params : List Parameter} (hskips : env.options.skips op.tags = false)
    (hparts : op.Resolves env upgraded item ⟨params, none⟩)
    (hresponses : resolvedResponses env op = .ok [])
    (htypes : ∀ p ∈ params, ∀ ctx, ∃ t, (parameterType env p).outcome ctx = (.ok t, ctx)) :
    ∃ f ctx', (op.synthesize env upgraded path item method).outcome ctx = (.ok (some f), ctx') := by
  have hnamed : ∀ entry ∈ Parts.named ⟨params, none⟩, ∀ ctx, ∃ t,
      (parameterType env entry.1).outcome ctx = (.ok t, ctx) :=
    fun entry hentry ↦ htypes entry.1 (List.of_mem_zip hentry).1
  obtain ⟨ps, hps⟩ := outcome_requiredParams hnamed _
  obtain ⟨ms, hms⟩ := outcome_optionalMembers hnamed _
  obtain ⟨f, hf⟩ := synthesize_of_parts hskips hparts hresponses hps hms
  exact ⟨f, _, hf⟩

end Operation

end ApiClient
