import ApiClient.ClientModule
import ApiClient.Proofs.Compile.Calls
import ApiClient.Proofs.Operation.QueryGroups
import ApiClient.Proofs.TypeScript.ExprTypes

/-!
# The types of functions

Making the functions of a document comes down to calls of the compiler. The types of parameters and
request bodies are compiled in the write mode and those of responses in the read mode; what is put
together from them for a function names nothing else but the options of a request.
-/

namespace ApiClient

open TypeScript

/-- A type that was compiled on the way to a context. -/
def Compiled (env : Env) (ctx : Context) (node : Option (RefOr Schema)) (mode : Mode) (t : Ty) :
    Prop :=
  ∃ ctx₀ ctx₁ name, Calls env {} ctx₀ ∧
    (env.schemaType node name mode).outcome ctx₀ = (.ok t, ctx₁) ∧ Calls env ctx₁ ctx

theorem Compiled.traces {env : Env} {ctx : Context} {node : Option (RefOr Schema)} {mode : Mode}
    {t : Ty} (h : Compiled env ctx node mode t) :
    Traces env ctx mode (node.toList.map RefOr.site) t.words := by
  obtain ⟨ctx₀, ctx₁, name, hstart, hout, hcalls⟩ := h
  obtain ⟨ledger, hledger⟩ := hstart.recorded
  obtain ⟨⟨ledger₁, hledger₁⟩, -, -, htraces⟩ := Env.schemaType_recorded hledger hout
  exact htraces.mono (hcalls.recorded_from hledger₁).2.2

inductive Composed (P : Ty → Prop) : Ty → Prop where
  | of {t : Ty} (h : P t) : Composed P t
  | object {members : List (Member Ty)} (h : ∀ m ∈ members, Composed P m.type) :
      Composed P (.object members none)
  | union {ts : List Ty} (h : ∀ t ∈ ts, Composed P t) : Composed P (.unionOf ts)

/-- What a composed type names, one of its components names. -/
theorem Composed.named {P : Ty → Prop} {t : Ty} (h : Composed P t) {name : String}
    (hname : .type name ∈ t.words) : ∃ u, P u ∧ .type name ∈ u.words := by
  induction h with
  | of h => exact ⟨_, h, hname⟩
  | object _ ih =>
    rw [Ty.words_object, wordsOfIndex_none, List.append_nil] at hname
    obtain ⟨m, hm, hname⟩ := type_mem_wordsOfMembers.1 hname
    exact ih m hm hname
  | union _ ih =>
    rw [Ty.words_unionOf] at hname
    obtain ⟨t, ht, hname⟩ := mem_wordsOfTypes.1 hname
    exact ih t ht hname

/-- A step that consists of calls, and something that holds of its result from then on. -/
def Build.Produces (env : Env) {α : Type} (P : Context → α → Prop) (b : Build α) : Prop :=
  ∀ ctx x ctx₁, Calls env {} ctx → b.outcome ctx = (.ok x, ctx₁) →
    Calls env ctx ctx₁ ∧ ∀ ctx', Calls env ctx₁ ctx' → P ctx' x

namespace Build.Produces

variable {env : Env} {α β : Type} {b : Build α} {f : α → Build β} {P Q : Context → α → Prop}
  {R : Context → β → Prop}

theorem pure {a : α} (h : ∀ ctx, P ctx a) : Produces env P (Pure.pure a : Build α) := by
  intro ctx x ctx₁ _ hout
  cases hout
  exact ⟨.refl, fun ctx' _ ↦ h ctx'⟩

theorem bind (hb : Produces env P b)
    (hf : ∀ a, Produces env (fun ctx y ↦ P ctx a → R ctx y) (f a)) :
    Produces env R (b >>= f) := by
  intro ctx y ctx₂ hstart hout
  obtain ⟨a, ctx₁, ha, hy⟩ := Build.outcome_bind_eq_ok.1 hout
  obtain ⟨hcalls₁, hP⟩ := hb ctx a ctx₁ hstart ha
  obtain ⟨hcalls₂, hR⟩ := hf a ctx₁ y ctx₂ (hstart.trans hcalls₁) hy
  exact ⟨hcalls₁.trans hcalls₂,
    fun ctx' hcalls ↦ hR ctx' hcalls (hP ctx' (hcalls₂.trans hcalls))⟩

theorem mono (h : Produces env P b) (hPQ : ∀ ctx a, P ctx a → Q ctx a) : Produces env Q b := by
  intro ctx x ctx₁ hstart hout
  obtain ⟨hcalls, hP⟩ := h ctx x ctx₁ hstart hout
  exact ⟨hcalls, fun ctx' hctx' ↦ hPQ ctx' x (hP ctx' hctx')⟩

theorem ofResolve (x : Except ResolveError α) :
    Produces env (fun _ _ ↦ True) (Build.ofResolve x) := by
  intro ctx a ctx₁ _ hout
  obtain ⟨-, rfl⟩ := ok_of_outcome_ofResolve hout
  exact ⟨.refl, fun _ _ ↦ trivial⟩

theorem reserve (wanted : String) : Produces env (fun _ _ ↦ True) (Build.reserve wanted) :=
  fun _ _ _ _ hout ↦ ⟨.single (.reserve hout), fun _ _ ↦ trivial⟩

theorem schemaType (node : Option (RefOr Schema)) (name : Option String) (mode : Mode) :
    Produces env (fun ctx t ↦ Compiled env ctx node mode t) (env.schemaType node name mode) :=
  fun ctx _ ctx₁ hstart hout ↦
    ⟨.single (.schema hout), fun _ hcalls ↦ ⟨ctx, ctx₁, name, hstart, hout, hcalls⟩⟩

end Build.Produces

/-- The types that those of parameters are put together from. -/
def ParamType (env : Env) (ctx : Context) (t : Ty) : Prop :=
  (∃ node, Compiled env ctx node .write t) ∨ t = .named "Runtime.RequestOpts"

def ResponseType (env : Env) (ctx : Context) (t : Ty) : Prop :=
  (∃ node, Compiled env ctx node .read t) ∨ t.words = []

/-- The types in a function are put together from those that are compiled for it. -/
structure TypeScript.Function.Typed (env : Env) (ctx : Context) (f : Function) : Prop where
  params : ∀ t ∈ typesOfParams f.params, Composed (ParamType env ctx) t
  body : ∀ t ∈ f.body.types, Composed (ResponseType env ctx) t

theorem types_queryExpr (params : List (Parameter × String)) :
    ∀ e ∈ queryExpr params, e.types = [] := by
  intro e he
  obtain rfl := queryExpr_eq_some he
  rw [queryCall, Expr.types_apply, Expr.types_path, List.nil_append]
  refine typesOfExprs_eq_nil fun e he ↦ ?_
  obtain ⟨⟨format, group⟩, -, rfl⟩ := List.mem_map.1 he
  dsimp only
  rw [Expr.types_apply, Expr.types_path, List.nil_append]
  refine typesOfExprs_eq_nil fun e he ↦ ?_
  obtain rfl := List.mem_singleton.1 he
  rw [Expr.types_object]
  refine typesOfEntries_eq_nil fun entry hentry ↦ ?_
  obtain ⟨⟨p, arg⟩, -, rfl⟩ := List.mem_map.1 hentry
  exact Expr.types_ident arg

namespace Operation

open Build (Produces)

variable {env : Env}

theorem produces_parameterType (p : Parameter) :
    Produces env (fun ctx t ↦ ∃ node, Compiled env ctx node .write t) (parameterType env p) := by
  unfold parameterType
  split
  · exact (Produces.schemaType _ none .write).mono fun _ _ h ↦ ⟨_, h⟩
  · exact (Produces.schemaType _ none .write).mono fun _ _ h ↦ ⟨_, h⟩

theorem produces_requiredParams (params : List (Parameter × String)) :
    Produces env (fun ctx ps ↦ ∀ t ∈ typesOfParams ps, Composed (ParamType env ctx) t)
      (requiredParams env params) := by
  induction params with
  | nil => exact .pure (by simp)
  | cons entry rest ih =>
    obtain ⟨p, arg⟩ := entry
    unfold requiredParams
    split
    · refine .bind (produces_parameterType p) fun t ↦ .bind ih fun others ↦ .pure ?_
      intro ctx hothers hcompiled
      have ht : Composed (ParamType env ctx) t := .of (.inl hcompiled)
      simpa [typesOfPattern, typesOfFallback, ht] using hothers
    · exact ih

theorem produces_optionalMembers (params : List (Parameter × String)) :
    Produces env (fun ctx ms ↦ ∀ m ∈ ms, ∃ node, Compiled env ctx node .write m.type)
      (optionalMembers env params) := by
  induction params with
  | nil => exact .pure (by simp)
  | cons entry rest ih =>
    obtain ⟨p, arg⟩ := entry
    unfold optionalMembers
    split
    · exact ih
    · refine .bind (produces_parameterType p) fun t ↦ .bind ih fun others ↦ .pure ?_
      intro ctx hothers hcompiled
      simpa [hcompiled] using hothers

theorem typesOfParams_optionalParam (members : List (Member Ty)) :
    ∀ t ∈ typesOfParams (optionalParam members), t = .object members none := by
  have hbindings : ∀ ms : List (Member Ty),
      typesOfBindings (ms.map fun m ↦ ⟨m.name, m.name, none⟩) = [] := by
    intro ms
    induction ms with
    | nil => rw [List.map_nil, typesOfBindings]
    | cons m ms ih =>
      rw [List.map_cons, typesOfBindings, ih, typesOfFallback]
      rfl
  unfold optionalParam
  split
  · simp
  · simp [typesOfPattern, hbindings, typesOfFallback, typesOfEntries]

theorem produces_bodyParam (body : RequestBody) :
    Produces env (fun ctx arg ↦ ∀ t ∈ typesOfParams [arg.1], Composed (ParamType env ctx) t)
      (bodyParam env body) := by
  unfold bodyParam
  refine .bind (Produces.schemaType _ none .write) fun t ↦ .pure fun ctx hcompiled ↦ ?_
  have ht : Composed (ParamType env ctx) t := .of (.inl ⟨_, hcompiled⟩)
  simpa [typesOfPattern, typesOfFallback] using ht

theorem words_statusType (code : String) : (statusType code).words = [] := by
  unfold statusType
  simp only
  split <;> simp

def responseData (env : Env) (response : Response) : Build (List (Member Ty)) :=
  if response.hasContent then do
    let t ← env.schemaType (some (Media.schemaOf response.content)) none .read
    return [⟨"data", t, false⟩]
  else pure []

theorem responseTypes_cons (env : Env) (code : String) (response : Response)
    (rest : List (String × Response)) :
    responseTypes env ((code, response) :: rest) = (do
      let data ← responseData env response
      let others ← responseTypes env rest
      return .object (⟨"status", statusType code, false⟩ :: data) none :: others) := by
  rw [responseTypes, responseData]
  split <;> simp

theorem produces_responseData (response : Response) :
    Produces env (fun ctx data ↦ ∀ m ∈ data, Composed (ResponseType env ctx) m.type)
      (responseData env response) := by
  unfold responseData
  split
  · refine .bind (Produces.schemaType _ none .read) fun t ↦ .pure fun ctx hcompiled ↦ ?_
    simpa using Composed.of (.inl ⟨_, hcompiled⟩)
  · exact .pure (by simp)

theorem produces_responseTypes (responses : List (String × Response)) :
    Produces env (fun ctx ts ↦ ∀ t ∈ ts, Composed (ResponseType env ctx) t)
      (responseTypes env responses) := by
  induction responses with
  | nil => exact .pure (by simp)
  | cons entry rest ih =>
    obtain ⟨code, response⟩ := entry
    rw [responseTypes_cons]
    refine .bind (produces_responseData response) fun data ↦ .bind ih fun others ↦ .pure ?_
    intro ctx hothers hdata
    have hstatus : Composed (ResponseType env ctx) (statusType code) :=
      .of (.inr (words_statusType code))
    have hobject : Composed (ResponseType env ctx)
        (.object (⟨"status", statusType code, false⟩ :: data) none) :=
      .object (List.forall_mem_cons.2 ⟨hstatus, hdata⟩)
    exact List.forall_mem_cons.2 ⟨hobject, hothers⟩

theorem types_urlExpr (path : String) (params : List (Parameter × String)) {query : Option Expr}
    (hquery : ∀ e ∈ query, e.types = []) : (urlExpr path params query).types = [] := by
  rw [urlExpr, Expr.types_template]
  refine typesOfParts_eq_nil fun e he ↦ ?_
  rcases List.mem_append.1 he with he | he
  · obtain ⟨piece, -, hpiece⟩ := List.mem_map.1 he
    cases piece with
    | text cs => cases hpiece
    | name cs =>
      obtain rfl := TemplatePart.hole.inj hpiece
      simp
  · obtain ⟨q, hq, hqe⟩ := Option.map_eq_some_iff.1 (Option.mem_toList.1 he)
    obtain rfl := TemplatePart.hole.inj hqe
    exact hquery _ hq

theorem types_headersEntry (params : List (Parameter × String)) :
    ∀ entry ∈ headersEntry params, entry.value.types = [] := by
  unfold headersEntry
  split
  · simp
  · intro entry hentry
    obtain rfl := List.mem_singleton.1 hentry
    refine (Expr.types_object _).trans (typesOfEntries_eq_nil fun entry hentry ↦ ?_)
    rcases List.mem_cons.1 hentry with rfl | hentry
    · simp [Entry.value]
    · obtain ⟨⟨p, arg⟩, -, rfl⟩ := List.mem_map.1 hentry
      exact Expr.types_ident arg

theorem types_requestExpr (method : Method) (bodyArg : Option String)
    (headers : List (Parameter × String)) (format : Option BodyFormat) :
    (requestExpr method bodyArg headers format).types = [] := by
  have hentries : ∀ entry ∈ Entry.spread (Expr.ident "opts")
      :: (if method = .get then [] else [Entry.prop "method" (Expr.text method.verb)])
      ++ (bodyArg.map fun arg ↦ Entry.prop "body" (Expr.ident arg)).toList
      ++ headersEntry headers, entry.value.types = [] := by
    intro entry hentry
    rw [List.cons_append, List.cons_append, List.mem_cons, List.mem_append, List.mem_append]
      at hentry
    rcases hentry with rfl | (hentry | hentry) | hentry
    · exact Expr.types_ident _
    · split at hentry
      · cases hentry
      · obtain rfl := List.mem_singleton.1 hentry
        exact Expr.types_text _
    · obtain ⟨arg, -, rfl⟩ := Option.map_eq_some_iff.1 (Option.mem_toList.1 hentry)
      exact Expr.types_ident arg
    · exact types_headersEntry headers entry hentry
  have hinit := (Expr.types_object _).trans (typesOfEntries_eq_nil hentries)
  unfold requestExpr
  cases format with
  | none => exact hinit
  | some format =>
    simpa using hinit

theorem types_callExpr (optimistic : Bool) (kind : ResponseKind) (typeArgs : List Ty)
    {url request : Expr} (hurl : url.types = []) (hrequest : request.types = []) :
    (callExpr optimistic kind typeArgs url request).types = typeArgs := by
  unfold callExpr
  split <;> simp [hurl, hrequest]

theorem produces_bodyArgument (body : Option RequestBody) :
    Produces env (fun ctx arg ↦ ∀ t ∈ typesOfParams (arg.map (·.1)).toList,
      Composed (ParamType env ctx) t) (body.mapM (bodyParam env)) := by
  cases body with
  | none => exact .pure (by simp)
  | some body =>
    rw [Option.mapM_some]
    exact .bind (produces_bodyParam body) fun arg ↦ .pure fun _ h ↦ h

/-- A function has its parts' types and those of its last parameter, the options. -/
theorem typed_of_parts {ctx : Context} (name : String) (doc : Option String)
    {required bodyArg : List (Param Expr)} {optional : List (Member Ty)} {typeArgs : List Ty}
    {url request : Expr} (optimistic : Bool) (kind : ResponseKind)
    (hrequired : ∀ t ∈ typesOfParams required, Composed (ParamType env ctx) t)
    (hbody : ∀ t ∈ typesOfParams bodyArg, Composed (ParamType env ctx) t)
    (hoptional : ∀ m ∈ optional, ∃ node, Compiled env ctx node .write m.type)
    (htypeArgs : ∀ t ∈ typeArgs, Composed (ResponseType env ctx) t)
    (hurl : url.types = []) (hrequest : request.types = []) :
    Function.Typed env ctx {
      name, doc
      params := required ++ bodyArg ++ optionalParam optional ++ [optsParam]
      body := callExpr optimistic kind typeArgs url request } where
  params := by
    intro t ht
    simp only [typesOfParams_append, List.mem_append] at ht
    rcases ht with ((ht | ht) | ht) | ht
    · exact hrequired t ht
    · exact hbody t ht
    · rw [typesOfParams_optionalParam optional t ht]
      exact .object fun m hm ↦ .of (.inl (hoptional m hm))
    · have hopts : t = .named "Runtime.RequestOpts" := by
        simpa [optsParam, typesOfPattern, typesOfFallback] using ht
      exact .of (.inr hopts)
  body := by
    intro t ht
    rw [types_callExpr optimistic kind typeArgs hurl hrequest] at ht
    exact htypeArgs t ht

/-- The types in the function for an operation are put together from those that are compiled for it:
the parameters and the body in the write mode, the responses in the read mode. -/
theorem produces_synthesize (upgraded : Bool) (path : String) (item : PathItem) (method : Method)
    (op : Operation) :
    Produces env (fun ctx f ↦ ∀ f' ∈ f, f'.Typed env ctx)
      (synthesize env upgraded path item method op) := by
  unfold synthesize
  split
  · exact .pure (by simp)
  simp only [pure_bind]
  -- each step leaves a fact about its result, the last one first in the end
  refine .bind (.reserve _) fun name ↦ .bind (.ofResolve _) fun params ↦ ?_
  refine .bind (produces_requiredParams _) fun required ↦ .bind (.ofResolve _) fun body ↦ ?_
  refine .bind (produces_bodyArgument body) fun bodyArg ↦ ?_
  refine .bind (produces_optionalMembers _) fun optional ↦ .bind (.ofResolve _) fun responses ↦ ?_
  have hurl (inPath inQuery : List (Parameter × String)) :=
    types_urlExpr path inPath (types_queryExpr inQuery)
  have hrequest (headers : List (Parameter × String)) := types_requestExpr method
    (bodyArg.map (·.2)) headers (body.bind fun body ↦ Media.bodyFormat body.content)
  split
  · refine .bind (produces_responseTypes responses) fun ts ↦ .pure ?_
    intro ctx hts _ hoptional hbody _ hrequired _ _ f hf
    obtain rfl := Option.some.inj hf
    have htypeArgs : ∀ t ∈ [Ty.unionOf ts], Composed (ResponseType env ctx) t :=
      fun t ht ↦ List.mem_singleton.1 ht ▸ .union hts
    exact typed_of_parts _ _ _ _ hrequired hbody hoptional htypeArgs (hurl ..) (hrequest _)
  · refine .pure ?_
    intro ctx _ hoptional hbody _ hrequired _ _ f hf
    obtain rfl := Option.some.inj hf
    exact typed_of_parts _ _ _ _ hrequired hbody hoptional (by simp) (hurl ..) (hrequest _)

end Operation

theorem produces_functions (env : Env) (upgraded : Bool) (endpoints : List Endpoint) :
    Build.Produces env (fun ctx fs ↦ ∀ f ∈ fs, f.Typed env ctx)
      (functions env upgraded endpoints) := by
  induction endpoints with
  | nil => exact .pure (by simp)
  | cons e rest ih =>
    unfold functions
    refine .bind (e.operation.produces_synthesize _ _ _ _) fun f ↦ .bind ih fun others ↦ .pure ?_
    intro ctx hothers hf f' hf'
    rcases List.mem_append.1 hf' with hf' | hf'
    · exact hf f' (Option.mem_toList.1 hf')
    · exact hothers f' hf'

end ApiClient
