import ApiClient.Proofs.Operation.Functions

/-!
# The declarations of a module

When the functions of a document have been made, each name in the table of names stands for one
declaration, and each declaration for one name. All that the types of the module name is declared,
apart from the type of binary data and that of the options of a request.
-/

namespace ApiClient

open TypeScript

/-- The names that have a meaning in every declaration of a module. -/
inductive Context.Known (ctx : Context) : String → Prop where
  | blob : Known ctx "Blob"
  | declared {d : Declaration} (h : d ∈ ctx.typeDeclarations ++ ctx.enumDeclarations) :
      Known ctx d.name

def Context.Declares (ctx : Context) (entry : String × Mode) (d : Declaration) : Prop :=
  ∃ name type, ctx.name? entry.1 entry.2 = some name ∧ d = .typeAlias name type

section

variable {env : Env} {ctx : Context} {ledger : List Record}

namespace Recorded

theorem declares (h : Recorded env [] ctx ledger) :
    List.Forall₂ ctx.Declares (ledger.map Record.entry) ctx.typeDeclarations := by
  rw [h.declarations, List.forall₂_map_left_iff, List.forall₂_map_right_iff, List.forall₂_same]
  exact fun record hrecord ↦ ⟨_, _, (h.stands record hrecord).name, rfl⟩

theorem known_of_reads (h : Recorded env [] ctx ledger) {o : Origin} {name : String}
    (hreads : ctx.Reads o (.type name)) : ctx.Known name := by
  cases hreads with
  | variant hname =>
    obtain ⟨record, hrecord, -, rfl⟩ := h.record_of_name hname
    have hmem : record.declaration ∈ ctx.typeDeclarations :=
      h.declarations ▸ List.mem_map_of_mem hrecord
    exact .declared (List.mem_append_left _ hmem)
  | enumeration henum =>
    obtain ⟨members, hmem⟩ := henum
    exact .declared (List.mem_append_right _ hmem)
  | blob => exact .blob

theorem known_of_traces (h : Recorded env [] ctx ledger) {mode : Mode} {sites : List Site}
    {words : List Word} (htraces : Traces env ctx mode sites words) {name : String}
    (hname : .type name ∈ words) : ctx.Known name := by
  obtain ⟨origins, htraced⟩ := htraces
  obtain ⟨o, -, hreads⟩ := htraced.origin_of_mem hname
  exact h.known_of_reads hreads

end Recorded

theorem known_of_typed (hledger : Recorded env [] ctx ledger) {f : Function}
    (hf : f.Typed env ctx) {t : Ty} (ht : t ∈ f.types) {name : String}
    (hname : .type name ∈ t.words) : name = "Runtime.RequestOpts" ∨ ctx.Known name := by
  rcases List.mem_append.1 ht with ht | ht
  · obtain ⟨u, ⟨node, hu⟩ | rfl, hname⟩ := (hf.params t ht).named hname
    · exact .inr (hledger.known_of_traces hu.traces hname)
    · left
      simpa using hname
  · obtain ⟨u, ⟨node, hu⟩ | hu, hname⟩ := (hf.body t ht).named hname
    · exact .inr (hledger.known_of_traces hu.traces hname)
    · rw [hu] at hname
      cases hname

/-- When all functions have been made, the declared aliases are those of the entries of the table of
names, one for each, and every name in their types or in those of the functions is known. -/
theorem declarations_complete {upgraded : Bool} {endpoints : List Endpoint} {fs : List Function}
    (h : (functions env upgraded endpoints).outcome {} = (.ok fs, ctx)) :
    (∃ entries : List (String × Mode), entries.Nodup ∧
      (∀ key mode, (key, mode) ∈ entries ↔ (ctx.name? key mode).isSome) ∧
      List.Forall₂ ctx.Declares entries ctx.typeDeclarations) ∧
    (∀ declared type, .typeAlias declared type ∈ ctx.typeDeclarations →
      ∀ name, .type name ∈ type.words → ctx.Known name) ∧
    ∀ f ∈ fs, ∀ t ∈ f.types, ∀ name, .type name ∈ t.words →
      name = "Runtime.RequestOpts" ∨ ctx.Known name := by
  obtain ⟨hcalls, htyped⟩ := produces_functions env upgraded endpoints {} fs ctx .refl h
  obtain ⟨ledger, hledger⟩ := hcalls.recorded
  refine ⟨⟨ledger.map Record.entry, hledger.nodup, fun key mode ↦ hledger.entry_iff,
    hledger.declares⟩, ?_, ?_⟩
  · intro declared type hmem name hname
    rw [hledger.declarations] at hmem
    obtain ⟨record, hrecord, hdeclaration⟩ := List.mem_map.1 hmem
    cases hdeclaration
    exact hledger.known_of_traces ⟨_, (hledger.stands record hrecord).traced⟩ hname
  · exact fun f hf t ht name hname ↦ known_of_typed hledger (htyped ctx .refl f hf) ht hname

end

namespace Ring

def request : Schema :=
  { properties := some [("id", .inline { readOnly := some true })] }

def media (schema : RefOr Schema) : Table MediaType :=
  [("application/json", { schema := some schema })]

def body : RequestBody := { content := media (.inline request) }

def response : Response := { content := media (.ref "#/components/schemas/A") }

def operation : Operation where
  body := some (.inline body)
  responses := some [("200", .inline response)]

theorem schemaOf_media (schema : RefOr Schema) : Media.schemaOf (media schema) = schema := by
  have hmedia : Media.isMediaType "application/json" = true := by
    decide +kernel
  simp [Media.schemaOf, media, hmedia]

theorem outcome_request (ctx : Context) :
    (env.schemaType (some (.inline request)) none .write).outcome ctx =
      (.ok (.object [] none), ctx) := by
  have hmarks : env.ownMarks (.inline { readOnly := some true }) = ⟨true, false⟩ :=
    Env.ownMarks_readOnly rfl
  have hplan : schemaPlan env (some (.inline request)) none .write = .done (.object [] none) := by
    rw [schemaPlan, nodeType, plainType_object _ _ _ rfl rfl rfl rfl rfl rfl rfl, objectType]
    simp [request, memberTypes, additionalType, hmarks, Mode.keeps, orNull,
      Schema.isNullable]
  have hends := env.ends_schemaPlan (some (.inline request)) none .write ctx
  rw [hplan] at hends
  exact hends.unique ⟨[], .done _⟩

theorem outcome_bodyParam (ctx : Context) : ∃ arg,
    ((some body).mapM (Operation.bodyParam env)).outcome ctx = (.ok (some arg), ctx) := by
  rw [Option.mapM_some, Operation.bodyParam, body, schemaOf_media, map_eq_pure_bind, bind_assoc,
    Build.outcome_bind_ok (outcome_request ctx)]
  exact ⟨_, rfl⟩

theorem outcome_responseTypes {t : Ty} {ctx ctx' : Context}
    (h : (env.referenceType "#/components/schemas/A" .read).outcome ctx = (.ok t, ctx')) : ∃ ts,
    (Operation.responseTypes env [("200", response)]).outcome ctx = (.ok ts, ctx') := by
  have hdata : (Operation.responseData env response).outcome ctx =
      (.ok [⟨"data", t, false⟩], ctx') := by
    have hcontent : response.hasContent = true := rfl
    rw [Operation.responseData, if_pos hcontent, response, schemaOf_media,
      Build.outcome_bind_ok ((env.outcome_schemaType_ref ..).trans h)]
    rfl
  rw [Operation.responseTypes_cons, Build.outcome_bind_ok hdata]
  exact ⟨_, rfl⟩

theorem outcome_reserve (wanted : String) : ∃ name counts,
    (Build.reserve wanted).outcome {} = (.ok name, { functionNames := counts }) :=
  ⟨_, _, rfl⟩

theorem outcome_synthesize : ∃ f ctx,
    (operation.synthesize env false "/" {} .post).outcome {} = (.ok (some f), ctx) ∧
    Table.get? "#/components/schemas/A" ctx.aliases =
      some { base := "A", read := some "ARead" } := by
  obtain ⟨name, counts, hname⟩ := outcome_reserve (operationName operation.id Method.post.key "/")
  obtain ⟨t, ctx, log, hrun, -, hentry⟩ := runs .read counts
  have hparams : Operation.resolvedParameters env false {} operation = .ok [] := rfl
  have hbody : operation.body.mapM (env.snapshot.get RequestBody.ofNode) = .ok (some body) := rfl
  have hresponses : Operation.resolvedResponses env operation = .ok [("200", response)] := rfl
  obtain ⟨arg, harg⟩ := outcome_bodyParam { functionNames := counts }
  obtain ⟨ts, hts⟩ := outcome_responseTypes ((env.ends_follow _ _ _ _).unique ⟨_, hrun⟩)
  have hskips : env.options.skips operation.tags = false := rfl
  have htyped : (Media.responseKind [Table.keys response.content]).isTyped = true := by
    decide +kernel
  unfold Operation.synthesize
  simp only [hskips, hparams, hbody, hresponses, Build.ofResolve, pure_bind, List.zip_nil_left,
    Operation.requiredParams, Operation.optionalMembers, List.map_cons, List.map_nil, htyped,
    Bool.false_eq_true, if_false, if_true]
  rw [Build.outcome_bind_ok hname, Build.outcome_bind_ok harg, Build.outcome_bind_ok hts]
  exact ⟨_, ctx, rfl, hentry⟩

/-- The functions can be made, and a read variant is declared on the way. -/
theorem outcome_functions : ∃ fs ctx,
    (functions env false [⟨"/", {}, .post, operation⟩]).outcome {} = (.ok fs, ctx) ∧
    Table.get? "#/components/schemas/A" ctx.aliases =
      some { base := "A", read := some "ARead" } := by
  obtain ⟨f, ctx, hout, hentry⟩ := outcome_synthesize
  rw [functions, Build.outcome_bind_ok hout]
  exact ⟨_, ctx, rfl, hentry⟩

end Ring

/-- A function for whose responses a read variant has been declared. -/
theorem read_variant_declared : ∃ fs ctx,
    (functions Ring.env false [⟨"/", {}, .post, Ring.operation⟩]).outcome {} = (.ok fs, ctx) ∧
    ∃ type, .typeAlias "ARead" type ∈ ctx.typeDeclarations := by
  obtain ⟨fs, ctx, hout, hentry⟩ := Ring.outcome_functions
  obtain ⟨⟨entries, -, hentries, hdeclares⟩, -, -⟩ := declarations_complete hout
  have hname : ctx.name? "#/components/schemas/A" .read = some "ARead" :=
    (Context.name?_of_get? hentry .read).trans rfl
  have hmem : ("#/components/schemas/A", Mode.read) ∈ entries := by
    rw [hentries, hname]
    rfl
  obtain ⟨d, hd, name, type, hown, rfl⟩ := exists_of_forall₂ hdeclares hmem
  obtain rfl := Option.some.inj (hname.symm.trans hown)
  exact ⟨fs, ctx, hout, type, hd⟩

end ApiClient
