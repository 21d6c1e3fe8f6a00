import ApiClient.Proofs.Operation.Assembly
import ApiClient.Proofs.Operation.Functions

/-!
# Which functions are closed

The body of a function reads the arguments of its parameters, the options of the call, and a few
names of the module around it. The query, the headers and the body of a request take their arguments
from the list of parameters that the function binds. Only the address looks arguments up by name, so
a placeholder that no path parameter has the name of is the one way to a name that nothing binds.
-/

namespace ApiClient

open TypeScript

/-- The names of the module that the bodies of functions use. -/
def moduleNames : List String := ["runtime", "QS", "encodeURIComponent"]

namespace Piece

variable {cs : List Char}

theorem split_of_first? {before inside after : List Char}
    (h : first? cs = some (before, inside, after)) :
    split cs = ofText before ++ .name inside :: split after := by
  rw [split]
  split <;> simp_all

theorem split_of_first?_eq_none (h : first? cs = none) : split cs = ofText cs := by
  rw [split]
  split <;> simp_all

end Piece

/-- The names in the placeholders of a path. -/
def placeholders (path : String) : List String :=
  (Piece.split path.toList).filterMap fun piece ↦
    match piece with
    | .text _ => none
    | .name cs => some (String.ofList cs)

theorem mem_placeholders {path name : String} :
    name ∈ placeholders path ↔ .name name.toList ∈ Piece.split path.toList := by
  constructor
  · intro h
    obtain ⟨piece, hpiece, hname⟩ := List.mem_filterMap.1 h
    cases piece with
    | text cs => cases hname
    | name cs =>
      cases hname
      rwa [String.toList_ofList]
  · intro h
    exact List.mem_filterMap.2 ⟨_, h, congrArg some (String.ofList_toList)⟩

theorem mem_free_queryCall {groups : QueryGroups} {x : String} : x ∈ (queryCall groups).free ↔
    x = "QS" ∨ x ∈ (groups.flatMap (·.2)).map (·.2) := by
  have hgroup (format : QueryFormat) (entries : List (Parameter × String)) :
      x ∈ (Expr.apply (.path "QS" format.helper)
        [.object (entries.map fun entry ↦ .prop entry.1.name (.ident entry.2))]).free ↔
          x = "QS" ∨ x ∈ entries.map (·.2) := by
    simp [Expr.mem_free_apply, Expr.mem_free_object, Entry.value, eq_comm]
  rw [queryCall, Expr.mem_free_apply, Expr.free_path, List.mem_singleton, List.map_flatMap]
  constructor
  · rintro (hx | ⟨e, he, hx⟩)
    · exact .inl hx
    · obtain ⟨⟨format, entries⟩, hentries, rfl⟩ := List.mem_map.1 he
      rcases (hgroup format entries).1 hx with hx | hx
      · exact .inl hx
      · exact .inr (List.mem_flatMap.2 ⟨_, hentries, hx⟩)
  · rintro (hx | hx)
    · exact .inl hx
    · obtain ⟨⟨format, entries⟩, hentries, hx⟩ := List.mem_flatMap.1 hx
      exact .inr ⟨_, List.mem_map_of_mem hentries, (hgroup format entries).2 (.inr hx)⟩

theorem mem_free_queryExpr {params : List (Parameter × String)} {x : String} :
    (∃ e ∈ queryExpr params, x ∈ e.free) ↔
      (params ≠ [] ∧ x = "QS") ∨ x ∈ params.map (·.2) := by
  by_cases hparams : params = []
  · subst hparams
    simp [queryExpr]
  obtain ⟨e, he⟩ := Option.ne_none_iff_exists'.1 fun h ↦ hparams (queryExpr_eq_none_iff.1 h)
  have hlossless := ((groupsOf_queryGroups params).lossless.map (·.2)).mem_iff (a := x)
  have hfree : x ∈ e.free ↔ x = "QS" ∨ x ∈ params.map (·.2) := by
    rw [queryExpr_eq_some he, mem_free_queryCall, hlossless]
  simp [he, hfree, hparams]

namespace Operation

/-- The argument that is put in place of a placeholder. -/
def placeholderArg (params : List (Parameter × String)) (name : String) : String :=
  match params.find? fun (p, _) ↦ p.name == name with
  | some (_, arg) => arg
  | none => toIdentifier name

theorem placeholderArg_eq (params : List (Parameter × String)) (name : String) :
    (∃ entry ∈ params, entry.1.name = name ∧ placeholderArg params name = entry.2) ∨
      (∀ entry ∈ params, entry.1.name ≠ name) ∧
        placeholderArg params name = toIdentifier name := by
  unfold placeholderArg
  cases hfind : params.find? fun (p, _) ↦ p.name == name with
  | none =>
    refine .inr ⟨fun entry hentry hname ↦ ?_, rfl⟩
    simpa [hname] using List.find?_eq_none.1 hfind entry hentry
  | some entry =>
    exact .inl ⟨entry, List.mem_of_find?_eq_some hfind, by simpa using List.find?_some hfind, rfl⟩

section

variable {x : String}

theorem mem_free_urlExpr {path : String} {params : List (Parameter × String)}
    {query : Option Expr} : x ∈ (urlExpr path params query).free ↔
      (∃ name ∈ placeholders path, x = "encodeURIComponent" ∨ x = placeholderArg params name) ∨
        ∃ e ∈ query, x ∈ e.free := by
  have hhole (cs : List Char) : urlPart params (.name cs) = .hole
      (.apply (.ident "encodeURIComponent") [.ident (placeholderArg params (String.ofList cs))]) :=
    rfl
  have hfree (cs : List Char) : x ∈ (Expr.apply (.ident "encodeURIComponent")
      [.ident (placeholderArg params (String.ofList cs))]).free ↔
      x = "encodeURIComponent" ∨ x = placeholderArg params (String.ofList cs) := by
    simp [Expr.mem_free_apply]
  rw [urlExpr, Expr.mem_free_template]
  constructor
  · rintro ⟨e, he, hx⟩
    rcases List.mem_append.1 he with he | he
    · obtain ⟨piece, hpiece, hpart⟩ := List.mem_map.1 he
      cases piece with
      | text cs => cases hpart
      | name cs =>
        obtain rfl := TemplatePart.hole.inj ((hhole cs).symm.trans hpart)
        refine .inl ⟨String.ofList cs, mem_placeholders.2 ?_, (hfree cs).1 hx⟩
        rwa [String.toList_ofList]
    · obtain ⟨q, hq, hqe⟩ := Option.map_eq_some_iff.1 (Option.mem_toList.1 he)
      obtain rfl := TemplatePart.hole.inj hqe
      exact .inr ⟨q, hq, hx⟩
  · rintro (⟨name, hname, hx⟩ | ⟨e, he, hx⟩)
    · have hpart := List.mem_map_of_mem (f := urlPart params) (mem_placeholders.1 hname)
      rw [hhole] at hpart
      refine ⟨_, List.mem_append_left _ hpart, (hfree _).2 ?_⟩
      rwa [String.ofList_toList]
    · have hhole : .hole e ∈ (query.map TemplatePart.hole).toList := by
        obtain rfl : query = some e := he
        exact List.mem_singleton.2 rfl
      exact ⟨e, List.mem_append_right _ hhole, hx⟩

theorem mem_free_headersEntry {params : List (Parameter × String)} :
    (∃ entry ∈ headersEntry params, x ∈ entry.value.free) ↔
      (params ≠ [] ∧ x = "opts") ∨ x ∈ params.map (·.2) := by
  cases params with
  | nil => simp [headersEntry]
  | cons entry params =>
    rw [headersEntry, if_neg (by simp)]
    simp [Expr.mem_free_object, Entry.value, eq_comm]

theorem mem_free_requestExpr {method : Method} {bodyArg : Option String}
    {headers : List (Parameter × String)} {format : Option BodyFormat} :
    x ∈ (requestExpr method bodyArg headers format).free ↔
      (format.isSome ∧ x = "runtime") ∨ x = "opts" ∨ x ∈ bodyArg ∨ x ∈ headers.map (·.2) := by
  have hmethod : ¬∃ entry ∈ (if method = .get then [] else
      [Entry.prop "method" (Expr.text method.verb)]), x ∈ entry.value.free := by
    by_cases hget : method = .get <;> simp [hget, Entry.value]
  have hbody : (∃ entry ∈ (bodyArg.map fun arg ↦ Entry.prop "body" (Expr.ident arg)).toList,
      x ∈ entry.value.free) ↔ x ∈ bodyArg := by
    cases bodyArg <;> simp [Entry.value, eq_comm]
  have hopts : x ∈ (Entry.spread (Expr.ident "opts")).value.free ↔ x = "opts" := by
    simp [Entry.value]
  have hinit : x ∈ (Expr.object <| .spread (.ident "opts")
      :: (if method = .get then [] else [Entry.prop "method" (Expr.text method.verb)])
      ++ (bodyArg.map fun arg ↦ Entry.prop "body" (Expr.ident arg)).toList
      ++ headersEntry headers).free ↔ x = "opts" ∨ x ∈ bodyArg ∨ x ∈ headers.map (·.2) := by
    simp only [Expr.mem_free_object, List.cons_append, List.mem_cons, List.mem_append,
      or_and_right, exists_or, exists_eq_left]
    rw [hopts, hbody, mem_free_headersEntry]
    grind
  unfold requestExpr
  cases format with
  | none => simpa using hinit
  | some format =>
    refine Expr.mem_free_apply.trans ?_
    simp only [Expr.free_path, List.mem_singleton, exists_eq_left, hinit, Option.isSome_some,
      true_and]

theorem mem_free_callExpr {optimistic : Bool} {kind : ResponseKind} {typeArgs : List Ty}
    {url request : Expr} : x ∈ (callExpr optimistic kind typeArgs url request).free ↔
      x = "runtime" ∨ x ∈ url.free ∨ x ∈ request.free := by
  unfold callExpr
  cases optimistic <;> simp [Expr.mem_free_call, Expr.mem_free_apply]

end

namespace Parts

variable {parts : Parts} {arg : String}

theorem arg_of_located {location : Location} (h : arg ∈ (parts.located location).map (·.2)) :
    arg ∈ parts.named.map (·.2) := by
  obtain ⟨entry, hentry, rfl⟩ := List.mem_map.1 h
  exact List.mem_map_of_mem (List.mem_filter.1 hentry).1

theorem bound_of_arg (h : arg ∈ parts.named.map (·.2)) : arg ∈ parts.bound := by
  obtain ⟨entry, hentry, rfl⟩ := List.mem_map.1 h
  simp only [bound, List.mem_append]
  by_cases hrequired : entry.1.required = true
  · exact .inl (.inl (.inl (List.mem_map_of_mem (List.mem_filter.2 ⟨hentry, hrequired⟩))))
  · refine .inl (.inr (List.mem_map_of_mem (List.mem_filter.2 ⟨hentry, ?_⟩)))
    simpa using hrequired

theorem bound_of_bodyArg (h : arg ∈ parts.bodyArg) : arg ∈ parts.bound := by
  simp only [bound, List.mem_append]
  exact .inl (.inl (.inr (Option.mem_toList.2 h)))

theorem opts_mem_bound (parts : Parts) : "opts" ∈ parts.bound :=
  List.mem_append_right _ List.mem_cons_self

theorem length_argumentNames (params : List Parameter) :
    (Parameters.argumentNames params).length = params.length := by
  rw [Parameters.argumentNames, List.length_map, List.length_range]

/-- Each parameter stands with its argument among those of its location. -/
theorem exists_located {p : Parameter} (hp : p ∈ parts.params) :
    ∃ arg, (p, arg) ∈ parts.located p.location := by
  obtain ⟨i, hi, rfl⟩ := List.mem_iff_getElem.1 hp
  have hlength : i < (Parameters.argumentNames parts.params).length := by
    rwa [length_argumentNames]
  have hzip : i < parts.named.length := by
    rw [named, List.length_zip]
    exact Nat.lt_min.2 ⟨hi, hlength⟩
  have hentry : parts.named[i] = (parts.params[i], (Parameters.argumentNames parts.params)[i]) :=
    List.getElem_zip
  exact ⟨_, List.mem_filter.2 ⟨hentry ▸ List.getElem_mem hzip, by simp⟩⟩

theorem location_of_located {location : Location} {entry : Parameter × String}
    (h : entry ∈ parts.located location) :
    entry.1 ∈ parts.params ∧ entry.1.location = location := by
  obtain ⟨hentry, hlocation⟩ := List.mem_filter.1 h
  exact ⟨(List.of_mem_zip hentry).1, by simpa using hlocation⟩

end Parts

variable {env : Env} {upgraded : Bool} {path : String} {item : PathItem} {method : Method}
  {op : Operation} {name : String} {parts : Parts} {f : Function} {ctx ctx' : Context}

/-- A function binds all names that its body takes neither from the module nor from a placeholder.
-/
theorem Assembled.free (h : Assembled env path method parts f) {x : String}
    (hx : x ∈ f.body.free) : x ∈ f.bound ∨ x ∈ moduleNames ∨
      ∃ name ∈ placeholders path, x = placeholderArg (parts.located .path) name := by
  have harg {location : Location} (hx : x ∈ (parts.located location).map (·.2)) : x ∈ f.bound := by
    rw [h.bound]
    exact Parts.bound_of_arg (Parts.arg_of_located hx)
  obtain ⟨kind, typeArgs, hbody⟩ := h.body
  rw [hbody, mem_free_callExpr] at hx
  rcases hx with rfl | hx | hx
  · exact .inr (.inl (by decide))
  · rcases mem_free_urlExpr.1 hx with ⟨name, hname, rfl | hx⟩ | ⟨e, he, hx⟩
    · exact .inr (.inl (by decide))
    · exact .inr (.inr ⟨name, hname, hx⟩)
    · rcases mem_free_queryExpr.1 ⟨e, he, hx⟩ with ⟨-, rfl⟩ | hx
      · exact .inr (.inl (by decide))
      · exact .inl (harg hx)
  · rcases mem_free_requestExpr.1 hx with ⟨-, rfl⟩ | rfl | hx | hx
    · exact .inr (.inl (by decide))
    · exact .inl (h.bound ▸ parts.opts_mem_bound)
    · exact .inl (h.bound ▸ Parts.bound_of_bodyArg hx)
    · exact .inl (harg hx)

/-- A function is closed if and only if each placeholder of its path is the name of one of the path
parameters that are left after merging and folding, or spells a name that is bound anyway. -/
theorem closed_iff_placeholders
    (h : (op.synthesize env upgraded path item method).outcome ctx = (.ok (some f), ctx')) :
    ∃ parts, op.Resolves env upgraded item parts ∧
      ((∀ x ∈ f.body.free, x ∈ f.bound ∨ x ∈ moduleNames) ↔
        ∀ name ∈ placeholders path, (∃ p ∈ parts.params, p.location = .path ∧ p.name = name) ∨
          toIdentifier name ∈ f.bound ∨ toIdentifier name ∈ moduleNames) := by
  obtain ⟨-, parts, hparts, hf⟩ := assembled_of_synthesize h
  refine ⟨parts, hparts, fun hclosed name hname ↦ ?_, fun hnames x hx ↦ ?_⟩
  · obtain ⟨kind, typeArgs, hbody⟩ := hf.body
    have hfree : placeholderArg (parts.located .path) name ∈ f.body.free := by
      rw [hbody, mem_free_callExpr]
      exact .inr (.inl (mem_free_urlExpr.2 (.inl ⟨name, hname, .inr rfl⟩)))
    rcases placeholderArg_eq (parts.located .path) name with ⟨entry, hentry, rfl, -⟩ | ⟨-, harg⟩
    · exact .inl ⟨entry.1, (Parts.location_of_located hentry).1,
        (Parts.location_of_located hentry).2, rfl⟩
    · rw [harg] at hfree
      exact .inr (hclosed _ hfree)
  · rcases hf.free hx with hbound | hmodule | ⟨name, hname, rfl⟩
    · exact .inl hbound
    · exact .inr hmodule
    rcases placeholderArg_eq (parts.located .path) name with
      ⟨entry, hentry, -, harg⟩ | ⟨hnone, harg⟩
    · rw [harg, hf.bound]
      exact .inl (Parts.bound_of_arg (Parts.arg_of_located (List.mem_map_of_mem hentry)))
    · rw [harg]
      rcases hnames name hname with ⟨p, hp, hlocation, rfl⟩ | hname
      · obtain ⟨arg, hlocated⟩ := Parts.exists_located hp
        exact absurd rfl (hnone _ (hlocation ▸ hlocated))
      · exact hname

end Operation

namespace FoldedPlaceholder

def record : Schema :=
  { properties := some [] }

def parameter : Parameter where
  name := "filter[id]"
  location := .path
  required := true
  schema := some (.inline record)

def operation : Operation where
  parameters := [.inline parameter]

def path : String := "/\x7bfilter[id]\x7d"

def item : PathItem where
  operation := fun m ↦ if m = .get then some operation else none

def spec : Spec where
  version := "3.0.3"
  info := { title := "t", version := "1" }
  paths := [(path, item)]

def env : Env := spec.prepare.env { singleMode := true }

/-- The object that the parameter is folded into. -/
def object : Schema :=
  { types := some (.one .object), properties := some [("id", .inline record)] }

def folded : Parameter :=
  { Parameters.emptyObject "filter" .path with schema := some (.inline object) }

theorem outcome_object (ctx : Context) : ∃ t,
    (env.schemaType (some (.inline object)) none .write).outcome ctx = (.ok t, ctx) := by
  have hmarks : env.ownMarks (.inline record) = ⟨false, false⟩ := rfl
  have hrecord : nodeType env (.inline record) (some "id") .write = .done (.object [] none) := by
    rw [nodeType, plainType_object _ _ _ rfl rfl rfl rfl rfl rfl rfl, objectType]
    simp [record, memberTypes, additionalType, orNull, Schema.isNullable]
  have hplan : ∃ t, schemaPlan env (some (.inline object)) none .write = .done t := by
    rw [schemaPlan, nodeType, plainType_object _ _ _ rfl rfl rfl rfl rfl rfl rfl, objectType]
    simp [object, memberTypes, additionalType, hmarks, hrecord, Mode.keeps]
  obtain ⟨t, hplan⟩ := hplan
  have hends := env.ends_schemaPlan (some (.inline object)) none .write ctx
  rw [hplan] at hends
  exact ⟨t, hends.unique ⟨[], .done _⟩⟩

theorem resolves : operation.Resolves env true item ⟨[folded], none⟩ :=
  ⟨rfl, rfl⟩

/-- The parameter is folded into an object, and its placeholder stays. -/
theorem outcome_synthesize : ∃ f ctx,
    (operation.synthesize env true path item .get).outcome {} = (.ok (some f), ctx) := by
  refine Operation.synthesize_of_types rfl resolves rfl ?_
  rw [List.forall_mem_singleton]
  exact outcome_object

theorem placeholders_path : placeholders path = ["filter[id]"] := by
  have hfirst : Piece.first? path.toList = some (['/'], "filter[id]".toList, []) := by
    decide +kernel
  have hrest : Piece.first? [] = none := rfl
  rw [placeholders, Piece.split_of_first? hfirst, Piece.split_of_first?_eq_none hrest]
  rfl

end FoldedPlaceholder

/-- A path parameter whose name has brackets is folded into an object, so that its placeholder is
left without an argument. -/
theorem folded_placeholder_unbound : ∃ f ctx,
    (FoldedPlaceholder.operation.synthesize FoldedPlaceholder.env true FoldedPlaceholder.path
        FoldedPlaceholder.item .get).outcome {} = (.ok (some f), ctx) ∧
      ¬∀ x ∈ f.body.free, x ∈ f.bound ∨ x ∈ moduleNames := by
  obtain ⟨f, ctx, hout⟩ := FoldedPlaceholder.outcome_synthesize
  refine ⟨f, ctx, hout, fun hclosed ↦ ?_⟩
  obtain ⟨parts, hparts, hiff⟩ := Operation.closed_iff_placeholders hout
  obtain rfl := hparts.eq FoldedPlaceholder.resolves
  obtain ⟨-, parts, hparts, hf⟩ := Operation.assembled_of_synthesize hout
  obtain rfl := hparts.eq FoldedPlaceholder.resolves
  have hbound : f.bound = ["filter", "opts"] := by
    rw [hf.bound]
    decide +kernel
  have hname : "filter[id]" ∈ placeholders FoldedPlaceholder.path := by
    rw [FoldedPlaceholder.placeholders_path]
    exact List.mem_cons_self
  have hidentifier : toIdentifier "filter[id]" = "filterId" := by
    decide +kernel
  rcases hiff.1 hclosed _ hname with ⟨p, hp, -, hpname⟩ | hother
  · rw [List.mem_singleton.1 hp] at hpname
    exact absurd hpname (by decide)
  · rw [hidentifier, hbound] at hother
    exact absurd hother (by decide)

end ApiClient
