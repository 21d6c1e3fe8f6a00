import ApiClient.Proofs.Operation.Partition

/-!
# Which arguments a call uses

The query and the headers of a call take the arguments of all parameters of their locations. The
address looks for the argument of a placeholder by name and takes the first one that it finds. So
among the parameters of the path a second one of the same name is left over, and parameters that
belong to cookies are left over as well: the function asks for their arguments and does nothing with
them.
-/

namespace ApiClient

open TypeScript

namespace Operation

namespace Parts

/-- The names that occur in the address and in the request of a call. -/
def requested (parts : Parts) (path : String) (method : Method) : List String :=
  (parts.url path).free ++ (parts.request method).free

/-- The first parameter of the path that has this name, with its argument. -/
def firstOfPath? (parts : Parts) (name : String) : Option (Parameter × String) :=
  (parts.located .path).find? fun (p, _) ↦ p.name == name

/-- A parameter of the path that is not the first one of its name. -/
def Repeated (parts : Parts) (entry : Parameter × String) : Prop :=
  entry.1.location = .path ∧ parts.firstOfPath? entry.1.name ≠ some entry

/-- The argument of a parameter is put into the query, the headers or the path. -/
inductive Sent (parts : Parts) (path : String) : Parameter × String → Prop where
  | query {entry : Parameter × String} (h : entry ∈ parts.located .query) : Sent parts path entry
  | header {entry : Parameter × String} (h : entry ∈ parts.located .header) : Sent parts path entry
  | path {entry : Parameter × String} (hname : entry.1.name ∈ placeholders path)
      (hfirst : parts.firstOfPath? entry.1.name = some entry) : Sent parts path entry

/-- A name that occurs in the request, but not as the argument of a parameter. -/
inductive Ambient (parts : Parts) (path : String) : String → Prop where
  | options : Ambient parts path "opts"
  | body {x : String} (h : x ∈ parts.bodyArg) : Ambient parts path x
  | format (h : (parts.body.bind fun body ↦ Media.bodyFormat body.content).isSome) :
      Ambient parts path "runtime"
  | query (h : parts.located .query ≠ []) : Ambient parts path "QS"
  | encoder (h : placeholders path ≠ []) : Ambient parts path "encodeURIComponent"
  /-- The identifier of a placeholder that no parameter of the path has the name of. -/
  | placeholder {name : String} (hname : name ∈ placeholders path)
      (hnone : parts.firstOfPath? name = none) : Ambient parts path (toIdentifier name)

variable {parts : Parts} {path : String} {method : Method} {x : String}

theorem placeholderArg_of_firstOfPath? (parts : Parts) (name : String) :
    placeholderArg (parts.located .path) name =
      (parts.firstOfPath? name).elim (toIdentifier name) (·.2) := by
  unfold placeholderArg firstOfPath?
  cases (parts.located .path).find? fun (p, _) ↦ p.name == name <;> rfl

theorem name_of_firstOfPath? {name : String} {entry : Parameter × String}
    (h : parts.firstOfPath? name = some entry) : entry.1.name = name := by
  simpa using List.find?_some h

theorem mem_url_iff : x ∈ (parts.url path).free ↔
    (∃ name ∈ placeholders path, x = "encodeURIComponent" ∨
        x = (parts.firstOfPath? name).elim (toIdentifier name) (·.2)) ∨
      (parts.located .query ≠ [] ∧ x = "QS") ∨ x ∈ (parts.located .query).map (·.2) := by
  rw [url, mem_free_urlExpr, mem_free_queryExpr]
  simp only [placeholderArg_of_firstOfPath?]

/-- A name occurs in a request as an argument that is sent, or for another reason. -/
theorem mem_requested_iff : x ∈ parts.requested path method ↔
    (∃ entry, parts.Sent path entry ∧ entry.2 = x) ∨ parts.Ambient path x := by
  rw [requested, List.mem_append, mem_url_iff, request, mem_free_requestExpr]
  constructor
  · rintro ((⟨name, hname, rfl | rfl⟩ | ⟨hquery, rfl⟩ | hx) | ⟨hformat, rfl⟩ | rfl | hx | hx)
    · exact .inr (.encoder (List.ne_nil_of_mem hname))
    · cases hfirst : parts.firstOfPath? name with
      | none => exact .inr (.placeholder hname hfirst)
      | some entry =>
        obtain rfl := name_of_firstOfPath? hfirst
        exact .inl ⟨entry, .path hname hfirst, rfl⟩
    · exact .inr (.query hquery)
    · obtain ⟨entry, hentry, rfl⟩ := List.mem_map.1 hx
      exact .inl ⟨entry, .query hentry, rfl⟩
    · exact .inr (.format hformat)
    · exact .inr .options
    · exact .inr (.body hx)
    · obtain ⟨entry, hentry, rfl⟩ := List.mem_map.1 hx
      exact .inl ⟨entry, .header hentry, rfl⟩
  · rintro (⟨entry, hsent, rfl⟩ | hambient)
    · cases hsent with
      | query h => exact .inl (.inr (.inr (List.mem_map_of_mem h)))
      | header h => exact .inr (.inr (.inr (.inr (List.mem_map_of_mem h))))
      | path hname hfirst => exact .inl (.inl ⟨_, hname, .inr (by rw [hfirst]; rfl)⟩)
    · cases hambient with
      | options => exact .inr (.inr (.inl rfl))
      | body h => exact .inr (.inr (.inr (.inl h)))
      | format h => exact .inr (.inl ⟨h, rfl⟩)
      | query h => exact .inl (.inr (.inl ⟨h, rfl⟩))
      | encoder h =>
        obtain ⟨name, hname⟩ := List.exists_mem_of_ne_nil _ h
        exact .inl (.inl ⟨name, hname, .inl rfl⟩)
      | placeholder hname hnone => exact .inl (.inl ⟨_, hname, .inr (by rw [hnone]; rfl)⟩)

/-- If the parameters of the path are all placeholders, only cookies and repeated parameters are not
sent. -/
theorem sent_iff {entry : Parameter × String} (hentry : entry ∈ parts.named)
    (hpath : entry.1.location = .path → entry.1.name ∈ placeholders path) :
    parts.Sent path entry ↔ entry.1.location ≠ .cookie ∧ ¬parts.Repeated entry := by
  have hlocated : entry ∈ parts.located entry.1.location :=
    List.mem_filter.2 ⟨hentry, beq_self_eq_true _⟩
  constructor
  · intro hsent
    have hlocation {location : Location} (h : entry ∈ parts.located location) :=
      (location_of_located h).2
    cases hsent with
    | query h => simp [Repeated, hlocation h]
    | header h => simp [Repeated, hlocation h]
    | path hname hfirst =>
      have h := hlocation (List.mem_of_find?_eq_some hfirst)
      simp [Repeated, h, hfirst]
  · rintro ⟨hcookie, hrepeated⟩
    cases hlocation : entry.1.location with
    | query => exact .query (hlocation ▸ hlocated)
    | header => exact .header (hlocation ▸ hlocated)
    | path => exact .path (hpath hlocation) (Classical.not_not.1 fun h ↦ hrepeated ⟨hlocation, h⟩)
    | cookie => exact absurd hlocation hcookie

end Parts

variable {env : Env} {upgraded : Bool} {path : String} {item : PathItem} {method : Method}
  {op : Operation} {f : Function} {ctx ctx' : Context}

/-- If the parameters of the path are all placeholders, a call uses the argument of a parameter if
and only if the parameter is neither of a cookie nor a repetition in the path, or the argument has a
name that occurs in the request anyway. -/
theorem argument_requested_iff
    (h : (op.synthesize env upgraded path item method).outcome ctx = (.ok (some f), ctx')) :
    ∃ parts, op.Resolves env upgraded item parts ∧
      (∃ optimistic kind typeArgs,
        f.body = callExpr optimistic kind typeArgs (parts.url path) (parts.request method)) ∧
      ((∀ p ∈ parts.params, p.location = .path → p.name ∈ placeholders path) →
        ∀ entry ∈ parts.named, entry.2 ∈ parts.requested path method ↔
          (entry.1.location ≠ .cookie ∧ ¬parts.Repeated entry) ∨
            (∃ other, parts.Sent path other ∧ other.2 = entry.2) ∨
              parts.Ambient path entry.2) := by
  obtain ⟨-, parts, hparts, hf⟩ := assembled_of_synthesize h
  obtain ⟨kind, typeArgs, hbody⟩ := hf.body
  refine ⟨parts, hparts, ⟨_, kind, typeArgs, hbody⟩, fun hpath entry hentry ↦ ?_⟩
  have hsent := Parts.sent_iff hentry (hpath entry.1 (List.of_mem_zip hentry).1)
  rw [Parts.mem_requested_iff, ← hsent]
  exact ⟨.inr, fun h ↦ h.elim (fun h ↦ .inl ⟨entry, h, rfl⟩) fun h ↦ h⟩

end Operation

namespace PetOfSession

def id : Parameter where
  name := "id"
  location := .path
  required := true

/-- The same parameter once more, in another style. -/
def idLabel : Parameter :=
  { id with style := some "label" }

def session : Parameter where
  name := "session"
  location := .cookie
  required := true

def item : PathItem where
  parameters := [.inline id, .inline idLabel]

def operation : Operation where
  parameters := [.inline session]

def path : String := "/pets/\x7bid\x7d"

def env : Env where
  snapshot := { root := .obj [("paths", .obj [(path, .obj [])])] }
  discriminating := []
  options := {}

def parts : Operation.Parts := ⟨[id, idLabel, session], none⟩

theorem named : parts.named = [(id, "id"), (idLabel, "idPath"), (session, "session")] := by
  have hnames : Parameters.argumentNames parts.params = ["id", "idPath", "session"] := by
    decide +kernel
  rw [Operation.Parts.named, hnames]
  rfl

theorem resolves : operation.Resolves env false item parts :=
  ⟨rfl, rfl⟩

theorem outcome_synthesize : ∃ f ctx,
    (operation.synthesize env false path item .get).outcome {} = (.ok (some f), ctx) := by
  refine Operation.synthesize_of_types rfl resolves rfl fun p hp ctx ↦ ⟨.any, ?_⟩
  simp only [List.mem_cons, List.not_mem_nil, or_false] at hp
  rcases hp with rfl | rfl | rfl <;> rfl

theorem placeholders_path : placeholders path = ["id"] := by
  have hfirst : Piece.first? path.toList = some ("/pets/".toList, "id".toList, []) := by
    decide +kernel
  have hrest : Piece.first? [] = none := rfl
  rw [placeholders, Piece.split_of_first? hfirst, Piece.split_of_first?_eq_none hrest]
  rfl

theorem located_path : parts.located .path = [(id, "id"), (idLabel, "idPath")] := by
  rw [Operation.Parts.located, named]
  rfl

theorem located_nil {location : Location} (h : location = .query ∨ location = .header) :
    parts.located location = [] := by
  rw [Operation.Parts.located, named]
  rcases h with rfl | rfl <;> rfl

theorem firstOfPath?_id : parts.firstOfPath? "id" = some (id, "id") := by
  rw [Operation.Parts.firstOfPath?, located_path]
  rfl

theorem eq_of_sent {entry : Parameter × String} (h : parts.Sent path entry) :
    entry = (id, "id") := by
  cases h with
  | query h => exact absurd h (by simp [located_nil])
  | header h => exact absurd h (by simp [located_nil])
  | path hname hfirst =>
    rw [placeholders_path, List.mem_singleton] at hname
    rw [hname, firstOfPath?_id] at hfirst
    exact (Option.some.inj hfirst).symm

theorem eq_of_ambient {x : String} (h : parts.Ambient path x) :
    x = "opts" ∨ x = "encodeURIComponent" := by
  cases h with
  | options => exact .inl rfl
  | encoder _ => exact .inr rfl
  | body h => cases h
  | format h => cases h
  | query h => exact absurd (located_nil (.inl rfl)) h
  | placeholder hname hnone =>
    rw [placeholders_path, List.mem_singleton] at hname
    rw [hname, firstOfPath?_id] at hnone
    cases hnone

end PetOfSession

/-- A function asks for a parameter of a cookie and for one that stands twice in the path, and does
nothing with them. -/
theorem session_not_requested : ∃ (f : Function) (ctx : Context) (parts : Operation.Parts),
    (PetOfSession.operation.synthesize PetOfSession.env false PetOfSession.path PetOfSession.item
        .get).outcome {} = (.ok (some f), ctx) ∧
      parts.named = [(PetOfSession.id, "id"), (PetOfSession.idLabel, "idPath"),
        (PetOfSession.session, "session")] ∧
      (∃ optimistic kind typeArgs, f.body = Operation.callExpr optimistic kind typeArgs
        (parts.url PetOfSession.path) (parts.request .get)) ∧
      "id" ∈ parts.requested PetOfSession.path .get ∧
      "idPath" ∉ parts.requested PetOfSession.path .get ∧
      "session" ∉ parts.requested PetOfSession.path .get := by
  obtain ⟨f, ctx, hout⟩ := PetOfSession.outcome_synthesize
  obtain ⟨parts, hparts, hbody, hiff⟩ := Operation.argument_requested_iff hout
  obtain rfl := hparts.eq PetOfSession.resolves
  have hplaceholders : ∀ p ∈ PetOfSession.parts.params, p.location = .path →
      p.name ∈ placeholders PetOfSession.path := by
    rw [PetOfSession.placeholders_path]
    simp [PetOfSession.parts, PetOfSession.id, PetOfSession.idLabel, PetOfSession.session]
  have hiff := hiff hplaceholders
  rw [PetOfSession.named] at hiff
  have hother {x : String} (hx : x ∉ ["id", "opts", "encodeURIComponent"]) :
      ¬((∃ other, PetOfSession.parts.Sent PetOfSession.path other ∧ other.2 = x) ∨
        PetOfSession.parts.Ambient PetOfSession.path x) := by
    rintro (⟨other, hsent, rfl⟩ | hambient)
    · rw [PetOfSession.eq_of_sent hsent] at hx
      exact hx List.mem_cons_self
    · rcases PetOfSession.eq_of_ambient hambient with rfl | rfl <;> exact hx (by simp)
  refine ⟨f, ctx, _, hout, PetOfSession.named, hbody, ?_, fun h ↦ ?_, fun h ↦ ?_⟩
  · refine (hiff (PetOfSession.id, "id") (by simp)).2 (.inl ⟨by decide, fun h ↦ h.2 ?_⟩)
    exact PetOfSession.firstOfPath?_id
  · rcases (hiff (PetOfSession.idLabel, "idPath") (by simp)).1 h with ⟨-, hrepeated⟩ | h
    · refine hrepeated ⟨rfl, fun h ↦ ?_⟩
      rw [show PetOfSession.idLabel.name = "id" from rfl, PetOfSession.firstOfPath?_id] at h
      simp at h
    · exact hother (by decide) h
  · rcases (hiff (PetOfSession.session, "session") (by simp)).1 h with ⟨hcookie, -⟩ | h
    · exact hcookie rfl
    · exact hother (by decide) h

end ApiClient
