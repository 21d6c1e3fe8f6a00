import ApiClient.Proofs.Compile.EnumNames
import ApiClient.Proofs.Compile.FunctionNames
import ApiClient.Proofs.Operation.Invariants

/-!
# The values that a module names

A module gives names to its imports, to its constants, to its functions and to its enumerations. The
names of each of these four begin in their own way: functions with a small letter, enumerations with
anything else. So names can only clash in a few ways: a function is called like a constant, an
enumeration like an import or like another one, and a function that begins with a dollar sign like
an enumeration that does so.
-/

namespace ApiClient

open TypeScript Names

def importNames : List String := ["Runtime", "QS"]

def constantNames : List String := ["defaults", "runtime", "servers"]

def Declaration.functionName? : Declaration → Option String
  | .function f => some f.name
  | _ => none

def Declaration.enumName? : Declaration → Option String
  | .enum name _ => some name
  | _ => none

def declaredFunctions (ds : List Declaration) : List String :=
  ds.filterMap Declaration.functionName?

def declaredEnums (ds : List Declaration) : List String :=
  ds.filterMap Declaration.enumName?

/-- The names of the values that a module with these declarations has. -/
def valueNames (ds : List Declaration) : List String :=
  importNames ++ constantNames ++ declaredFunctions ds ++ declaredEnums ds

/-! ## How names begin -/

namespace Method

theorem isLower_key (m : Method) : ∀ c ∈ m.key.toList, c.isLower := by
  apply List.all_eq_true.1
  cases m <;> decide

theorem key_ne_nil (m : Method) : m.key.toList ≠ [] := by
  cases m <;> decide

theorem lowercase_key (m : Method) : Text.lowercase m.key.toList = m.key.toList := by
  cases m <;> decide +kernel

end Method

/-- A name for a route begins with the method. -/
theorem key_prefix_routeName (m : Method) (path : String) :
    m.key.toList <+: (routeName m.key path).toList := by
  rw [routeName, m.lowercase_key]
  refine Text.prefix_camelCase m.isLower_key m.key_ne_nil ?_
  rw [String.toList_ofList]
  exact List.prefix_append _ _

theorem toIdentifier_base (s : String) :
    toIdentifier s = Text.camelCase s ∨ toIdentifier s = "$" ++ Text.camelCase s := by
  have hending : Text.camelCase s ++ Mode.base.ending = Text.camelCase s := String.append_empty
  simp only [toIdentifier, Bool.false_eq_true, if_false, hending]
  split
  · exact .inl rfl
  · exact .inr rfl

theorem fallback_begins (m : Method) (path : String) :
    m.key.toList <+: (toIdentifier (routeName m.key path)).toList ∨
      (toIdentifier (routeName m.key path)).toList.head? = some '$' := by
  rcases toIdentifier_base (routeName m.key path) with hname | hname
  · rw [hname]
    exact .inl (Text.prefix_camelCase m.isLower_key m.key_ne_nil (key_prefix_routeName m path))
  · rw [hname, String.toList_append]
    exact .inr rfl

theorem nameOfId?_begins {id name : String} (h : nameOfId? id = some name) :
    ∃ c, name.toList.head? = some c ∧ c.isLower := by
  simp only [nameOfId?] at h
  split at h
  next hcond =>
    cases h
    obtain ⟨hwords, hidentifier⟩ := Bool.and_eq_true_iff.1 hcond
    have hascii : ∀ c ∈ id.toList, Text.isAlphanumeric c → c.isAlphanum := by
      intro c hc halnum
      have hclass := List.all_eq_true.1 hwords c hc
      simp only [Bool.or_eq_true, beq_iff_eq] at hclass
      rcases hclass with (hclass | rfl) | hblank
      · exact hclass
      · exact absurd halnum (by decide)
      · rw [Text.not_isAlphanumeric_of_isBlank hblank] at halnum
        cases halnum
    unfold isIdentifier at hidentifier
    split at hidentifier
    next => cases hidentifier
    next c rest hname =>
      have hhead : (Text.camelCase id).toList.head? = some c := by rw [hname, List.head?_cons]
      obtain ⟨d, hd, halnum, rfl⟩ := Text.head?_camelCase
        (fun c hc h ↦ Text.ascii_of_isAlphanum (hascii c hc h)) hhead
      have hd := hascii d hd halnum
      have hstarts : startsIdentifier d.toLower := by
        simp only [Bool.and_eq_true] at hidentifier
        exact hidentifier.1.1
      have htable := Text.forall_ascii (p := fun d ↦
        !d.isAlphanum || !startsIdentifier d.toLower || d.toLower.isLower) (by decide)
        (Text.ascii_of_isAlphanum hd)
      exact ⟨_, hhead, by simpa [hd, hstarts] using htable⟩
  next => cases h

theorem Endpoint.wantedName_begins (e : Endpoint) :
    ∃ c, e.wantedName.toList.head? = some c ∧ (c.isLower ∨ c = '$') := by
  rw [wantedName, operationName]
  cases hid : e.operation.id.bind nameOfId? with
  | some name =>
    obtain ⟨id, -, hname⟩ := Option.bind_eq_some_iff.1 hid
    obtain ⟨c, hc, hlower⟩ := nameOfId?_begins hname
    exact ⟨c, hc, .inl hlower⟩
  | none =>
    rw [Option.getD_none]
    rcases fallback_begins e.method e.path with ⟨rest, hname⟩ | hdollar
    · obtain ⟨c, cs, hkey⟩ := List.exists_cons_of_ne_nil e.method.key_ne_nil
      refine ⟨c, by rw [← hname, hkey]; rfl, .inl (e.method.isLower_key c ?_)⟩
      rw [hkey]
      exact List.mem_cons_self
    · exact ⟨'$', hdollar, .inr rfl⟩

/-- The name of an operation is that of a constant only if its identifier says so. -/
theorem Endpoint.wantedName_mem_constantNames (e : Endpoint) :
    e.wantedName ∈ constantNames ↔
      ∃ name ∈ e.operation.id.bind nameOfId?, name ∈ constantNames := by
  have hkeys : ∀ name ∈ constantNames, ¬e.method.key.toList <+: name.toList := by
    cases e.method <;> decide
  have hdollar : ∀ name ∈ constantNames, name.toList.head? ≠ some '$' := by decide
  rw [wantedName, operationName]
  cases e.operation.id.bind nameOfId? with
  | some name => simp
  | none =>
    rw [Option.getD_none]
    refine iff_of_false (fun hmem ↦ ?_) (by simp)
    rcases fallback_begins e.method e.path with hkey | hhead
    · exact hkeys _ hmem hkey
    · exact hdollar _ hmem hhead

/-! ## The names of a module -/

section

variable {ctx : Context} {T : String → Prop} {E : String → List EnumMember → Prop}

theorem Context.Kinds.declaredFunctions_eq (h : ctx.Kinds T E) (fs : List Function) :
    declaredFunctions (ctx.typeDeclarations ++ fs.map .function ++ ctx.enumDeclarations) =
      fs.map Function.name := by
  have htypes : ctx.typeDeclarations.filterMap Declaration.functionName? = [] := by
    refine List.filterMap_eq_nil_iff.2 fun d hd ↦ ?_
    obtain ⟨name, t, rfl, -⟩ := h.types d hd
    rfl
  have henums : ctx.enumDeclarations.filterMap Declaration.functionName? = [] := by
    refine List.filterMap_eq_nil_iff.2 fun d hd ↦ ?_
    obtain ⟨name, members, rfl, -⟩ := h.enums d hd
    rfl
  rw [declaredFunctions, List.filterMap_append, List.filterMap_append, htypes, henums,
    List.filterMap_map, List.nil_append, List.append_nil]
  exact congrFun (List.filterMap_eq_map (f := Function.name)) fs

theorem Context.Kinds.of_enum_mem (h : ctx.Kinds T E) {fs : List Function} {name : String}
    {members : List EnumMember}
    (hmem : .enum name members ∈
      ctx.typeDeclarations ++ fs.map .function ++ ctx.enumDeclarations) : E name members := by
  rcases List.mem_append.1 hmem with hmem | hmem
  · rcases List.mem_append.1 hmem with hmem | hmem
    · obtain ⟨name', t, heq, -⟩ := h.types _ hmem
      cases heq
    · obtain ⟨f, -, heq⟩ := List.mem_map.1 hmem
      cases heq
  · obtain ⟨name', members', heq, hE⟩ := h.enums _ hmem
    cases heq
    exact hE

theorem mem_declaredEnums {ds : List Declaration} {name : String} :
    name ∈ declaredEnums ds ↔ ∃ members, .enum name members ∈ ds := by
  constructor
  · intro h
    obtain ⟨d, hd, hname⟩ := List.mem_filterMap.1 h
    cases d with
    | enum name' members =>
      cases hname
      exact ⟨members, hd⟩
    | typeAlias | function => cases hname
  · rintro ⟨members, h⟩
    exact List.mem_filterMap.2 ⟨_, h, rfl⟩

end

/-- Where the names of functions and of enumerations come from. -/
theorem names_of_declarations {prepared : Prepared} {settings : Settings} {ds : List Declaration}
    (h : declarations prepared settings = .ok ds) :
    declaredFunctions ds = (giveAll reserve (((prepared.env settings.options).operations
      prepared.spec.endpoints).map Endpoint.wantedName) []).1 ∧
    ∀ name ∈ declaredEnums ds, ∃ base, Suffixed (proposedName base) name := by
  obtain ⟨fs, ctx, hfunctions, rfl⟩ := declarations_eq_ok.1 h
  have hlasts : Lasts (fun _ ↦ True) (fun _ _ ↦ True) (Context.Kinds (fun _ ↦ True)
      fun name _ ↦ ∃ base, Suffixed (proposedName base) name) :=
    lasts_kinds (fun _ _ _ _ _ ↦ trivial) fun s name counts _ _ _ _ ↦ ⟨_, suffixed_allocate _ _⟩
  have hkinds :
      ctx.Kinds (fun _ ↦ True) fun name _ ↦ ∃ base, Suffixed (proposedName base) name := by
    refine preserves_functions (fun node mode _ ↦ ?_) preserves_reserve
      (fun e _ ↦ compiles_trivial _ _ _ _) {} fs ctx ⟨by simp, by simp⟩ hfunctions
    exact hlasts.schemaType inherited_trivial (leads_trivial _) (by simp) mode
  refine ⟨?_, fun name hname ↦ ?_⟩
  · rw [hkinds.declaredFunctions_eq, names_of_functions hfunctions]
  · obtain ⟨members, hmem⟩ := mem_declaredEnums.1 hname
    exact hkinds.of_enum_mem hmem

section

variable {prepared : Prepared} {settings : Settings} {ds : List Declaration}

theorem begins_of_mem_declaredFunctions (h : declarations prepared settings = .ok ds)
    {name : String} (hname : name ∈ declaredFunctions ds) :
    ∃ c, name.toList.head? = some c ∧ (c.isLower ∨ c = '$') := by
  obtain ⟨hfunctions, -⟩ := names_of_declarations h
  obtain ⟨w, hw, hsuffixed⟩ := exists_suffixed_of_mem_giveAll (hfunctions ▸ hname)
  obtain ⟨e, -, rfl⟩ := List.mem_map.1 hw
  obtain ⟨c, hc, hclass⟩ := e.wantedName_begins
  have hne : e.wantedName.toList ≠ [] := fun hnil ↦ by simp [hnil] at hc
  exact ⟨c, (hsuffixed.head?_eq hne).trans hc, hclass⟩

theorem begins_of_mem_declaredEnums (h : declarations prepared settings = .ok ds) {name : String}
    (hname : name ∈ declaredEnums ds) : ∀ c ∈ name.toList.head?, c.isLower = false := by
  obtain ⟨base, hsuffixed⟩ := (names_of_declarations h).2 name hname
  exact not_isLower_of_proposed hsuffixed

/-- A function is called like a constant exactly if an operation asks for that. -/
theorem constant_mem_declaredFunctions (h : declarations prepared settings = .ok ds) :
    (∃ name ∈ constantNames, name ∈ declaredFunctions ds) ↔
      ∃ e ∈ (prepared.env settings.options).operations prepared.spec.endpoints,
        ∃ name ∈ e.operation.id.bind nameOfId?, name ∈ constantNames := by
  have htable : ∀ name ∈ constantNames, name.toList.getLast?.all fun c ↦ !c.isDigit := by decide
  have hlast : ∀ name ∈ constantNames, ∀ c ∈ name.toList.getLast?, c.isDigit = false := by
    intro name hname c hc
    simpa [Option.mem_def.1 hc] using htable name hname
  rw [(names_of_declarations h).1]
  constructor
  · rintro ⟨name, hconstant, hname⟩
    obtain ⟨e, he, rfl⟩ := List.mem_map.1 ((mem_giveAll_reserve (hlast name hconstant)).1 hname)
    exact ⟨e, he, e.wantedName_mem_constantNames.1 hconstant⟩
  · rintro ⟨e, he, hid⟩
    have hconstant := e.wantedName_mem_constantNames.2 hid
    have hwanted := List.mem_map_of_mem (f := Endpoint.wantedName) he
    exact ⟨e.wantedName, hconstant, (mem_giveAll_reserve (hlast _ hconstant)).2 hwanted⟩

/-- Imports begin with capitals. -/
theorem import_notMem_declaredFunctions (h : declarations prepared settings = .ok ds)
    {name : String} (himport : name ∈ importNames) : name ∉ declaredFunctions ds := by
  intro hname
  obtain ⟨c, hc, hclass⟩ := begins_of_mem_declaredFunctions h hname
  have hcapital : ∀ name ∈ importNames,
      name.toList.head?.all fun c ↦ !c.isLower && c != '$' := by decide
  obtain ⟨hlower, hdollar⟩ : c.isLower = false ∧ c ≠ '$' := by
    simpa [hc] using hcapital name himport
  rcases hclass with hclass | hclass
  · rw [hlower] at hclass
    cases hclass
  · exact hdollar hclass

/-- Constants begin with small letters. -/
theorem constant_notMem_declaredEnums (h : declarations prepared settings = .ok ds)
    {name : String} (hconstant : name ∈ constantNames) : name ∉ declaredEnums ds := by
  intro hname
  have hsmall : ∀ name ∈ constantNames, name.toList.head?.any Char.isLower := by decide
  obtain ⟨c, hc, hlower⟩ := (Option.any_eq_true _ _).1 (hsmall name hconstant)
  rw [begins_of_mem_declaredEnums h hname c hc] at hlower
  cases hlower

/-- A name that a function and an enumeration have begins with a dollar sign. -/
theorem head?_of_mem_both (h : declarations prepared settings = .ok ds) {name : String}
    (hfunction : name ∈ declaredFunctions ds) (henum : name ∈ declaredEnums ds) :
    name.toList.head? = some '$' := by
  obtain ⟨c, hc, hlower | rfl⟩ := begins_of_mem_declaredFunctions h hfunction
  · rw [begins_of_mem_declaredEnums h henum c hc] at hlower
    cases hlower
  · exact hc

/-- The names of the values of a module are distinct exactly if no identifier of an operation gives
the name of a constant, and the enumerations have names that are distinct, not those of imports, and
not those of functions that begin with a dollar sign. -/
theorem valueNames_nodup_iff (h : declarations prepared settings = .ok ds) :
    (valueNames ds).Nodup ↔
      (∀ e ∈ (prepared.env settings.options).operations prepared.spec.endpoints,
        ∀ name ∈ e.operation.id.bind nameOfId?, name ∉ constantNames) ∧
      (declaredEnums ds).Nodup ∧
      ∀ name ∈ declaredEnums ds, name ∉ importNames ∧
        (name.toList.head? = some '$' → name ∉ declaredFunctions ds) := by
  have hfixed : (importNames ++ constantNames).Nodup := by decide
  have hfunctions : (declaredFunctions ds).Nodup :=
    (names_of_declarations h).1 ▸ (giveAll_reserve_nodup _ _).1
  have hconstants := constant_mem_declaredFunctions h
  rw [valueNames, List.nodup_append', List.nodup_append']
  constructor
  · rintro ⟨⟨-, -, hapart⟩, hnodup, hrest⟩
    refine ⟨fun e he name hid hname ↦ ?_, hnodup,
      fun name hname ↦ ⟨fun himport ↦ ?_, fun _ hmem ↦ ?_⟩⟩
    · obtain ⟨name, hconstant, hfunction⟩ := hconstants.2 ⟨e, he, name, hid, hname⟩
      exact hapart (List.mem_append_right _ hconstant) hfunction
    · exact hrest (List.mem_append_left _ (List.mem_append_left _ himport)) hname
    · exact hrest (List.mem_append_right _ hmem) hname
  · rintro ⟨hids, hnodup, hrest⟩
    refine ⟨⟨hfixed, hfunctions, fun name hname hfunction ↦ ?_⟩, hnodup, fun name hname henum ↦ ?_⟩
    · rcases List.mem_append.1 hname with himport | hconstant
      · exact import_notMem_declaredFunctions h himport hfunction
      · obtain ⟨e, he, name, hid, hname⟩ := hconstants.1 ⟨name, hconstant, hfunction⟩
        exact hids e he name hid hname
    · rcases List.mem_append.1 hname with hname | hfunction
      · rcases List.mem_append.1 hname with himport | hconstant
        · exact (hrest name henum).1 himport
        · exact constant_notMem_declaredEnums h hconstant henum
      · exact (hrest name henum).2 (head?_of_mem_both h hfunction henum) hfunction

end

namespace ServersOperation

def operation : Operation where
  id := some "servers"

def item : PathItem where
  operation := fun m ↦ if m = .get then some operation else none

def spec : Spec where
  version := "3.0.3"
  info := { title := "t", version := "1" }
  paths := [("/servers", item)]

theorem endpoints_prepare : spec.prepare.spec.endpoints = [⟨"/servers", item, .get, operation⟩] :=
  rfl

theorem outcome_declarations : ∃ ds, declarations spec.prepare {} = .ok ds := by
  have hresolves : operation.Resolves (spec.prepare.env {}) false item ⟨[], none⟩ := ⟨rfl, rfl⟩
  have hskips : (spec.prepare.env {}).options.skips operation.tags = false := rfl
  obtain ⟨f, hf⟩ := Operation.synthesize_of_parts hskips hresolves rfl rfl rfl
  exact ⟨_, declarations_of_endpoint endpoints_prepare hf⟩

end ServersOperation

/-- A function called `servers` clashes with the constant of that name. -/
theorem servers_declared_twice : ∃ ds, declarations ServersOperation.spec.prepare {} = .ok ds ∧
    ¬(valueNames ds).Nodup := by
  obtain ⟨ds, hds⟩ := ServersOperation.outcome_declarations
  refine ⟨ds, hds, fun hnodup ↦ ?_⟩
  obtain ⟨hids, -, -⟩ := (valueNames_nodup_iff hds).1 hnodup
  have hname : "servers" ∈ ServersOperation.operation.id.bind nameOfId? := by
    decide +kernel
  have hoperations : (ServersOperation.spec.prepare.env {}).operations
      ServersOperation.spec.prepare.spec.endpoints =
      [⟨"/servers", ServersOperation.item, .get, ServersOperation.operation⟩] := rfl
  exact hids _ (hoperations ▸ List.mem_cons_self) "servers" hname (by decide)

end ApiClient
