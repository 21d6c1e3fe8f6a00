import ApiClient.Proofs.Compile.EnumNames
import ApiClient.Proofs.Compile.SharedEnums
import ApiClient.Proofs.Operation.Arguments
import ApiClient.Proofs.Operation.AsciiOperations
import ApiClient.Proofs.Operation.ValueNames

/-!
# Legal names

In a module for an ASCII document every alias, every member of an enumeration, every function and
every name that a function binds has a name that is an identifier, since all of these are put
through the same conversion or are checked. The names of enumerations are not: they are identifiers
exactly if the texts that they are made from do not begin with a digit.
-/

namespace ApiClient

open TypeScript Names
open Text (isAscii)

/-! ## Functions -/

theorem Piece.subset_of_first? {cs before inside after : List Char}
    (h : first? cs = some (before, inside, after)) : before ⊆ cs ∧ inside ⊆ cs ∧ after ⊆ cs := by
  unfold first? at h
  split at h
  next => cases h
  next c rest hopen =>
    have hrest : rest ⊆ cs := fun d hd ↦
      List.dropWhile_subset _ (hopen ▸ List.mem_cons_of_mem _ hd)
    split at h
    next => cases h
    next d rest' hclose =>
      cases h
      refine ⟨List.takeWhile_subset _, List.Subset.trans (List.takeWhile_subset _) hrest,
        fun d hd ↦ hrest ?_⟩
      exact List.dropWhile_subset _ (hclose ▸ List.mem_cons_of_mem _ hd)

theorem ascii_spellPlaceholder {word path : List Char} (hword : ∀ c ∈ word, c.toNat < 0x80)
    (hpath : ∀ c ∈ path, c.toNat < 0x80) : ∀ c ∈ spellPlaceholder word path, c.toNat < 0x80 := by
  unfold spellPlaceholder
  split
  next before c inside after hfirst =>
    obtain ⟨hbefore, hinside, hafter⟩ := Piece.subset_of_first? hfirst
    have hspace : ' '.toNat < 0x80 := by decide
    intro d hd
    simp only [List.append_assoc, List.cons_append, List.mem_append, List.mem_cons] at hd
    rcases hd with hd | hd | rfl | hd | hd | hd
    · exact hpath d (hbefore hd)
    · exact hword d hd
    · exact hspace
    · exact hpath d (hinside (hd ▸ List.mem_cons_self))
    · exact hpath d (hinside (List.mem_cons_of_mem _ hd))
    · exact hpath d (hafter hd)
  next => exact hpath

theorem ascii_routeName (m : Method) {path : String} (h : isAscii path) :
    isAscii (routeName m.key path) := by
  have hby : isAscii "by" := by decide
  have hand : isAscii "and" := by decide
  have hspace : ' '.toNat < 0x80 := by decide
  rw [routeName, m.lowercase_key]
  refine Text.isAscii_iff.2 fun c hc ↦ Text.ascii_of_isAlphanum ?_
  refine Text.isAlphanum_camelCase (Text.isAscii_ofList.2 ?_) c hc
  rw [List.forall_mem_append, List.forall_mem_cons]
  refine ⟨fun c hc ↦ Text.ascii_of_isLower (m.isLower_key c hc), hspace, ?_⟩
  exact ascii_spellPlaceholder (Text.isAscii_iff.1 hand)
    (ascii_spellPlaceholder (Text.isAscii_iff.1 hby) (Text.isAscii_iff.1 h))

theorem isIdentifier_of_nameOfId? {id name : String} (h : nameOfId? id = some name) :
    isIdentifier name := by
  simp only [nameOfId?] at h
  split at h
  next hcond =>
    cases h
    exact (Bool.and_eq_true_iff.1 hcond).2
  next => cases h

theorem Endpoint.isIdentifier_wantedName {e : Endpoint} (h : isAscii e.path) :
    isIdentifier e.wantedName := by
  rw [wantedName, operationName]
  cases hid : e.operation.id.bind nameOfId? with
  | some name =>
    obtain ⟨id, -, hname⟩ := Option.bind_eq_some_iff.1 hid
    exact isIdentifier_of_nameOfId? hname
  | none =>
    rw [Option.getD_none]
    exact isIdentifier_toIdentifier (ascii_routeName e.method h) false .base

theorem Parameters.isIdentifier_argumentName (taken : List String) {p : Parameter}
    (h : isAscii p.name) : isIdentifier (argumentName taken p) := by
  have hname := isIdentifier_toIdentifier h false .base
  by_cases htaken : toIdentifier p.name ∈ taken
  · have halnum : (Text.upperFirst p.location.word).toList.all Char.isAlphanum := by
      cases p.location <;> decide
    have hcapital : (Text.upperFirst p.location.word).toList.any fun c ↦ !c.isLower := by
      cases p.location <;> decide
    obtain ⟨c, hc, hlower⟩ := List.any_eq_true.1 hcapital
    rw [argumentName_of_mem htaken]
    exact isIdentifier_append hname (List.all_eq_true.1 halnum) hc (by simpa using hlower)
  · rw [argumentName_of_not_mem htaken]
    exact hname

theorem Parameters.isIdentifier_of_mem_argumentNames {params : List Parameter}
    (h : ∀ p ∈ params, isAscii p.name) : ∀ x ∈ argumentNames params, isIdentifier x := by
  intro x hx
  obtain ⟨taken, p, hp, rfl⟩ := exists_argumentName_of_mem hx
  exact isIdentifier_argumentName taken (h p hp)

theorem Operation.isIdentifier_bodyArgument {c : RefOr Schema} (h : (Schema.nodeValue c).isAscii) :
    isIdentifier (bodyArgument c) := by
  have hbody : isAscii "body" := by decide
  rw [bodyArgument]
  refine isIdentifier_toIdentifier ?_ false .base
  cases c with
  | ref path => exact Pointer.ascii_baseName (Schema.ascii_nodeValue_ref.1 h)
  | inline s => exact hbody

namespace Operation

variable {env : Env} {upgraded : Bool} {item : PathItem} {op : Operation} {parts : Parts}

theorem isIdentifier_of_mem_bound (hroot : env.snapshot.root.isAscii)
    (hitem : item.toValue.isAscii) (hop : op.toValue.isAscii)
    (h : op.Resolves env upgraded item parts) : ∀ x ∈ parts.bound, isIdentifier x := by
  have hopts : isIdentifier "opts" := by decide
  intro x hx
  have hx := parts.perm_bound.mem_iff.1 hx
  rw [List.mem_cons, List.mem_append] at hx
  rcases hx with rfl | hx | hx
  · exact hopts
  · obtain ⟨b, hb, rfl⟩ := Option.map_eq_some_iff.1 (Option.mem_toList.1 hx)
    have hcontent := (RequestBody.ascii_toValue.1 (ascii_body hroot hop h.body b hb)).2
    exact isIdentifier_bodyArgument (Media.ascii_schemaOf hcontent)
  · refine Parameters.isIdentifier_of_mem_argumentNames (fun p hp ↦ ?_) x hx
    exact (Parameter.ascii_toValue.1 (ascii_resolvedParameters hroot hitem hop h.params p hp)).1

end Operation

/-! ## Declarations -/

/-- The names in a declaration, apart from that of an enumeration. -/
def convertedNames : Declaration → List String
  | .typeAlias name _ => [name]
  | .enum _ members => members.map EnumMember.name
  | .function f => f.name :: f.bound

/-- The schemas that the types of the functions for a document are made from. -/
def Prepared.Needs (prepared : Prepared) (settings : Settings) (c : RefOr Schema) : Prop :=
  ∃ e ∈ prepared.spec.endpoints,
    e.operation.Needs (prepared.env settings.options) settings.upgraded e.item c

/-- An enumeration with a name and members is made from a schema that is compiled under a name: the
members are those of the schema, and the name is the one that it proposes, or this name with a
number. -/
structure MadeFrom (env : Env) (start : RefOr Schema → Prop) (x : String)
    (members : List EnumMember) (s : Schema) (name : String) : Prop where
  visited : env.VisitsAs start (.inline s) name
  values : enumMembers (s.enumValues.getD []) s.memberNames = .ok members
  proposed : Suffixed (s.proposal name) x

/-- The members of an enumeration have legal names, and its own name is proposed by its schema. -/
structure LegalMembers (env : Env) (start : RefOr Schema → Prop) (x : String)
    (members : List EnumMember) : Prop where
  legal : ∀ member ∈ members, isIdentifier member.name
  made : ∃ s name, MadeFrom env start x members s name

theorem lasts_legal (env : Env) (start : RefOr Schema → Prop) :
    Lasts (fun c ↦ (Schema.nodeValue c).isAscii ∧ env.Visits start c)
      (fun c t ↦ isAscii t ∧ env.VisitsAs start c t)
      (Context.Kinds (fun name ↦ isIdentifier name) (LegalMembers env start)) := by
  refine lasts_kinds (fun s name mode counts hname ↦ ?_)
    fun s name counts members hs hname hmembers ↦ ?_
  · exact isIdentifier_of_suffixed (suffixed_allocate _ _)
      (isIdentifier_toIdentifier hname.1 true mode)
  · have hascii := Schema.ascii_nodeValue_inline.1 hs.1
    exact ⟨isIdentifier_of_enumMembers hascii.enumValues hascii.memberNames hmembers, s, name,
      hname.2, hmembers, suffixed_allocate _ _⟩

theorem legal_of_functions {env : Env} (hroot : env.snapshot.root.isAscii) {upgraded : Bool}
    {endpoints : List Endpoint}
    (hendpoints : ∀ e ∈ endpoints, isAscii e.path ∧ e.item.toValue.isAscii ∧
      e.operation.toValue.isAscii) {start : RefOr Schema → Prop}
    (hstart : ∀ e ∈ endpoints, ∀ c, e.operation.Needs env upgraded e.item c → start c)
    {fs : List Function} {ctx : Context}
    (h : (functions env upgraded endpoints).outcome {} = (.ok fs, ctx)) :
    ctx.Kinds (fun name ↦ isIdentifier name) (LegalMembers env start) ∧
      ∀ f ∈ fs, isIdentifier f.name ∧ ∀ x ∈ f.bound, isIdentifier x := by
  have hschemas : Operation.SchemasPreserve env
      (fun c ↦ (Schema.nodeValue c).isAscii ∧ env.Visits start c)
      (Context.Kinds (fun name ↦ isIdentifier name) (LegalMembers env start)) :=
    fun node mode hnode ↦ (lasts_legal env start).schemaType
      (inherited_ascii.and (env.inherited_visits start))
      ((leads_ascii hroot).and (env.leads_visits start)) hnode mode
  have hcompiles : ∀ e ∈ endpoints, e.operation.Compiles env upgraded e.item fun c ↦
      (Schema.nodeValue c).isAscii ∧ env.Visits start c := by
    intro e he
    obtain ⟨-, hitem, hop⟩ := hendpoints e he
    refine Operation.compiles_iff.2 fun c hc ↦ ⟨?_, .start (hstart e he c hc)⟩
    exact Operation.compiles_iff.1 (Operation.compiles_ascii hroot hitem hop) c hc
  refine ⟨preserves_functions hschemas preserves_reserve hcompiles {} fs ctx ⟨by simp, by simp⟩ h,
    fun f hf ↦ ⟨?_, ?_⟩⟩
  · have hname := List.mem_map_of_mem (f := Function.name) hf
    rw [names_of_functions h] at hname
    obtain ⟨wanted, hwanted, hsuffixed⟩ := exists_suffixed_of_mem_giveAll hname
    obtain ⟨e, he, rfl⟩ := List.mem_map.1 hwanted
    obtain ⟨hpath, -⟩ := hendpoints e (List.mem_filter.1 he).1
    exact isIdentifier_of_suffixed hsuffixed (Endpoint.isIdentifier_wantedName hpath)
  · obtain ⟨e, he, ctx₁, ctx₂, hout⟩ := synthesize_of_mem_functions h hf
    obtain ⟨-, hitem, hop⟩ := hendpoints e (List.mem_filter.1 he).1
    obtain ⟨-, parts, hparts, hassembled⟩ := Operation.assembled_of_synthesize hout
    rw [hassembled.bound]
    exact Operation.isIdentifier_of_mem_bound hroot hitem hop hparts

/-- In a module for an ASCII document every name is an identifier, apart from those of enumerations.
An enumeration has the name that its schema proposes by its title or else by the name that it is
compiled under. This is an identifier exactly if the first character of that text that can be part
of a name is not a digit. -/
theorem declared_names_legal {spec : Spec} (hascii : spec.toValue.isAscii) {settings : Settings}
    {ds : List Declaration} (h : declarations spec.prepare settings = .ok ds) :
    (∀ d ∈ ds, ∀ x ∈ convertedNames d, isIdentifier x) ∧
      ∀ x members, .enum x members ∈ ds → ∃ s name,
        MadeFrom (spec.prepare.env settings.options) (spec.prepare.Needs settings) x members s
          name ∧
        (isIdentifier x ↔ ∃ c ∈ (nameChars (s.title.getD (Text.upperFirst name))).head?,
          c.isDigit = false) := by
  have hprepared := Spec.ascii_prepare hascii
  obtain ⟨fs, ctx, hfunctions, rfl⟩ := declarations_eq_ok.1 h
  have hroot : (spec.prepare.env settings.options).snapshot.root.isAscii := hprepared
  obtain ⟨hkinds, hfs⟩ := legal_of_functions hroot
    (fun e he ↦ Spec.ascii_of_mem_endpoints hprepared he)
    (fun e he c hc ↦ (⟨e, he, hc⟩ : spec.prepare.Needs settings c)) hfunctions
  refine ⟨fun d hd ↦ ?_, fun x members hx ↦ ?_⟩
  · rw [List.mem_append, List.mem_append] at hd
    rcases hd with (hd | hd) | hd
    · obtain ⟨name, t, rfl, hname⟩ := hkinds.types d hd
      simpa [convertedNames] using hname
    · obtain ⟨f, hf, rfl⟩ := List.mem_map.1 hd
      obtain ⟨hname, hbound⟩ := hfs f hf
      intro x hx
      rcases List.mem_cons.1 hx with rfl | hx
      · exact hname
      · exact hbound x hx
    · obtain ⟨name, members, rfl, henum⟩ := hkinds.enums d hd
      intro x hx
      obtain ⟨member, hmember, rfl⟩ := List.mem_map.1 hx
      exact henum.legal member hmember
  · obtain ⟨s, name, hmade⟩ := (hkinds.of_enum_mem hx).made
    exact ⟨s, name, hmade, isIdentifier_iff_of_proposed hmade.proposed⟩

namespace DigitProperty

def object : Schema :=
  { properties := some [("2fa", .inline (labels ["sms"]))] }

def parameter : Parameter where
  name := "kind"
  location := .query
  schema := some (.inline object)

def operation : Operation where
  parameters := [.inline parameter]

def item : PathItem where
  operation := fun m ↦ if m = .get then some operation else none

def spec : Spec where
  version := "3.0.3"
  info := { title := "t", version := "1" }
  paths := [("/pets", item)]

def settings : Settings :=
  { options := { namedEnums := true, singleMode := true } }

def env : Env := spec.prepare.env settings.options

theorem endpoints_prepare : spec.prepare.spec.endpoints = [⟨"/pets", item, .get, operation⟩] :=
  rfl

theorem ascii_object : object.IsAscii := by
  have hlabels : (labels ["sms"]).IsAscii := by
    have hsms : isAscii "sms" := by decide
    constructor <;> simp [labels, hsms]
  have hname : isAscii "2fa" := by decide
  constructor <;> simp [object, hname, Schema.ascii_nodeValue_inline.2 hlabels]

theorem ascii_toValue : spec.toValue.isAscii := by
  have htexts : isAscii "3.0.3" ∧ isAscii "/pets" ∧ isAscii "kind" := by decide
  have hinfo : spec.info.toValue.isAscii := by decide
  have hparameter : parameter.toValue.isAscii := by
    refine Parameter.ascii_toValue.2 ⟨htexts.2.2, ?_⟩
    simp [parameter, Media.IsAscii, Schema.ascii_nodeValue_inline.2 ascii_object]
  have hoperation : operation.toValue.isAscii := by
    refine Operation.ascii_toValue.2 ?_
    simp [operation, RefOr.toValue, hparameter]
  have hitem : item.toValue.isAscii := by
    have hoperations : item.operations = [(.get, operation)] := rfl
    refine PathItem.ascii_toValue.2 ⟨by simp [item], by simp [item], by simp [item], ?_⟩
    simp [hoperations, hoperation]
  refine Spec.ascii_toValue.2 ⟨htexts.1, hinfo, ?_⟩
  simp [spec, htexts.2.1, hitem]

/-- The enumeration of the property is declared under the name of the property. -/
theorem outcome_object (ctx : Context) (henums : ctx.enums = []) : ∃ t,
    (env.schemaType (some (.inline object)) none .write).outcome ctx =
      (.ok t, (Labels.declared ctx "2fa" "2fa" ["sms"]).after) := by
  have hmarks : env.ownMarks (.inline (labels ["sms"])) = ⟨false, false⟩ := rfl
  have hdeclares : env.options.declaresEnum (labels ["sms"]) "2fa" = true := rfl
  have hvalues : (labels ["sms"]).enumValues = some [.str "sms"] := rfl
  have hsimple : simpleType env (labels ["sms"]) (some "2fa") =
      declareEnum (labels ["sms"]) "2fa" := by
    simp only [simpleType, hvalues, hdeclares, if_true]
  have hshape : ¬(labels ["sms"]).hasObjectShape = true := Bool.false_ne_true
  have hlabels : nodeType env (.inline (labels ["sms"])) (some "2fa") .write =
      .act (declareEnum (labels ["sms"]) "2fa") .done := by
    rw [nodeType, plainType_simple _ _ _ rfl rfl rfl rfl rfl rfl hshape, hsimple]
    rfl
  have hplan : ∃ next : Ty → Ty, schemaPlan env (some (.inline object)) none .write =
      .act (declareEnum (labels ["sms"]) "2fa") fun t ↦ .done (next t) := by
    rw [schemaPlan, nodeType, plainType_object _ _ _ rfl rfl rfl rfl rfl rfl rfl, objectType]
    simp only [object, Option.getD_some, memberTypes, hmarks, Mode.keeps, hlabels, additionalType]
    exact ⟨_, rfl⟩
  have hkey : proposedName (Text.upperFirst "2fa") = "2fa" := by
    decide +kernel
  have hother : ∀ entry, Table.get? "2fa" ctx.enums = some entry →
      entry.signature ≠ Text.join "_" ["sms"] := by simp [henums]
  obtain ⟨next, hplan⟩ := hplan
  have hends := env.ends_schemaPlan (some (.inline object)) none .write ctx
  rw [hplan] at hends
  have hsound := Labels.sound_declared hkey hother
  exact ⟨_, hends.unique ⟨[], .act hsound (.done _)⟩⟩

theorem resolves : operation.Resolves env false item ⟨[parameter], none⟩ :=
  ⟨rfl, rfl⟩

theorem argumentNames_parameter : Parameters.argumentNames [parameter] = ["kind"] := by
  decide +kernel

/-- The context after a name for the function has been reserved. -/
def reserved : Context where
  functionNames := (reserve (operationName operation.id Method.get.key "/pets") []).2

theorem outcome_synthesize : ∃ f ctx members,
    (operation.synthesize env false "/pets" item .get).outcome {} = (.ok (some f), ctx) ∧
      .enum "2fa" members ∈ ctx.enumDeclarations := by
  have hnamed : Operation.Parts.named ⟨[parameter], none⟩ = [(parameter, "kind")] := by
    rw [Operation.Parts.named, argumentNames_parameter]
    rfl
  have hskips : env.options.skips operation.tags = false := rfl
  have hrequired (ctx : Context) : (Operation.requiredParams env (Operation.Parts.named
      ⟨[parameter], none⟩)).outcome ctx = (.ok [], ctx) := by
    rw [hnamed]
    rfl
  have hoptional : ∃ members, (Operation.optionalMembers env (Operation.Parts.named
      ⟨[parameter], none⟩)).outcome reserved =
        (.ok members, (Labels.declared reserved "2fa" "2fa" ["sms"]).after) := by
    obtain ⟨t, htype⟩ := outcome_object reserved rfl
    have hparameter : Operation.parameterType env parameter =
        env.schemaType (some (.inline object)) none .write := rfl
    have hleft : ¬parameter.required = true := by decide
    rw [hnamed, Operation.optionalMembers, if_neg hleft, hparameter, Build.outcome_bind_ok htype]
    exact ⟨_, rfl⟩
  obtain ⟨members, hmembers⟩ := hoptional
  have hsynthesize : ∃ f, (operation.synthesize env false "/pets" item .get).outcome {} =
      (.ok (some f), (Labels.declared reserved "2fa" "2fa" ["sms"]).after) :=
    Operation.synthesize_of_parts hskips resolves rfl (hrequired _) hmembers
  obtain ⟨f, hf⟩ := hsynthesize
  exact ⟨f, _, _, hf, List.mem_append_right _ List.mem_cons_self⟩

end DigitProperty

/-- An enumeration that is named by a property with a leading digit has no legal name, while the
other names around it are legal. -/
theorem digit_enum_declared : ∃ ds members,
    declarations DigitProperty.spec.prepare DigitProperty.settings = .ok ds ∧
      (∀ d ∈ ds, ∀ x ∈ convertedNames d, isIdentifier x) ∧
      .enum "2fa" members ∈ ds ∧ ¬isIdentifier "2fa" ∧
      ∃ s name, MadeFrom DigitProperty.env (DigitProperty.spec.prepare.Needs DigitProperty.settings)
        "2fa" members s name := by
  obtain ⟨f, ctx, members, hf, hmember⟩ := DigitProperty.outcome_synthesize
  have hds : declarations DigitProperty.spec.prepare DigitProperty.settings =
      .ok (ctx.typeDeclarations ++ [.function f] ++ ctx.enumDeclarations) :=
    declarations_of_endpoint DigitProperty.endpoints_prepare hf
  obtain ⟨hnames, henums⟩ := declared_names_legal DigitProperty.ascii_toValue hds
  have hdigit : ¬isIdentifier "2fa" := by decide
  have hdeclared := List.mem_append_right (ctx.typeDeclarations ++ [.function f]) hmember
  obtain ⟨s, name, hmade, -⟩ := henums _ _ hdeclared
  exact ⟨_, members, hds, hnames, hdeclared, hdigit, s, name, hmade⟩

end ApiClient
