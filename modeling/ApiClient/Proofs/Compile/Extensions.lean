import ApiClient.Proofs.Compile.EnumReferences
import ApiClient.Proofs.Document.ComponentReferences
import ApiClient.Proofs.Document.FreeReferences

/-!
# Discriminating components and their extensions

The union that stands for a discriminating component and the tags that its extensions carry are made
from one mapping. An extension with an entry in the mapping is a member of the union, and its tag
has a value that the mapping leads to it. An extension whose name the mapping uses for something
else gets no entry, and one that is declared as an enumeration has no tag.
-/

namespace ApiClient

open TypeScript
open Pointer (componentName? ofComponent)

/-- An inline component extends a discriminating one through `allOf`, and is neither a union nor
discriminating itself. -/
structure Spec.Extends (spec : Spec) (child parent : String) (c p : Schema) (d : Discriminator)
    (property : String) : Prop where
  base : Table.get? parent spec.schemas = some (.inline p)
  discriminates : p.isDiscriminating = true
  discriminator : p.discriminator = some d
  property : d.property = some property
  extension : Table.get? child spec.schemas = some (.inline c)
  noOneOf : c.oneOf = none
  noAnyOf : c.anyOf = none
  inert : c.isDiscriminating = false
  parent : parent ∈ c.parents

/-- The declared types of a component and of an extension agree on the value that tells the
extension apart. -/
structure Context.Agrees (ctx : Context) (env : Env) (child parent : String) (c p : Schema)
    (property value : String) : Prop where
  union : ∀ key mode name, componentName? key = some parent → ctx.name? key mode = some name →
    ∃ members, .typeAlias name (orNull p (.unionOf members)) ∈ ctx.typeDeclarations ∧
      ∃ t ∈ members, ctx.Answered env (ofComponent child) mode false t
  tagged : ∀ key mode name, componentName? key = some child → ctx.name? key mode = some name →
    ∃ factors, .typeAlias name (orNull c (.inter factors)) ∈ ctx.typeDeclarations ∧
      tag property value ∈ factors

/-! ## Plans -/

section

variable {V : (σ : Type) → Build σ → σ → Prop} {R : String → Mode → Bool → Ty → Prop} {env : Env}
  {mode : Mode}

open Plan (Always)

theorem followAll_always {paths : List String} {path : String} (hpath : path ∈ paths) :
    (followAll mode paths).Always V R fun ts ↦ ∃ t ∈ ts, R path mode false t := by
  induction paths with
  | nil => cases hpath
  | cons first rest ih =>
    refine .bind (.follow fun t ht ↦ .bind ?_)
    rcases List.mem_cons.1 hpath with rfl | hrest
    · exact .of_forall fun ts ↦ ⟨t, List.mem_cons_self, ht⟩
    · refine (ih hrest).mono ?_
      rintro ts ⟨u, hu, hanswer⟩
      exact ⟨u, List.mem_cons_of_mem _ hu, hanswer⟩

theorem factorTypes_always {s : Schema} {required : Option (List String)} {cs : List (RefOr Schema)}
    {path : String} {t : Ty} (hpath : .ref path ∈ cs)
    (h : (extendedTypes env s path mode).Always V R fun ts ↦ t ∈ ts) :
    (factorTypes env s required cs mode).Always V R fun ts ↦ t ∈ ts := by
  induction cs with
  | nil => cases hpath
  | cons c rest ih =>
    cases c with
    | ref other =>
      rw [factorTypes]
      rcases List.mem_cons.1 hpath with heq | hrest
      · cases heq
        exact .bind (h.mono fun ts ht ↦ .bind (.of_forall fun others ↦
          List.mem_append_left _ ht))
      · exact .bind (.of_forall fun ts ↦ .bind ((ih hrest).mono fun others ht ↦
          List.mem_append_right _ ht))
    | inline c =>
      have hrest := (List.mem_cons.1 hpath).resolve_left fun h ↦ by cases h
      rw [factorTypes]
      exact .bind (.of_forall fun u ↦ .bind ((ih hrest).mono fun others ht ↦
        List.mem_cons_of_mem _ ht))

end

/-- The tag of an extension that the mapping has an entry for has the first value that leads to the
extension. -/
theorem ownTag_eq_some {parent child : Schema} {d : Discriminator} {property path : String}
    (hd : parent.discriminator = some d) (hproperty : d.property = some property)
    (hchild : child.component = some path) (hpath : path ∈ Table.values d.mapping) :
    ∃ value, (value, path) ∈ d.mapping ∧ ownTag parent child = .ok (some (tag property value)) := by
  obtain ⟨entry, hentry, rfl⟩ := List.mem_map.1 hpath
  have hsome : (d.mapping.find? fun e ↦ e.2 == entry.2).isSome :=
    List.find?_isSome.2 ⟨entry, hentry, beq_self_eq_true _⟩
  obtain ⟨⟨value, target⟩, hfind⟩ := Option.isSome_iff_exists.1 hsome
  have htarget := List.find?_some hfind
  obtain rfl : target = entry.2 := beq_iff_eq.1 htarget
  refine ⟨value, List.mem_of_find?_eq_some hfind, ?_⟩
  unfold ownTag
  simp only [hd, hchild, hfind, Discriminator.requireProperty, hproperty]
  rfl

namespace Context.Makes

variable {env : Env} {ctx : Context} {s : Schema} {name : Option String} {mode : Mode} {t : Ty}

/-- Every reference in the mapping is a member of the union that is made of it. -/
theorem of_mapping (h : ctx.Makes env (.inline s) name mode t) (h₁ : s.oneOf = none)
    (h₂ : s.anyOf = none) {mapping : Table String} (h₃ : env.mapping? s = some mapping)
    {path : String} (hpath : path ∈ Table.values mapping) :
    ∃ members, t = orNull s (.unionOf members) ∧
      ∃ u ∈ members, ctx.Answered env path mode false u := by
  refine h (fun t ↦ ∃ members, t = orNull s (.unionOf members) ∧
    ∃ u ∈ members, ctx.Answered env path mode false u) ?_
  rw [nodeType, plainType_mapping _ _ _ h₁ h₂ h₃]
  exact .bind (.bind ((followAll_always hpath).mono fun members hmember ↦
    ⟨members, rfl, hmember⟩))

/-- An extension of a discriminating schema has its tag. -/
theorem of_allOf (h : ctx.Makes env (.inline s) name mode t) (h₁ : s.oneOf = none)
    (h₂ : s.anyOf = none) (h₃ : env.mapping? s = none) {cs : List (RefOr Schema)}
    (h₄ : s.allOf = some cs) {path : String} (hpath : .ref path ∈ cs) {parent : Schema}
    (hparent : env.snapshot.resolve Schema.ofNode path = .ok parent)
    (hdiscriminates : env.isDiscriminating parent = true) {u : Ty}
    (hown : ownTag parent s = .ok (some u)) :
    ∃ factors, t = orNull s (.inter factors) ∧ u ∈ factors := by
  have hextended : (extendedTypes env s path mode).Always (fun _ b x ↦ ctx.Came b x)
      (ctx.Answered env) fun ts ↦ u ∈ ts := by
    refine .act_bind fun parent' hparent' ↦ ?_
    obtain rfl : parent = parent' := Except.ok.inj (hparent.symm.trans hparent'.ofResolve)
    rw [if_pos hdiscriminates]
    refine .act_bind fun own hown' ↦ .bind (.of_forall fun v ↦ ?_)
    obtain rfl : some u = own := Except.ok.inj (hown.symm.trans hown'.lift)
    exact List.mem_cons_self
  refine h (fun t ↦ ∃ factors, t = orNull s (.inter factors) ∧ u ∈ factors) ?_
  rw [nodeType, plainType_allOf _ _ _ h₁ h₂ h₃ h₄]
  refine .bind (.bind ((factorTypes_always hpath hextended).mono fun ts hu ↦ ?_))
  split
  · exact .bind (.of_forall fun v ↦ ⟨_, rfl, List.mem_append_left _ hu⟩)
  · exact ⟨_, rfl, hu⟩

end Context.Makes

/-! ## Prepared components -/

section

variable {spec : Spec} {options : Options} {name : String} {s : Schema}

theorem isDiscriminating_prepare (options : Options) (h : spec.toValue.Distinct)
    (hs : Table.get? name spec.schemas = some (.inline s)) :
    (spec.prepare.env options).isDiscriminating (Schema.prepare spec.schemas name s).reread =
      s.isDiscriminating := by
  have hcomponent : (Schema.prepare spec.schemas name s).reread.component =
      some (ofComponent name) := by
    rw [Schema.reread_eq]
    rfl
  rw [Env.isDiscriminating, hcomponent, ← contains_discriminatingRefs (Spec.nodup_schemas h) hs,
    ← Spec.discriminating_prepare]
  rfl

theorem oneOf_prepare {schemas : Table (RefOr Schema)} (h : s.oneOf = none) :
    (Schema.prepare schemas name s).reread.oneOf = none := by
  rw [Schema.reread_eq, Schema.prepare, Schema.addEntries]
  simp [h]

theorem anyOf_prepare {schemas : Table (RefOr Schema)} (h : s.anyOf = none) :
    (Schema.prepare schemas name s).reread.anyOf = none := by
  rw [Schema.reread_eq, Schema.prepare, Schema.addEntries]
  simp [h]

theorem allOf_prepare {schemas : Table (RefOr Schema)} {cs : List (RefOr Schema)}
    (h : s.allOf = some cs) : (Schema.prepare schemas name s).reread.allOf =
      some (cs.map Schema.rereadNode) := by
  rw [Schema.reread_eq, Schema.prepare, Schema.addEntries]
  simp [h]

theorem orNull_prepare (schemas : Table (RefOr Schema)) (name : String) (s : Schema) (t : Ty) :
    orNull (Schema.prepare schemas name s).reread t = orNull s t := by
  rw [Schema.reread_eq]
  rfl

/-- A key that names a component is the reference that leads to it. -/
theorem Env.target_of_key {env : Env} {key path : String} {plain : Bool} {t : Schema}
    (hkey : key = env.aliasKey path plain) (htarget : env.target path plain = .ok t)
    (hs : env.snapshot.resolve Schema.ofNode key = .ok s) : t = s := by
  have hs : env.target key false = .ok s := target_eq_ok.2 ⟨s, hs, rfl⟩
  cases plain with
  | false =>
    cases hkey
    exact Except.ok.inj (htarget.symm.trans hs)
  | true =>
    have hcontains := contains_of_target hs
    rw [hkey] at hcontains
    exact absurd hcontains (env.snapshot.not_contains_freeReference path)

/-- The declared types of a component are made from the component as it is prepared. -/
theorem Calls.makes_component (h : spec.toValue.Distinct)
    (hs : Table.get? name spec.schemas = some (.inline s)) {ctx : Context}
    (hctx : Calls (spec.prepare.env options) {} ctx) {key declared : String} {mode : Mode}
    (hkey : componentName? key = some name) (hname : ctx.name? key mode = some declared) :
    ∃ t, .typeAlias declared t ∈ ctx.typeDeclarations ∧ ctx.Makes (spec.prepare.env options)
      (.inline (Schema.prepare spec.schemas name s).reread) none mode t := by
  obtain ⟨path, plain, u, t, hpath, htarget, hmem, hmakes⟩ := hctx.establishes hname
  have hprepared := (Spec.get?_schemas_prepare h).2 ⟨s, hs, rfl⟩
  obtain rfl := Env.target_of_key hpath htarget (Spec.resolve_of_componentName? h hprepared hkey)
  exact ⟨t, hmem, hmakes⟩

end

namespace Spec.Extends

variable {spec : Spec} {options : Options} {child parent property : String} {c p : Schema}
  {d : Discriminator}

/-- An entry for an extension puts it into the union and gives it a tag. -/
theorem agrees (hext : spec.Extends child parent c p d property) (h : spec.toValue.Distinct)
    (hentry : ofComponent child ∈
      Table.values (d.addEntries (lackingEntries spec.schemas parent)).mapping) :
    ∃ value, (value, ofComponent child) ∈
        (d.addEntries (lackingEntries spec.schemas parent)).mapping ∧
      ∀ ctx, Calls (spec.prepare.env options) {} ctx →
        ctx.Agrees (spec.prepare.env options) child parent c p property value := by
  have hbase : (Schema.prepare spec.schemas parent p).reread.discriminator =
      some (d.addEntries (lackingEntries spec.schemas parent)) := by
    rw [Schema.reread_eq, Schema.prepare, Schema.addEntries, hext.discriminator]
    rfl
  have hcomponent : (Schema.prepare spec.schemas child c).reread.component =
      some (ofComponent child) := by
    rw [Schema.reread_eq]
    rfl
  have hdiscriminates := (isDiscriminating_prepare options h hext.base).trans
    hext.discriminates
  have hinert := (isDiscriminating_prepare options h hext.extension).trans hext.inert
  obtain ⟨value, hvalue, hown⟩ := ownTag_eq_some hbase
    ((d.property_addEntries _).trans hext.property) hcomponent hentry
  refine ⟨value, hvalue, fun ctx hctx ↦ ⟨fun key mode name hkey hname ↦ ?_,
    fun key mode name hkey hname ↦ ?_⟩⟩
  · obtain ⟨t, hmem, hmakes⟩ := hctx.makes_component h hext.base hkey hname
    have hmapping : (spec.prepare.env options).mapping?
        (Schema.prepare spec.schemas parent p).reread =
          some (d.addEntries (lackingEntries spec.schemas parent)).mapping := by
      rw [Env.mapping?, if_pos hdiscriminates, hbase]
      refine Option.filter_eq_some_iff.2 ⟨rfl, ?_⟩
      cases hentries : (d.addEntries (lackingEntries spec.schemas parent)).mapping with
      | nil =>
        rw [hentries] at hentry
        cases hentry
      | cons entry rest => rfl
    obtain ⟨-, honeOf, hanyOf⟩ := Schema.isDiscriminating_iff.1 hext.discriminates
    obtain ⟨members, rfl, hmember⟩ :=
      hmakes.of_mapping (oneOf_prepare honeOf) (anyOf_prepare hanyOf) hmapping hentry
    rw [orNull_prepare] at hmem
    exact ⟨members, hmem, hmember⟩
  · obtain ⟨t, hmem, hmakes⟩ := hctx.makes_component h hext.extension hkey hname
    have hmapping : (spec.prepare.env options).mapping?
        (Schema.prepare spec.schemas child c).reread = none := by
      rw [Env.mapping?, hinert]
      rfl
    obtain ⟨cs, path, hcs, hpath, hparent⟩ := Schema.mem_parents.1 hext.parent
    have hresolve := Spec.resolve_of_componentName? h
      ((Spec.get?_schemas_prepare h).2 ⟨p, hext.base, rfl⟩) hparent
    obtain ⟨factors, rfl, htag⟩ := hmakes.of_allOf (oneOf_prepare hext.noOneOf)
      (anyOf_prepare hext.noAnyOf) hmapping (allOf_prepare hcs)
      (List.mem_map.2 ⟨_, hpath, Schema.rereadNode_ref path⟩) hresolve hdiscriminates hown
    rw [orNull_prepare] at hmem
    exact ⟨factors, hmem, htag⟩

end Spec.Extends

/-- A discriminating component has an entry for an extension once it is prepared exactly if it had
one before or the name of the extension was not taken. Then all declared types of the two agree: the
reference of the extension stands in the union, and the extension has a tag whose value leads to it.
Whatever is compiled, a reference is answered with a declared name, or with that of an enumeration.
-/
theorem discriminators_agree {spec : Spec} (h : spec.toValue.Distinct) {options : Options}
    {child parent property : String} {c p : Schema} {d : Discriminator}
    (hext : spec.Extends child parent c p d property) :
    ∃ p' d', Table.get? parent spec.prepare.spec.schemas = some (.inline p') ∧
      p'.discriminator = some d' ∧
      (ofComponent child ∈ Table.values d'.mapping ↔
        ofComponent child ∈ Table.values d.mapping ∨ ¬Table.has d.mapping child) ∧
      (ofComponent child ∈ Table.values d'.mapping →
        ∃ value, (value, ofComponent child) ∈ d'.mapping ∧
          ∀ ctx, Calls (spec.prepare.env options) {} ctx →
            ctx.Agrees (spec.prepare.env options) child parent c p property value ∧
            ∀ path mode t ctx', ((spec.prepare.env options).referenceType path mode).outcome ctx =
              (.ok t, ctx') → ctx'.Answered (spec.prepare.env options) path mode false t) := by
  refine ⟨Schema.prepare spec.schemas parent p, d.addEntries (lackingEntries spec.schemas parent),
    (Spec.get?_schemas_prepare h).2 ⟨p, hext.base, rfl⟩, ?_, ?_, fun hentry ↦ ?_⟩
  · rw [Schema.prepare, Schema.addEntries, hext.discriminator]
    rfl
  · exact Discriminator.mem_prepared (Spec.nodup_schemas h) hext.base hext.discriminator
      hext.discriminates hext.extension hext.parent
  · obtain ⟨value, hvalue, hagrees⟩ := hext.agrees h hentry
    exact ⟨value, hvalue, fun ctx hctx ↦ ⟨hagrees ctx hctx, fun path mode t ctx' hout ↦
      hctx.established.answered hout⟩⟩

/-! ## Pets -/

namespace Pets

def pet : Schema where
  types := some (.one .object)
  discriminator := some { property := some "kind", mapping := [("Cat", ofComponent "Stray")] }

/-- An extension of a pet. -/
def extension (enum : Option (List Json.Value) := none) : Schema where
  allOf := some [.ref "#/components/schemas/Pet"]
  enum := enum

def schemas : Table (RefOr Schema) :=
  [("Pet", .inline pet), ("Stray", .inline {}), ("Cat", .inline extension),
    ("Dog", .inline extension), ("Kitten", .inline (extension (some [.str "tabby"])))]

/-- A document in which one extension has a name that is taken, and another one is an enumeration.
-/
def spec : Spec where
  version := "3.0.0"
  info := { title := "t", version := "1" }
  components := some { schemas := schemas }

theorem distinct_extension {enum : Option (List Json.Value)}
    (h : ∀ values ∈ enum, ∀ v ∈ values, v.Distinct) : (extension enum).Distinct where
  default := nofun
  properties := nofun
  mapping := nofun
  enum := h
  const := nofun
  parts := by
    intro c hc
    cases hc with
    | allOf hcs hc =>
      cases hcs
      obtain rfl := List.mem_singleton.1 hc
      exact Schema.distinct_nodeValue_ref _
    | _ h => cases h

theorem distinct : spec.toValue.Distinct := by
  refine Spec.distinct_toValue.2
    ⟨List.forall_mem_nil _, ⟨List.nodup_nil, List.forall_mem_nil _⟩, ?_⟩
  rintro c ⟨⟩
  refine Components.distinct_toValue.2 ⟨⟨by decide, ?_⟩, by simp [Table.keys]⟩
  have hpet : pet.Distinct :=
    { Schema.Distinct.empty with
      mapping := by
        rintro d ⟨⟩
        decide
      parts := by
        intro c hc
        cases hc with
        | _ h => cases h }
  have hplain : (extension none).Distinct := distinct_extension fun _ h ↦ by cases h
  simp only [schemas, List.forall_mem_cons, Schema.distinct_nodeValue_inline]
  refine ⟨hpet, .empty, hplain, hplain, distinct_extension ?_, List.forall_mem_nil _⟩
  rintro values ⟨⟩
  exact List.forall_mem_singleton.2 (.str "tabby")

theorem extends_pet {child : String} {enum : Option (List Json.Value)}
    (h : Table.get? child schemas = some (.inline (extension enum))) :
    spec.Extends child "Pet" (extension enum) pet
      { property := some "kind", mapping := [("Cat", ofComponent "Stray")] } "kind" where
  base := rfl
  discriminates := rfl
  discriminator := rfl
  property := rfl
  extension := h
  noOneOf := rfl
  noAnyOf := rfl
  inert := rfl
  parent := Schema.mem_parents.2 ⟨_, _, rfl, List.mem_singleton_self _, by decide +kernel⟩

/-- The pet once it is prepared. -/
def prepared : Schema where
  types := some (.one .object)
  discriminator := some {
    property := some "kind"
    mapping := [("Cat", "#/components/schemas/Stray"), ("Dog", "#/components/schemas/Dog"),
      ("Kitten", "#/components/schemas/Kitten")] }
  component := some "#/components/schemas/Pet"

theorem get?_prepared :
    Table.get? "Pet" spec.prepare.spec.schemas = some (.inline prepared) := by
  rfl

abbrev options : Options := { namedEnums := true, singleMode := true }

abbrev env : Env := spec.prepare.env options

/-- An extension once it is prepared. -/
def member (child : String) (enum : Option (List Json.Value) := none) : Schema :=
  { extension enum with component := some (ofComponent child) }

theorem target_member {child key : String} {enum : Option (List Json.Value)}
    (h : Table.get? child schemas = some (.inline (extension enum)))
    (hkey : componentName? key = some child) : env.target key false = .ok (member child enum) := by
  have hprepared : Table.get? child spec.prepare.spec.schemas =
      some (.inline (member child enum)) :=
    (Spec.get?_schemas_prepare distinct).2 ⟨_, h, rfl⟩
  have hreread : (member child enum).reread = member child enum := by
    refine Schema.reread_eq_self_iff.2 ⟨nofun, nofun, fun c hc ↦ ?_⟩
    cases hc with
    | allOf hcs hc =>
      cases hcs
      obtain rfl := List.mem_singleton.1 hc
      exact Schema.rereadNode_ref _
    | _ h => cases h
  have hresolve := Spec.resolve_of_componentName? distinct hprepared hkey
  rw [hreread] at hresolve
  exact Env.target_eq_ok.2 ⟨_, hresolve, rfl⟩

theorem resolve_pet :
    env.snapshot.resolve Schema.ofNode "#/components/schemas/Pet" = .ok prepared := by
  refine (Spec.resolve_of_componentName? distinct get?_prepared (by decide +kernel)).trans ?_
  rw [Schema.reread_eq]
  rfl

theorem aliasKey_pet :
    env.aliasKey "#/components/schemas/Pet" true = "#/components/schemas/PetBase" := by
  have hnot : env.snapshot.contains "#/components/schemas/PetBase" = false := by
    rw [Bool.eq_false_iff]
    intro hcontains
    obtain ⟨names, v, hnames, hv⟩ := Snapshot.contains_iff.1 hcontains
    have hsegments : Pointer.segments "#/components/schemas/PetBase" =
        .ok ["components", "schemas", "PetBase"] := by decide +kernel
    cases hsegments.symm.trans hnames
    have hnone := hv.symm.trans (Spec.at?_schemas get?_prepared "PetBase")
    cases hnone
  have happend : "#/components/schemas/Pet" ++ "Base" = "#/components/schemas/PetBase" := rfl
  rw [Env.aliasKey, if_pos rfl, happend, Snapshot.freeReference, hnot]
  rfl

theorem runs_pet (around : Around) (ctx : Context) :
    Runs env around (inlineType env { prepared with discriminator := none } none .base) ctx
      (.ok (.keyword .object)) ctx [] := by
  have hmapping : env.mapping? { prepared with discriminator := none } = none := by
    unfold Env.mapping?
    split <;> rfl
  have hshape : ¬Schema.hasObjectShape { prepared with discriminator := none } = true :=
    Bool.false_ne_true
  rw [inlineType, nodeType, plainType_simple _ _ _ rfl rfl hmapping rfl rfl rfl hshape]
  exact .act rfl (.done _)

theorem runs_member {child : String} {own : Option Ty}
    (hown : ownTag prepared (member child) = .ok own) (around : Around) {ctx ctx' : Context}
    {t : Ty} {log : List Meeting}
    (h : Runs env around (.follow "#/components/schemas/Pet" .base true) ctx (.ok t) ctx' log) :
    Runs env around (inlineType env (member child) none .base) ctx
      (.ok (.inter (own.toList ++ [t]))) ctx' log := by
  have hmapping : env.mapping? (member child) = none := by
    unfold Env.mapping?
    split <;> rfl
  have hdiscriminates : env.isDiscriminating prepared = true := by decide +kernel
  have hresolved : (Build.ofResolve (env.snapshot.resolve Schema.ofNode
      "#/components/schemas/Pet")).outcome ctx = (.ok prepared, ctx) := by
    rw [Build.outcome_ofResolve, resolve_pet]
    rfl
  have hextended : Runs env around (extendedTypes env (member child) "#/components/schemas/Pet"
      .base) ctx (.ok (own.toList ++ [t])) ctx' log := by
    refine .act_bind hresolved ?_
    rw [if_pos hdiscriminates, hown]
    refine .act_bind (x := own) rfl ?_
    rw [← List.append_nil log]
    exact h.bind (.done _)
  rw [inlineType, nodeType, plainType_allOf _ _ _ rfl rfl hmapping rfl, factorTypes, factorTypes]
  have hshape : ¬(member child).hasObjectShape = true := Bool.false_ne_true
  simp only [if_neg hshape]
  rw [← List.append_nil log, ← List.append_nil (log ++ []), ← List.append_nil (log ++ [] ++ [])]
  refine .bind (a := .inter (own.toList ++ [t])) (.bind (a := own.toList ++ [t]) ?_ (.done _))
    (.done _)
  exact .bind (a := own.toList ++ [t]) hextended (by simpa using Runs.done (own.toList ++ [t]))

theorem target_base : env.target "#/components/schemas/Pet" true =
    .ok { prepared with discriminator := none } :=
  Env.target_eq_ok.2 ⟨prepared, resolve_pet, rfl⟩

theorem runs_base (around : Around) {ctx : Context} {counts : Names.Counts}
    (hnew : Table.get? "#/components/schemas/PetBase" ctx.aliases = none)
    (hcounts : Names.allocate "PetBase" ctx.typeNames = ("PetBase", counts)) :
    Runs env around (referencePlan env "#/components/schemas/Pet" .base true) ctx
      (.ok (.named "PetBase")) ((ctx.enter counts "#/components/schemas/PetBase"
        { base := "PetBase" }).declare "PetBase" (.keyword .object)) [] := by
  have hname : toIdentifier (Pointer.displayName "#/components/schemas/PetBase") true =
      "PetBase" := by
    decide +kernel
  rw [← aliasKey_pet] at hnew ⊢
  have hallocate : Names.allocate (toIdentifier (Pointer.displayName
      (env.aliasKey "#/components/schemas/Pet" true)) true) ctx.typeNames =
        ("PetBase", counts) := by
    rw [aliasKey_pet, hname, hcounts]
  exact Runs.declared hnew target_base rfl hallocate
    (.modes (runs_pet around _) rfl (.same _) (.same _))
    (ctx.get?_enter_self counts _ { base := "PetBase" })

/-- An extension that is no enumeration is declared with the tag that it has. -/
theorem outcome_member (child key : String) (own : Option Ty) {counts : Names.Counts}
    (hchild : Table.get? child schemas = some (.inline extension))
    (hown : ownTag prepared (member child) = .ok own) (hkey : componentName? key = some child)
    (hname : toIdentifier (Pointer.displayName key) true = child)
    (hne : key ≠ "#/components/schemas/PetBase")
    (hcounts : Names.allocate "PetBase" [(child, 1)] = ("PetBase", counts)) :
    ∃ ctx : Context, (env.referenceType key .base).outcome {} = (.ok (.named child), ctx) ∧
      ctx.name? key .base = some child ∧
      ctx.typeDeclarations = [.typeAlias "PetBase" (.keyword .object),
        .typeAlias child (.inter (own.toList ++ [Ty.named "PetBase"]))] := by
  have hnew : Table.get? "#/components/schemas/PetBase"
      (Context.enter {} [(child, 1)] key { base := child }).aliases = none := by
    rw [Context.get?_enter_of_ne hne]
    rfl
  have hbase := runs_base
    (fun m ↦ [(env.aliasKey "#/components/schemas/Pet" true, m), (key, .base)]) hnew hcounts
  have hmember := runs_member hown (fun m ↦ [(key, m)]) (.meet hbase (.done _))
  have hentered := (Context.get?_enter_of_ne hne.symm _ counts { base := "PetBase" }).trans
    (Context.get?_enter_self {} [(child, 1)] key { base := child })
  have henum : ∀ title, env.options.declaresEnum (member child) title = false := by
    intro title
    rw [Options.declaresEnum, show (member child).enumValues = none from rfl, Option.isSome_none,
      Bool.and_false, Bool.false_and]
  have hallocate : Names.allocate (toIdentifier ((member child).title.getD
      (Pointer.displayName (env.aliasKey key false))) true) {} = (child, [(child, 1)]) := by
    rw [show (member child).title = none from rfl, Option.getD_none, Env.aliasKey,
      if_neg Bool.false_ne_true, hname]
    rfl
  have hrun : Runs env _ (referencePlan env key .base false) {} _ _ _ :=
    .declared rfl (target_member hchild hkey) (henum _) hallocate
      (.modes hmember rfl (.same _) (.same _)) hentered
  exact ⟨_, (env.ends_follow key .base false {}).unique ⟨_, .meet hrun (.done _)⟩,
    Context.name?_of_get? hentered _, rfl⟩

/-- A dog is declared with a tag, and agrees with the pets. -/
theorem dog_agrees : ∃ ctx, Calls env {} ctx ∧
    ctx.name? "#/components/schemas/Dog" .base = some "Dog" ∧
    .typeAlias "Dog" (.inter [tag "kind" "Dog", .named "PetBase"]) ∈ ctx.typeDeclarations ∧
    ctx.Agrees env "Dog" "Pet" extension pet "kind" "Dog" := by
  have hdog : Table.get? "Dog" schemas = some (.inline extension) := rfl
  obtain ⟨ctx, hout, hname, hdeclared⟩ := outcome_member "Dog" "#/components/schemas/Dog"
    (some (tag "kind" "Dog")) hdog rfl (by decide +kernel) (by decide +kernel) (by decide) rfl
  have hcalls : Calls env {} ctx := .single (.reference hout)
  obtain ⟨p', d', hp', hd', hentry, hagrees⟩ :=
    @discriminators_agree _ distinct options _ _ _ _ _ _ (extends_pet hdog)
  obtain ⟨value, hvalue, hctx⟩ := hagrees (hentry.2 (.inr (by decide)))
  cases hp'.symm.trans get?_prepared
  cases hd'
  have hvalue : value = "Dog" := by
    simpa [show ofComponent "Dog" = "#/components/schemas/Dog" from rfl] using hvalue
  refine ⟨ctx, hcalls, hname, ?_, hvalue ▸ (hctx ctx hcalls).1⟩
  rw [hdeclared]
  exact .tail _ (.head _)

/-- A kitten is an enumeration and has no declared type. -/
theorem outcome_kitten : ∃ ctx,
    (env.referenceType "#/components/schemas/Kitten" .base).outcome {} =
      (.ok (.named "Kitten"), ctx) ∧ ctx.typeDeclarations = [] := by
  have htarget : env.target "#/components/schemas/Kitten" false =
      .ok (member "Kitten" (some [.str "tabby"])) :=
    target_member rfl (by decide +kernel)
  have hname : Pointer.displayName "#/components/schemas/Kitten" = "Kitten" := by decide +kernel
  obtain ⟨ctx, hout, hctx⟩ : ∃ ctx, (declareEnum (member "Kitten" (some [.str "tabby"]))
      "Kitten").outcome {} = (.ok (.named "Kitten"), ctx) ∧ ctx.typeDeclarations = [] := by
    refine ⟨_, rfl, rfl⟩
  exact ⟨ctx, (Env.outcome_enum_reference rfl htarget hname rfl).trans hout, hctx⟩

end Pets

/-- A cat, whose name the mapping of the pets uses for something else, and a kitten, which is an
enumeration, extend the pet, and both are compiled. But no entry leads to the cat, and neither of
them is declared with a tag. -/
theorem extension_without_tag :
    ((∃ d, Pets.spec.Extends "Cat" "Pet" Pets.extension Pets.pet d "kind") ∧
      (∃ s d, Table.get? "Pet" Pets.spec.prepare.spec.schemas = some (.inline s) ∧
        s.discriminator = some d ∧ ofComponent "Cat" ∉ Table.values d.mapping) ∧
      ∃ ctx, (Pets.env.referenceType "#/components/schemas/Cat" .base).outcome {} =
          (.ok (.named "Cat"), ctx) ∧
        ctx.typeDeclarations = [.typeAlias "PetBase" (.keyword .object),
          .typeAlias "Cat" (.inter [.named "PetBase"])]) ∧
    (∃ d, Pets.spec.Extends "Kitten" "Pet" (Pets.extension (some [.str "tabby"])) Pets.pet d
      "kind") ∧
    ∃ ctx, (Pets.env.referenceType "#/components/schemas/Kitten" .base).outcome {} =
        (.ok (.named "Kitten"), ctx) ∧ ctx.typeDeclarations = [] := by
  obtain ⟨ctx, hout, -, hdeclared⟩ := Pets.outcome_member "Cat" "#/components/schemas/Cat" none
    rfl rfl (by decide +kernel) (by decide +kernel) (by decide) rfl
  exact ⟨⟨⟨_, Pets.extends_pet rfl⟩, ⟨_, _, Pets.get?_prepared, rfl, by decide⟩,
    ctx, hout, hdeclared⟩, ⟨_, Pets.extends_pet rfl⟩, Pets.outcome_kitten⟩

end ApiClient
