import ApiClient.Proofs.Compile.DeclaredTypes
import ApiClient.Proofs.Compile.Mirrors

/-!
# References to enumerations

A reference to a schema with an enumeration that gets a declaration of its own is the name of that
declaration. Nothing else that the schema says is looked at, neither whether it is nullable nor the
keywords that come before the enumeration where the schema itself is compiled.
-/

namespace ApiClient

open TypeScript

theorem Calls.enumsNamed {env : Env} {ctx : Context} (h : Calls env {} ctx) : ctx.EnumsNamed :=
  h.established.enums.named

theorem Build.declareEnum_named {s : Schema} {name : String} {ctx ctx' : Context} {t : Ty}
    (hctx : ctx.EnumsNamed) (h : (ApiClient.declareEnum s name).outcome ctx = (.ok t, ctx')) :
    ∃ e, t = .named e := by
  obtain ⟨text, -, ⟨hentry, -⟩ | ⟨-, hnew⟩⟩ := declareEnum_eq_ok.1 h
  · exact hctx _ _ hentry
  · obtain ⟨e, -, -, -, -, -, rfl, -⟩ := newEnum_eq_ok.1 hnew
    exact ⟨e, rfl⟩

namespace Env

variable (env : Env)

/-- No other keyword decides before the enumeration of a schema. -/
structure EnumDecides (s : Schema) : Prop where
  oneOf : s.oneOf = none
  anyOf : s.anyOf = none
  mapping : env.mapping? s = none
  allOf : s.allOf = none
  prefixItems : s.prefixItems = none
  items : s.items = none
  shape : s.hasObjectShape = false

/-- The only member of a schema that is a union with one member. -/
def soleVariant (s : Schema) : Option (RefOr Schema) :=
  match s.oneOf, s.anyOf, env.mapping? s with
  | some [c], _, _ => if s.discriminator.isNone then some c else none
  | none, some [c], _ => some c
  | none, none, some [(_, path)] => some (.ref path)
  | _, _, _ => none

end Env

section

variable {env : Env} {s : Schema} {name : String} {mode : Mode} {ctx : Context}

theorem simpleType_of_declaresEnum (h : env.options.declaresEnum s name = true) :
    simpleType env s (some name) = declareEnum s name := by
  unfold simpleType
  split
  next => exact if_pos h
  next hvalues => simp [Options.declaresEnum, hvalues] at h

/-- A step whose result is passed on with a change. -/
theorem Ends.of_step {b : Build Ty} (f : Ty → Ty) :
    Ends env (.act b fun t ↦ .done (f t)) ctx ((b.outcome ctx).1.map f) (b.outcome ctx).2 := by
  rcases hout : b.outcome ctx with ⟨e | t, ctx'⟩
  · exact ⟨[], .fail hout⟩
  · exact ⟨[], .act hout (.done _)⟩

theorem Env.outcome_enum_reference {path : String}
    (hmiss : Table.get? path ctx.aliases = none) (hs : env.target path false = .ok s)
    (hname : s.title.getD (Pointer.displayName path) = name)
    (henum : env.options.declaresEnum s name = true) :
    (env.referenceType path mode).outcome ctx = (declareEnum s name).outcome ctx := by
  subst hname
  have hends := env.ends_follow path mode false ctx
  rcases hout : (declareEnum s (s.title.getD (Pointer.displayName path))).outcome ctx with
    ⟨e | t, ctx'⟩
  · exact hends.unique ⟨_, .stuck (.enumerated hmiss hs henum hout)⟩
  · exact hends.unique ⟨_, .meet (.enumerated hmiss hs henum hout) (.done t)⟩

/-- Where the enumeration decides, compiling the schema declares it and adds null if need be. -/
theorem Env.EnumDecides.outcome (h : env.EnumDecides s)
    (henum : env.options.declaresEnum s name = true) :
    (env.schemaType (some (.inline s)) (some name) mode).outcome ctx =
      (((declareEnum s name).outcome ctx).1.map (orNull s),
        ((declareEnum s name).outcome ctx).2) := by
  apply (env.ends_schemaPlan (some (.inline s)) (some name) mode ctx).unique
  rw [schemaPlan, nodeType, plainType_simple _ _ _ h.oneOf h.anyOf h.mapping h.allOf h.prefixItems
    h.items (by simp [h.shape]), simpleType_of_declaresEnum henum]
  exact .of_step (orNull s)

/-! ## Types that are no names -/

theorem TypeScript.Ty.unionOf_ne_named {ts : List Ty} {e : String}
    (h : ∀ t, ts = [t] → t ≠ .named e) : Ty.unionOf ts ≠ .named e := by
  unfold Ty.unionOf
  split
  next t => exact h t rfl
  next => exact Ty.noConfusion

theorem nodeTypes_length (nodes : List (RefOr Schema)) :
    (nodeTypes env nodes mode).Surely fun ts ↦ ts.length = nodes.length := by
  induction nodes with
  | nil =>
    rw [nodeTypes]
    exact .done rfl
  | cons c cs ih =>
    rw [nodeTypes]
    exact .bind (.of_forall fun _ ↦ .bind (ih.mono fun ts hlen ↦ congrArg (· + 1) hlen))

theorem followAll_length (paths : List String) :
    (followAll mode paths).Surely fun ts ↦ ts.length = paths.length := by
  induction paths with
  | nil => exact .done rfl
  | cons path rest ih =>
    exact .bind (.of_forall fun _ ↦ .bind (ih.mono fun ts hlen ↦ congrArg (· + 1) hlen))

theorem taggedMembers_inter (property : String) (entries : List (String × String)) :
    (taggedMembers property mode entries).Surely fun ts ↦ ∀ t ∈ ts, ∃ us, t = .inter us := by
  induction entries with
  | nil => exact .done (List.forall_mem_nil _)
  | cons entry rest ih =>
    refine .bind (.of_forall fun t ↦ .bind (ih.mono fun ts hts ↦ ?_))
    exact List.forall_mem_cons.2 ⟨⟨_, rfl⟩, hts⟩

/-- If another keyword decides and does not make a union of one member, the type is no name. -/
theorem plainType_ne_named {required : Option (List String)} {name : Option String}
    (hother : ¬env.EnumDecides s) (hsole : env.soleVariant s = none) (e : String) :
    (plainType env s required name mode).Surely fun u ↦ u ≠ .named e := by
  have hunion {α : Type} {xs : List α} {x : Plan (List Ty)}
      (hx : x.Surely fun ts ↦ ts.length = xs.length) (hxs : ∀ a, xs ≠ [a]) :
      (x >>= fun ts ↦ Plan.done (Ty.unionOf ts)).Surely fun u : Ty ↦ u ≠ .named e := by
    refine .bind (hx.mono fun ts hlen ↦ .done (Ty.unionOf_ne_named ?_))
    rintro t rfl
    obtain ⟨a, ha⟩ := List.length_eq_one_iff.1 hlen.symm
    exact absurd ha (hxs a)
  rw [plainType]
  split
  next cs h₁ =>
    split
    next d _ =>
      refine .act_bind fun property _ ↦ .act_bind fun others _ ↦ ?_
      refine .bind ((taggedMembers_inter property _).mono fun ts hts ↦ .done ?_)
      apply Ty.unionOf_ne_named
      rintro t rfl
      obtain ⟨us, rfl⟩ := hts t (List.mem_singleton_self t)
      exact Ty.noConfusion
    next hd =>
      apply hunion (nodeTypes_length cs)
      rintro c rfl
      simp [Env.soleVariant, h₁, hd] at hsole
  next cs h₁ h₂ =>
    apply hunion (nodeTypes_length cs)
    rintro c rfl
    simp [Env.soleVariant, h₁, h₂] at hsole
  next mapping h₁ h₂ h₃ =>
    have hlength : (followAll mode (Table.values mapping)).Surely fun ts ↦
        ts.length = mapping.length :=
      (followAll_length _).mono fun ts hlen ↦ hlen.trans (List.length_map _)
    apply hunion hlength
    rintro entry rfl
    simp [Env.soleVariant, h₁, h₂, h₃] at hsole
  next cs h₁ h₂ h₃ h₄ =>
    refine .bind (.of_forall fun ts ↦ ?_)
    split
    · exact .bind (.of_forall fun t ↦ .done Ty.noConfusion)
    · exact .done Ty.noConfusion
  next cs h₁ h₂ h₃ h₄ h₅ => exact .bind (.of_forall fun ts ↦ .done Ty.noConfusion)
  next c h₁ h₂ h₃ h₄ h₅ h₆ => exact .bind (.of_forall fun t ↦ .done Ty.noConfusion)
  next h₁ h₂ h₃ h₄ h₅ h₆ =>
    split
    next =>
      rw [objectType]
      exact .bind (.of_forall fun ms ↦ .bind (.of_forall fun index ↦ .done Ty.noConfusion))
    next hshape => exact absurd ⟨h₁, h₂, h₃, h₄, h₅, h₆, by simpa using hshape⟩ hother

theorem Env.eq_of_soleVariant {c : RefOr Schema} (h : env.soleVariant s = some c) :
    (s.oneOf = some [c] ∧ s.discriminator = none) ∨ (s.oneOf = none ∧ s.anyOf = some [c]) ∨
      s.oneOf = none ∧ s.anyOf = none ∧
        ∃ tag path, env.mapping? s = some [(tag, path)] ∧ c = .ref path := by
  unfold Env.soleVariant at h
  split at h
  next c' h₁ =>
    split at h
    next hd =>
      cases h
      exact .inl ⟨h₁, Option.isNone_iff_eq_none.1 hd⟩
    next => cases h
  next c' h₁ h₂ =>
    cases h
    exact .inr (.inl ⟨h₁, h₂⟩)
  next tag path h₁ h₂ h₃ =>
    cases h
    exact .inr (.inr ⟨h₁, h₂, tag, path, h₃, rfl⟩)
  next => cases h

/-- A union of one member is compiled as that member. -/
theorem plainType_sole {required : Option (List String)} {name : Option String} {c : RefOr Schema}
    (h : env.soleVariant s = some c) :
    plainType env s required name mode = nodeType env c none mode := by
  have hone : (do return Ty.unionOf (← nodeTypes env [c] mode)) = nodeType env c none mode := by
    simp only [nodeTypes, pure_bind, bind_assoc, Ty.unionOf, bind_pure]
  rcases Env.eq_of_soleVariant h with ⟨h₁, hd⟩ | ⟨h₁, h₂⟩ | ⟨h₁, h₂, tag, path, h₃, rfl⟩
  · exact (plainType_oneOf _ _ _ h₁ hd).trans hone
  · exact (plainType_anyOf _ _ _ h₁ h₂).trans hone
  · rw [plainType_mapping _ _ _ h₁ h₂ h₃, nodeType]
    rfl

theorem orNull_ne_named {t : Ty} {e : String} (h : s.isNullable = true) :
    orNull s t ≠ .named e := by
  rw [orNull, if_pos h]
  exact Ty.noConfusion

theorem orNull_of_not_nullable (h : s.isNullable = false) : orNull s = id := by
  funext t
  simp [orNull, h]

/-- The type of a nullable schema is no name. -/
theorem schemaType_nullable {u : Ty} {e : String} {ctx' : Context} (hnull : s.isNullable = true)
    (hu : (env.schemaType (some (.inline s)) (some name) mode).outcome ctx = (.ok u, ctx')) :
    u ≠ .named e := by
  obtain ⟨log, hrun⟩ := hu ▸ env.ends_schemaPlan (some (.inline s)) (some name) mode ctx
  rw [schemaPlan, nodeType] at hrun
  apply hrun.mayGive rfl (· ≠ .named e)
  exact .bind (.of_forall fun _ ↦ .done (orNull_ne_named hnull))

/-- If the schema is not nullable and not decided by its enumeration, the name of a declaration can
only come from the one member of a union. -/
theorem schemaType_eq_named {u : Ty} {e : String} {ctx' : Context}
    (hother : ¬env.EnumDecides s) (hnull : s.isNullable = false)
    (hu : (env.schemaType (some (.inline s)) (some name) mode).outcome ctx = (.ok u, ctx')) :
    u = .named e ↔ ∃ c, env.soleVariant s = some c ∧
      (env.schemaType (some c) none mode).outcome ctx = (.ok (.named e), ctx') := by
  have hplan : schemaPlan env (some (.inline s)) (some name) mode =
      plainType env s s.required (some name) mode := by
    rw [schemaPlan, nodeType, orNull_of_not_nullable hnull]
    exact bind_pure _
  rcases hsole : env.soleVariant s with _ | c
  · obtain ⟨log, hrun⟩ := hu ▸ env.ends_schemaPlan (some (.inline s)) (some name) mode ctx
    rw [hplan] at hrun
    have hne : u ≠ .named e :=
      hrun.mayGive rfl _ (plainType_ne_named hother hsole e)
    simp [hne]
  · have heq : (env.schemaType (some c) none mode).outcome ctx = (.ok u, ctx') := by
      rw [← hu]
      apply (env.ends_schemaPlan (some c) none mode ctx).unique
      have hends := env.ends_schemaPlan (some (.inline s)) (some name) mode ctx
      rwa [hplan, plainType_sole hsole] at hends
    simp [heq]

end

/-- A reference without an entry to a schema whose enumeration gets a declaration is the name of
that declaration. Compiled itself, the schema has the same declaration and the same type, apart from
null if it is nullable, provided that its enumeration decides. The two types are the same just if
the schema is not nullable and its enumeration decides, or the one member of its union happens to be
that declaration. -/
theorem enum_reference_agrees_iff {env : Env} {path : String} {s : Schema} {name : String}
    {ctx : Context} (hctx : ctx.EnumsNamed) (hnew : Table.get? path ctx.aliases = none)
    (hs : env.target path false = .ok s)
    (hname : s.title.getD (Pointer.displayName path) = name)
    (henum : env.options.declaresEnum s name = true) (mode : Mode) :
    (env.referenceType path mode).outcome ctx = (declareEnum s name).outcome ctx ∧
    (env.EnumDecides s → (env.schemaType (some (.inline s)) (some name) mode).outcome ctx =
      (((env.referenceType path mode).outcome ctx).1.map (orNull s),
        ((env.referenceType path mode).outcome ctx).2)) ∧
    ∀ t u ctx₁ ctx₂, (env.referenceType path mode).outcome ctx = (.ok t, ctx₁) →
      (env.schemaType (some (.inline s)) (some name) mode).outcome ctx = (.ok u, ctx₂) →
      (u = t ↔ s.isNullable = false ∧ (env.EnumDecides s ∨ ∃ c, env.soleVariant s = some c ∧
        (env.schemaType (some c) none mode).outcome ctx = (.ok t, ctx₂))) := by
  have href : (env.referenceType path mode).outcome ctx = (declareEnum s name).outcome ctx :=
    Env.outcome_enum_reference hnew hs hname henum
  have hsame : env.EnumDecides s →
      (env.schemaType (some (.inline s)) (some name) mode).outcome ctx =
        (((env.referenceType path mode).outcome ctx).1.map (orNull s),
          ((env.referenceType path mode).outcome ctx).2) := by
    intro hdecides
    rw [href]
    exact hdecides.outcome henum
  refine ⟨href, hsame, fun t u ctx₁ ctx₂ ht hu ↦ ?_⟩
  obtain ⟨e, rfl⟩ : ∃ e, t = .named e := Build.declareEnum_named hctx (href ▸ ht)
  by_cases hdecides : env.EnumDecides s
  · have hout := hsame hdecides
    rw [hu, ht] at hout
    obtain ⟨rfl, rfl⟩ : u = orNull s (.named e) ∧ ctx₂ = ctx₁ := by
      simpa [Except.map] using hout
    cases hnull : s.isNullable with
    | true => simp [orNull_ne_named hnull]
    | false => simp [orNull_of_not_nullable hnull, hdecides]
  · cases hnull : s.isNullable with
    | true => simp [schemaType_nullable hnull hu]
    | false => simp [hdecides, schemaType_eq_named hdecides hnull hu]

namespace Status

/-- A document with one component, a nullable enumeration. -/
def env : Env where
  snapshot := { root := .obj [("components", .obj [("schemas", .obj [
    ("Status", .obj [("nullable", .bool true),
      ("enum", .arr [.str "open", .str "closed"])])])])] }
  discriminating := []
  options := { namedEnums := true }

def schema : Schema :=
  { nullable := some true, enum := some [.str "open", .str "closed"] }

theorem target_schema : env.target "#/components/schemas/Status" false = .ok schema := by
  apply Env.target_of_lookup rfl
  rw [decode, Schema.ofNode]
  rfl

theorem displayName_status : Pointer.displayName "#/components/schemas/Status" = "Status" := by
  decide +kernel

end Status

/-- The reference to a nullable enumeration is its name, but the enumeration itself has null too. -/
theorem nullable_enum_without_null :
    ({} : Context).EnumsNamed ∧
    Table.get? "#/components/schemas/Status" ({} : Context).aliases = none ∧
    Status.env.target "#/components/schemas/Status" false = .ok Status.schema ∧
    Status.env.options.declaresEnum Status.schema "Status" = true ∧ ∃ ctx,
      (Status.env.referenceType "#/components/schemas/Status" .base).outcome {} =
        (.ok (.named "Status"), ctx) ∧
      (Status.env.schemaType (some (.inline Status.schema)) (some "Status") .base).outcome {} =
        (.ok (.union [.named "Status", .keyword .null]), ctx) := by
  have hcalls : Calls Status.env {} {} := .refl
  have hctx : ({} : Context).EnumsNamed := hcalls.enumsNamed
  have hdeclares : Status.env.options.declaresEnum Status.schema "Status" = true := rfl
  obtain ⟨href, hsame, -⟩ := enum_reference_agrees_iff hctx rfl Status.target_schema
    Status.displayName_status hdeclares .base
  have hdecides : Status.env.EnumDecides Status.schema := ⟨rfl, rfl, rfl, rfl, rfl, rfl, rfl⟩
  refine ⟨hctx, rfl, Status.target_schema, hdeclares, _, href.trans rfl, ?_⟩
  rw [hsame hdecides, href]
  rfl

end ApiClient
