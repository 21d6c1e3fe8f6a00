import ApiClient.Proofs.Compile.Steps
import ApiClient.Proofs.TypeScript.Words

/-!
# The names of enumerations

A schema that consists of values has a type without names, or the name for binary data, or that of
an enumeration. An enumeration that is entered has been declared, so such a name is never left
without a declaration.
-/

namespace ApiClient

open TypeScript

namespace Context

def IsEnum (ctx : Context) (name : String) : Prop :=
  ∃ members, .enum name members ∈ ctx.enumDeclarations

/-- Every enumeration that is entered is declared. -/
def EnumsDeclared (ctx : Context) : Prop :=
  ∀ key entry, Table.get? key ctx.enums = some entry →
    ∃ name, entry.type = .named name ∧ ctx.IsEnum name

/-- Every enumeration that is entered has a name. -/
def EnumsNamed (ctx : Context) : Prop :=
  ∀ key entry, Table.get? key ctx.enums = some entry → ∃ name, entry.type = .named name

variable {ctx ctx' : Context}

theorem EnumsDeclared.named (h : ctx.EnumsDeclared) : ctx.EnumsNamed := by
  intro key entry hentry
  obtain ⟨name, hname, -⟩ := h key entry hentry
  exact ⟨name, hname⟩

theorem IsEnum.mono {name : String} (h : ctx.IsEnum name)
    (hsub : ctx.enumDeclarations ⊆ ctx'.enumDeclarations) : ctx'.IsEnum name :=
  h.imp fun _ hmem ↦ hsub hmem

theorem EnumsDeclared.of_eq (h : ctx.EnumsDeclared) (henums : ctx'.enums = ctx.enums)
    (hdecls : ctx'.enumDeclarations = ctx.enumDeclarations) : ctx'.EnumsDeclared := by
  intro key entry hentry
  rw [henums] at hentry
  obtain ⟨name, hname, hdeclared⟩ := h key entry hentry
  exact ⟨name, hname, hdeclared.mono (hdecls ▸ List.Subset.refl _)⟩

end Context

/-- The key under which an enumeration is entered. -/
def Schema.proposal (s : Schema) (name : String) : String :=
  proposedName (s.title.getD (Text.upperFirst name))

/-- The context in which one more enumeration is declared and entered. -/
def Context.enterEnum (ctx : Context) (counts : Names.Counts) (key text name : String)
    (members : List EnumMember) : Context :=
  { ctx with
    typeNames := counts
    enums := Table.put key ⟨text, .named name⟩ ctx.enums
    enumDeclarations := ctx.enumDeclarations ++ [.enum name members] }

namespace Build

variable {ctx ctx' : Context} {s : Schema} {name key text : String} {t : Ty}

theorem newEnum_eq_ok : (newEnum s key text).outcome ctx = (.ok t, ctx') ↔
    ∃ enumName counts members, Names.allocate key ctx.typeNames = (enumName, counts) ∧
      s.checkMemberNames enumName = .ok () ∧
      enumMembers (s.enumValues.getD []) s.memberNames = .ok members ∧ t = .named enumName ∧
      ctx' = ctx.enterEnum counts key text enumName members := by
  constructor
  · intro h
    obtain ⟨enumName, ctx₁, hname, h⟩ := outcome_bind_eq_ok.1 h
    rw [outcome_allocate] at hname
    obtain ⟨_, ctx₂, hcheck, h⟩ := outcome_bind_eq_ok.1 h
    obtain ⟨members, ctx₃, hmembers, h⟩ := outcome_bind_eq_ok.1 h
    rw [outcome_lift, Prod.mk.injEq] at hcheck hmembers
    obtain ⟨hcheck, rfl⟩ := hcheck
    obtain ⟨hmembers, rfl⟩ := hmembers
    cases hname
    cases h
    exact ⟨_, _, members, rfl, hcheck, hmembers, rfl, rfl⟩
  · rintro ⟨enumName, counts, members, hname, hcheck, hmembers, rfl, rfl⟩
    refine outcome_bind_eq_ok.2 ⟨enumName, { ctx with typeNames := counts }, ?_, ?_⟩
    · rw [outcome_allocate, hname]
    · refine outcome_bind_eq_ok.2 ⟨(), _, by rw [outcome_lift, hcheck], ?_⟩
      exact outcome_bind_eq_ok.2 ⟨members, _, by rw [outcome_lift, hmembers], rfl⟩

/-- An enumeration has the type that is entered for its texts, or else it is a new one. -/
theorem declareEnum_eq_ok : (ApiClient.declareEnum s name).outcome ctx = (.ok t, ctx') ↔
    ∃ text, signature (s.enumValues.getD []) = .ok text ∧
      (Table.get? (s.proposal name) ctx.enums = some ⟨text, t⟩ ∧ ctx' = ctx ∨
        (∀ entry, Table.get? (s.proposal name) ctx.enums = some entry → entry.signature ≠ text) ∧
          (newEnum s (s.proposal name) text).outcome ctx = (.ok t, ctx')) := by
  constructor
  · intro h
    obtain ⟨text, ctx₁, htext, h⟩ := outcome_bind_eq_ok.1 h
    rw [outcome_lift, Prod.mk.injEq] at htext
    obtain ⟨htext, rfl⟩ := htext
    refine ⟨text, htext, ?_⟩
    obtain ⟨_, ctx₂, hget, h⟩ := outcome_bind_eq_ok.1 h
    cases hget
    split at h
    next entry hentry =>
      split at h
      next hsame =>
        cases h
        exact .inl ⟨hsame ▸ hentry, rfl⟩
      next hother =>
        refine .inr ⟨fun entry' hentry' ↦ ?_, h⟩
        exact Option.some.inj (hentry.symm.trans hentry') ▸ hother
    next hnone =>
      refine .inr ⟨fun entry hentry ↦ ?_, h⟩
      exact nomatch hnone.symm.trans hentry
  · rintro ⟨text, htext, hcases⟩
    refine outcome_bind_eq_ok.2 ⟨text, ctx, by rw [outcome_lift, htext], ?_⟩
    refine outcome_bind_eq_ok.2 ⟨ctx, ctx, rfl, ?_⟩
    rcases hcases with ⟨hentry, rfl⟩ | ⟨hother, hnew⟩
    · change Table.get? (proposedName _) _ = _ at hentry
      rw [hentry]
      simp only [if_pos]
      rfl
    · split
      next entry hentry => rwa [if_neg (hother entry hentry)]
      next => exact hnew

theorem newEnum_ok (h : (newEnum s key text).outcome ctx = (.ok t, ctx'))
    (hctx : ctx.EnumsDeclared) :
    ctx'.EnumsDeclared ∧ ctx.enumDeclarations ⊆ ctx'.enumDeclarations ∧
      ∃ n, t = .named n ∧ ctx'.IsEnum n := by
  obtain ⟨enumName, counts, members, -, -, -, rfl, rfl⟩ := newEnum_eq_ok.1 h
  have hsub : ctx.enumDeclarations ⊆ ctx.enumDeclarations ++ [.enum enumName members] :=
    List.subset_append_left _ _
  have hnew : (ctx.enterEnum counts key text enumName members).IsEnum enumName :=
    ⟨members, List.mem_append_right _ List.mem_cons_self⟩
  refine ⟨fun other entry hentry ↦ ?_, hsub, enumName, rfl, hnew⟩
  rw [Context.enterEnum, Table.get?_put] at hentry
  split at hentry
  next =>
    cases hentry
    exact ⟨enumName, rfl, hnew⟩
  next =>
    obtain ⟨n, hn, henum⟩ := hctx other entry hentry
    exact ⟨n, hn, henum.mono hsub⟩

theorem declareEnum_ok (h : (ApiClient.declareEnum s name).outcome ctx = (.ok t, ctx'))
    (hctx : ctx.EnumsDeclared) :
    ctx'.EnumsDeclared ∧ ctx.enumDeclarations ⊆ ctx'.enumDeclarations ∧
      ∃ n, t = .named n ∧ ctx'.IsEnum n := by
  obtain ⟨text, -, ⟨hentry, rfl⟩ | ⟨-, hnew⟩⟩ := declareEnum_eq_ok.1 h
  · exact ⟨hctx, List.Subset.refl _, hctx _ _ hentry⟩
  · exact newEnum_ok hnew hctx

end Build

theorem words_of_literalType {v : Json.Value} {t : Ty} (h : literalType v = .ok t) :
    t.words = [] := by
  unfold literalType at h
  cases hv : literalOf v with
  | error e => simp [hv, Except.map] at h
  | ok l =>
    rw [hv] at h
    cases h
    simp

theorem words_of_literalTypes {values : List Json.Value} {ts : List Ty}
    (h : values.mapM literalType = .ok ts) : ∀ t ∈ ts, t.words = [] := by
  induction values generalizing ts with
  | nil =>
    cases h
    simp
  | cons v values ih =>
    rw [List.mapM_cons] at h
    obtain ⟨u, hv, h⟩ := bind_eq_ok.1 h
    obtain ⟨us, hrest, h⟩ := bind_eq_ok.1 h
    cases h
    intro t ht
    rcases List.mem_cons.1 ht with rfl | ht
    · exact words_of_literalType hv
    · exact ih hrest t ht

theorem words_of_literalUnion {values : List Json.Value} {t : Ty}
    (h : literalUnion values = .ok t) : t.words = [] := by
  obtain ⟨ts, hts, h⟩ := bind_eq_ok.1 h
  cases h
  rw [Ty.words_unionOf]
  exact wordsOfTypes_eq_nil (words_of_literalTypes hts)

theorem words_of_typeName (name : TypeName) : name.type.words = [] := by
  cases name <;> simp [TypeName.type, Ty.any]

theorem words_of_typeSet (types : TypeSet) : types.type.words = [] := by
  unfold TypeSet.type
  split
  · exact words_of_typeName _
  · simp [Ty.any]
  · rw [Ty.words_unionOf]
    refine wordsOfTypes_eq_nil fun t ht ↦ ?_
    obtain ⟨name, -, rfl⟩ := List.mem_map.1 ht
    exact words_of_typeName name

/-- The type of a schema without parts has no name, or the one of binary data, or that of a declared
enumeration. -/
theorem Build.simpleType_ok {env : Env} {s : Schema} {name : Option String} {ctx ctx' : Context}
    {t : Ty} (h : (simpleType env s name).outcome ctx = (.ok t, ctx')) (hctx : ctx.EnumsDeclared) :
    ctx'.EnumsDeclared ∧ ctx.enumDeclarations ⊆ ctx'.enumDeclarations ∧
      (t.words = [] ∨ t.words = [.type "Blob"] ∨ ∃ n, t.words = [.type n] ∧ ctx'.IsEnum n) := by
  have hlift {x : Except CompileError Ty} (hx : ∀ u, x = .ok u → u.words = [])
      (h : (liftM x : Build Ty).outcome ctx = (.ok t, ctx')) : ctx'.EnumsDeclared ∧
      ctx.enumDeclarations ⊆ ctx'.enumDeclarations ∧
      (t.words = [] ∨ t.words = [.type "Blob"] ∨ ∃ n, t.words = [.type n] ∧ ctx'.IsEnum n) := by
    rw [outcome_lift, Prod.mk.injEq] at h
    obtain ⟨hxt, rfl⟩ := h
    exact ⟨hctx, List.Subset.refl _, .inl (hx t hxt)⟩
  unfold simpleType at h
  split at h
  next values hvalues =>
    split at h
    next name' =>
      split at h
      next =>
        obtain ⟨hctx', hsub, n, rfl, henum⟩ := declareEnum_ok h hctx
        exact ⟨hctx', hsub, .inr (.inr ⟨n, Ty.words_named n, henum⟩)⟩
      next => exact hlift (fun u hu ↦ words_of_literalUnion hu) h
    next => exact hlift (fun u hu ↦ words_of_literalUnion hu) h
  next =>
    split at h
    next =>
      cases h
      exact ⟨hctx, List.Subset.refl _, .inr (.inl (Ty.words_named _))⟩
    next =>
      split at h
      next v _ => exact hlift (fun u hu ↦ words_of_literalType hu) h
      next =>
        cases h
        refine ⟨hctx, List.Subset.refl _, .inl ?_⟩
        cases s.types with
        | none => simp [Ty.any]
        | some types => exact words_of_typeSet types

end ApiClient
