import ApiClient.Proofs.Compile.DeclaredTypes
import ApiClient.Proofs.Compile.MirroredPlans
import ApiClient.Proofs.Compile.ShownProperties
import ApiClient.Proofs.Document.FreeReferences

/-!
# One type for all modes

Where each schema has one type, the mode in which it is asked for is never looked at: no property is
hidden, no closure is scanned, and a key has no other name than its first one. So a compilation in
one mode is its own mirror image in any other one.
-/

namespace ApiClient

open TypeScript

theorem Context.mapTypes_id (ctx : Context) : ctx.mapTypes id = ctx := by
  have hdecl : Declaration.mapType id = id := by
    funext d
    cases d <;> rfl
  rw [mapTypes, hdecl, List.map_id]

/-- What is known of contexts if there is one type for all modes: no key has another name than the
first one, and every declared type is one that compiling a schema may give and shows all properties
of that schema. -/
structure Context.Merged (env : Env) (ctx : Context) : Prop where
  names : ∀ key names, Table.get? key ctx.aliases = some names →
    names.read = none ∧ names.write = none
  types : ∀ name t, .typeAlias name t ∈ ctx.typeDeclarations →
    ∃ path plain s mode, env.target path plain = .ok s ∧
      (inlineType env s none mode).MayGive t ∧ env.Shows s t

/-- One mode in the mirror of another one. -/
def Mirror.ofModes (env : Env) : Mirror where
  type := id
  member := id
  modes _ _ := True
  Inv := Context.Merged env

theorem Mirror.lawful_ofModes {env : Env} (hsingle : env.options.singleMode = true) :
    (Mirror.ofModes env).Lawful env env.options where
  namedEnums := rfl
  singleMode := rfl
  keyword _ := rfl
  literal _ := rfl
  named _ := rfl
  array _ := rfl
  tuple ts := congrArg Ty.tuple ts.map_id.symm
  union ts := congrArg Ty.union ts.map_id.symm
  inter ts := congrArg Ty.inter ts.map_id.symm
  object ms index := congrArg₂ Ty.object ms.map_id.symm (congrFun Option.map_id index).symm
  required _ _ := rfl
  optional _ _ := rfl
  same _ := trivial
  keeps := by
    intro mode mode' node _
    rw [Env.keeps_of_singleMode hsingle, Env.keeps_of_singleMode hsingle]
  names := by
    intro ctx mode mode' key names hctx _ hnames
    obtain ⟨hread, hwrite⟩ := hctx.names key names hnames
    have hbase : ∀ mode, names.get mode = names.base := by
      rintro (_ | _ | _)
      · rfl
      · rw [Aliases.get, hread, Option.getD_none]
      · rw [Aliases.get, hwrite, Option.getD_none]
    rw [hbase, hbase]
  enum _ _ _ _ _ := rfl
  tables ctx ctx' haliases _ htypes hctx := ⟨haliases ▸ hctx.names, htypes ▸ hctx.types⟩
  register := by
    intro ctx key names hctx hnames
    refine ⟨fun other old hold ↦ ?_, hctx.types⟩
    rw [Table.get?_put] at hold
    split at hold
    · cases hold
      exact hnames hsingle
    · exact hctx.names other old hold
  enterEnum _ _ _ _ hctx := ⟨hctx.names, hctx.types⟩
  declare := by
    intro ctx path plain s mode name t hctx htarget ht
    refine ⟨hctx.names, fun other u hu ↦ ?_⟩
    rcases List.mem_append.1 hu with hu | hu
    · exact hctx.types other u hu
    · cases List.mem_singleton.1 hu
      have hshows := ht _ (nodeType_shows hsingle mode (.inline s) none)
      exact ⟨path, plain, s, mode, htarget, ht, hshows s rfl⟩

/-- A step that is the mirror image of another one does the same. -/
theorem Mirror.Step.outcome_eq {env : Env} {σ : Type} {b c : Build σ}
    (h : (Mirror.ofModes env).Step id b c) {ctx : Context} (hctx : ctx.Merged env) :
    b.outcome ctx = c.outcome ctx := by
  obtain ⟨hout, -⟩ := h ctx hctx
  have himage : c.outcome (ctx.mapTypes id) =
      ((b.outcome ctx).1.map id, (b.outcome ctx).2.mapTypes id) := hout
  rw [Context.mapTypes_id, Context.mapTypes_id, Except.map_id] at himage
  exact himage.symm

/-- After calls that have succeeded, the name of a key is that of a declared type which shows all
properties of the schema that the key stands for. -/
theorem Calls.shows {env : Env} (hsingle : env.options.singleMode = true) {ctx : Context}
    (hcalls : Calls env {} ctx) {path : String} {plain : Bool} {s : Schema} {names : Aliases}
    (hs : env.target path plain = .ok s)
    (hnames : Table.get? (env.aliasKey path plain) ctx.aliases = some names) :
    ∃ t, .typeAlias names.base t ∈ ctx.typeDeclarations ∧ env.Shows s t := by
  have hname : ctx.name? (env.aliasKey path plain) .base = some names.base :=
    Context.name?_of_get? hnames .base
  obtain ⟨other, plain', s', t, hkey, hs', hmem, hmakes⟩ := hcalls.establishes hname
  obtain ⟨rfl, rfl⟩ := Env.aliasKey_injective hs hs' hkey
  cases hs.symm.trans hs'
  have hshows : ∀ u, RefOr.inline s = .inline u → env.Shows u t := by
    apply hmakes fun t ↦ ∀ u, RefOr.inline s = .inline u → env.Shows u t
    exact (nodeType_shows hsingle .base (.inline s) none).weaken (fun _ _ _ _ ↦ trivial)
      fun _ _ _ _ _ ↦ trivial
  exact ⟨t, hmem, hshows s rfl⟩

/-- If there is one type for all modes, then in any context on the way every mode gives the same
type or the same error for a schema or a reference, and leads to the same context. No key has
another name than its first one, and no property of a schema with the shape of an object is missing,
neither in any declared type, nor in that of a key after calls that have succeeded, nor in a type
that is returned. -/
theorem mode_without_effect {env : Env} (hsingle : env.options.singleMode = true) {ctx : Context}
    (hctx : Reached env ctx) :
    (∀ node name mode mode', (env.schemaType node name mode).outcome ctx =
      (env.schemaType node name mode').outcome ctx) ∧
    (∀ path mode mode' plain, (env.referenceType path mode plain).outcome ctx =
      (env.referenceType path mode' plain).outcome ctx) ∧
    (∀ key names, Table.get? key ctx.aliases = some names →
      names.read = none ∧ names.write = none) ∧
    (∀ name t, .typeAlias name t ∈ ctx.typeDeclarations →
      ∃ path plain s mode, env.target path plain = .ok s ∧
        (inlineType env s none mode).MayGive t ∧ env.Shows s t) ∧
    (Calls env {} ctx → ∀ path plain s names, env.target path plain = .ok s →
      Table.get? (env.aliasKey path plain) ctx.aliases = some names →
      ∃ t, .typeAlias names.base t ∈ ctx.typeDeclarations ∧ env.Shows s t) ∧
    ∀ s name mode t ctx', (env.schemaType (some (.inline s)) name mode).outcome ctx =
      (.ok t, ctx') → env.Shows s t := by
  have hM := Mirror.lawful_ofModes hsingle
  have hstart : Context.Merged env {} := ⟨fun _ _ h ↦ (by cases h), fun _ _ h ↦ (by cases h)⟩
  have hinv := hM.inv_of_reached hstart hctx
  refine ⟨fun node name mode mode' ↦ ?_, fun path mode mode' plain ↦ ?_, hinv.names, hinv.types,
    fun hcalls path plain s names hs hnames ↦ ?_, ?_⟩
  · exact (hM.schemaType trivial node name).outcome_eq hinv
  · exact (hM.referenceType trivial path plain).outcome_eq hinv
  · exact hcalls.shows hsingle hs hnames
  · intro s name mode t ctx' hout
    have hends := env.ends_schemaPlan (some (.inline s)) name mode ctx
    rw [hout] at hends
    obtain ⟨log, hrun⟩ := hends
    exact hrun.mayGive rfl _ (nodeType_shows hsingle mode (.inline s) name) s rfl

namespace Merged

/-- One type for all modes, for a document without components. -/
def env : Env where
  snapshot := { root := .obj [("openapi", .str "3.1.0")] }
  discriminating := []
  options := { singleMode := true }

def record : Schema :=
  { properties := some [("id", .inline { readOnly := some true })] }

theorem outcome_record : (env.schemaType (some (.inline record)) none .base).outcome {} =
    (.ok (.object [⟨"id", .any, true⟩] none), {}) := by
  have hvalue : (schemaPlan env (some (.inline record)) none .base).value env [] =
      some (.object [⟨"id", .any, true⟩] none) := by
    have hobject : plainType env record record.required none .base =
        objectType env record record.required .base :=
      plainType_object _ _ _ rfl rfl rfl rfl rfl rfl rfl
    have hid : plainType env { readOnly := some true } none (some "id") .base = .act _ .done :=
      plainType_simple _ _ _ rfl rfl rfl rfl rfl rfl (by decide)
    rw [schemaPlan, nodeType, hobject, objectType]
    simp only [record, Option.getD, memberTypes, nodeType, hid, additionalType]
    rfl
  have hends : Ends env (schemaPlan env (some (.inline record)) none .base) {} _ {} :=
    Runs.of_value (nodeType_plain rfl (.inline record) none .base) hvalue fun _ ↦ []
  exact (env.ends_schemaPlan _ _ _ _).unique hends

end Merged

/-- A read-only property is there in the write mode as well. -/
theorem read_only_without_effect : Merged.env.options.singleMode = true ∧ Reached Merged.env {} ∧
    ∃ t, (Merged.env.schemaType (some (.inline Merged.record)) none .write).outcome {} =
        (.ok t, {}) ∧ Merged.env.Shows Merged.record t := by
  have hstart : Reached Merged.env {} := .start
  obtain ⟨hmode, -, -, -, -, hshows⟩ := mode_without_effect rfl hstart
  have hout := (hmode _ none .write .base).trans Merged.outcome_record
  exact ⟨rfl, hstart, _, hout, hshows _ _ _ _ _ hout⟩

end ApiClient
