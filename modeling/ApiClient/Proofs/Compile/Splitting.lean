import ApiClient.Proofs.Compile.Differences
import ApiClient.Proofs.Compile.Registered
import ApiClient.Proofs.Compile.Termination
import ApiClient.Proofs.Document.FreeReferences

/-!
# What the scan overlooks

A reference gets no name for a mode if the scan of its schema finds no mark of the mode. The scan
goes down fewer parts of a schema than compiling does: it leaves out further members, the first
items of a list, the targets of a discriminator, and all parts but the items if there are any. At
the places that it goes to, such a schema is the same in both modes. So the types of the two modes
are different exactly if there is a difference at a place that the scan overlooks.
-/

namespace ApiClient

open TypeScript

/-- A place of a schema, or of a schema inside it, that makes a difference and is not scanned. -/
inductive Overlooked (env : Env) (aliases : Table Aliases) (mode : Mode) : Schema → Prop where
  | here {s : Schema} {spot : Spot} (hspot : spot ∈ env.spots s) (hscan : spot.node ∉ s.scanned)
      (h : Differs env aliases mode spot) : Overlooked env aliases mode s
  | inside {s t : Schema} (hspot : .inline t ∈ env.spots s) (h : Overlooked env aliases mode t) :
      Overlooked env aliases mode s

theorem Overlooked.differs {env : Env} {aliases : Table Aliases} {mode : Mode} {s : Schema}
    (h : Overlooked env aliases mode s) : Differs env aliases mode (.inline s) := by
  induction h with
  | here hspot _ h => exact .inline hspot h
  | inside hspot _ ih => exact .inline hspot ih

theorem Mode.keeps_ne_iff {mode : Mode} (hmode : mode ≠ .base) {flags : Flags} :
    mode.keeps flags ≠ Mode.base.keeps flags ↔ flags.has mode := by
  obtain ⟨readOnly, writeOnly⟩ := flags
  cases mode with
  | base => exact absurd rfl hmode
  | read => cases readOnly <;> cases writeOnly <;> decide
  | write => cases readOnly <;> cases writeOnly <;> decide

theorem shows_of_ownMarks {env : Env} {c : RefOr Schema} {mode : Mode}
    (h : (env.ownMarks c).has mode) : Shows env.snapshot [] c (.mark mode) := by
  unfold Env.ownMarks at h
  split at h
  · simp [Flags.has_none] at h
  · cases c with
    | inline s => exact shows_of_inlineMarks h
    | ref path => simp [Flags.has_none] at h

/-- A reference with a name for a mode has the mark of the mode in its closure, unless it points
nowhere. -/
theorem shows_of_name {env : Env} {ctx : Context} (hctx : Consistent env [] ctx) {path : String}
    {plain : Bool} {mode : Mode} (hmode : mode ≠ .base) {names : Aliases}
    (hnames : Table.get? (env.aliasKey path plain) ctx.aliases = some names)
    (h : names.get mode ≠ names.base) :
    Shows env.snapshot [] (.ref path) (.mark mode) ∨
      Shows env.snapshot [] (.ref path) .dangling := by
  cases hs : env.snapshot.resolve Schema.ofNode path with
  | error e =>
    refine .inr ⟨.ref path, .dangling List.not_mem_nil fun s hs' ↦ ?_, rfl⟩
    rw [hs] at hs'
    cases hs'
  | ok s =>
    left
    obtain ⟨path', plain', t, hkey, ht⟩ := hctx.entry _ _ List.not_mem_nil hnames
    have htarget : env.target path plain =
        .ok (if plain then { s with discriminator := none } else s) := by
      rw [Env.target, hs]
      rfl
    obtain ⟨rfl, rfl⟩ := Env.aliasKey_injective htarget ht.target hkey
    obtain ⟨flags, hright, hown⟩ := ht.marks
    have hhas : flags.has mode := by
      rw [← hown mode hmode, Option.isSome_iff_ne_none]
      exact fun hnone ↦ h (Aliases.get_eq_base hnone)
    exact (Env.shows_ref_iff ht.target).2 (hright.sound mode hhas)

section

variable {env : Env} {ctx : Context} {mode : Mode}

/-- A schema without the mark of a mode in its closure makes a difference only where it is not
scanned. -/
theorem Differs.overlooked (hctx : Consistent env [] ctx) (hmode : mode ≠ .base) {s : Schema}
    (hmark : ¬Shows env.snapshot [] (.inline s) (.mark mode))
    (hdangling : ¬Shows env.snapshot [] (.inline s) .dangling)
    (hdiffers : Differs env ctx.aliases mode (.inline s)) : Overlooked env ctx.aliases mode s := by
  generalize hplace : Spot.inline s = place at hdiffers
  induction hdiffers generalizing s with
  | ref => cases hplace
  | member => cases hplace
  | @inline s' spot hspot h ih =>
    cases hplace
    by_cases hscan : spot.node ∈ s'.scanned
    · have hmark' : ¬Shows env.snapshot [] spot.node (.mark mode) :=
        fun hshows ↦ hmark (Shows.inline_iff.2 (.inr ⟨_, hscan, hshows⟩))
      have hdangling' : ¬Shows env.snapshot [] spot.node .dangling :=
        fun hshows ↦ hdangling (Shows.inline_iff.2 (.inr ⟨_, hscan, hshows⟩))
      cases h with
      | ref hnames hne =>
        exact ((shows_of_name hctx hmode hnames hne).elim hmark' hdangling').elim
      | member hne =>
        exact absurd (shows_of_ownMarks ((Mode.keeps_ne_iff hmode).1 hne)) hmark'
      | inline hspot' h' => exact .inside hspot (ih hmark' hdangling' rfl)
    · exact .here hspot hscan h

theorem outcome_of_value (henums : env.options.namedEnums = false) {node : RefOr Schema} {t : Ty}
    (h : (nodeType env node none mode).value env ctx.aliases = some t) :
    ((env.schemaType (some node) none mode).outcome ctx).1 = .ok t := by
  obtain ⟨log, hrun⟩ := Runs.of_value (nodeType_plain henums node none mode) h fun _ ↦ []
  exact congrArg Prod.fst ((env.ends_schemaPlan (some node) none mode ctx).unique ⟨log, hrun⟩)

end

/-- At the end of a session, every key that has no name for a mode is that of a schema in the
document with a type in the base mode. The type of the schema in the other mode is the same one
exactly if no place that makes a difference is overlooked by the scan. -/
theorem same_type_iff {env : Env} (hmodes : env.options.singleMode = false)
    (henums : env.options.namedEnums = false) {ctx : Context} {log : List Meeting}
    (h : Session env ctx log) {key : String} {names : Aliases}
    (hnames : Table.get? key ctx.aliases = some names) {mode : Mode} (hmode : mode ≠ .base)
    (hown : names.own mode = none) :
    ∃ path plain s t, key = env.aliasKey path plain ∧ env.target path plain = .ok s ∧
      ((env.schemaType (some (.inline s)) none .base).outcome ctx).1 = .ok t ∧
      (((env.schemaType (some (.inline s)) none mode).outcome ctx).1 = .ok t ↔
        ¬Overlooked env ctx.aliases mode s) := by
  have hctx := h.consistent hmodes henums
  obtain ⟨path, plain, s, hkey, hs⟩ := hctx.entry key names List.not_mem_nil hnames
  obtain ⟨t, ht⟩ := hs.value
  obtain ⟨flags, hright, hflags⟩ := hs.marks
  have hnot : ¬flags.has mode := by
    rw [← hflags mode hmode, hown]
    decide
  have hmark : ¬Shows env.snapshot [] (.inline s) (.mark mode) := fun hshows ↦
    hnot (hright.complete _ hshows)
  have hdangling : ¬Shows env.snapshot [] (.inline s) .dangling := fun hshows ↦ hnot (by
    have hboth := hright.complete _ hshows
    cases mode <;> simp_all [Flags.covers, Flags.both, Flags.has])
  obtain ⟨hsame, hother⟩ := tracks_nodeType henums mode (.inline s) none t ht
  refine ⟨path, plain, s, t, hkey, hs.target, outcome_of_value henums ht,
    fun hout hoverlooked ↦ ?_, fun hnone ↦ ?_⟩
  · obtain ⟨log', hrun⟩ := env.ends_schemaPlan (some (.inline s)) none mode ctx
    exact (hrun.ensures env.naming_kept hout (hother ctx (.refl ctx))).2.2 hoverlooked.differs rfl
  · exact outcome_of_value henums
      (hsame fun hdiffers ↦ hnone (hdiffers.overlooked hctx hmode hmark hdangling))

namespace Tuple

/-- A document with a list whose first item has a read-only property. -/
def env : Env where
  snapshot := { root := .obj [("components", .obj [("schemas", .obj [
    ("T", .obj [("prefixItems", .arr [.obj [("properties", .obj [
      ("id", .obj [("readOnly", .bool true)])])]])])])])] }
  discriminating := []
  options := {}

def identifier : RefOr Schema :=
  .inline { readOnly := some true }

def item : Schema :=
  { properties := some [("id", identifier)] }

def list : Schema :=
  { prefixItems := some [.inline item] }

theorem target_list : env.target "#/components/schemas/T" false = .ok list := by
  refine Env.target_of_lookup rfl ?_
  with_unfolding_all rfl

theorem name_list : toIdentifier (Pointer.displayName "#/components/schemas/T") true = "T" := by
  decide +kernel

theorem ownMarks_identifier : env.ownMarks identifier = ⟨true, false⟩ :=
  Env.ownMarks_readOnly rfl

theorem inlineType_list : inlineType env list none .base = .done (.tuple [.object [] none]) := by
  have hitem : plainType env item item.required none .base = .done (.object [] none) := by
    rw [plainType_object _ _ _ rfl rfl rfl rfl rfl rfl rfl, objectType]
    simp [item, memberTypes, additionalType, ownMarks_identifier, Mode.keeps]
  have hnull : ∀ t, orNull item t = t ∧ orNull list t = t := fun _ ↦ ⟨rfl, rfl⟩
  rw [inlineType, nodeType, plainType_prefixItems _ _ _ rfl rfl rfl rfl rfl]
  simp [nodeTypes, nodeType, hitem, hnull]

theorem session : ∃ ctx log, Session env ctx log ∧
    Table.get? "#/components/schemas/T" ctx.aliases = some { base := "T" } := by
  have hbody {around : Around} (ctx : Context) :
      Runs env around (inlineType env list none .base) ctx (.ok (.tuple [.object [] none])) ctx
        [] := by
    rw [inlineType_list]
    exact .done _
  have hcounts :
      Names.allocate (toIdentifier (Pointer.displayName "#/components/schemas/T") true) [] =
        ("T", [("T", 1)]) :=
    congrArg (Names.allocate · []) name_list
  exact ⟨_, _, .step .start (.reference "#/components/schemas/T" .base false)
    (.meet (.declared rfl target_list rfl hcounts (.modes (hbody _)
      (Build.outcome_closureMarks rfl rfl _) (.same _) (.same _)) rfl) (.done _)), rfl⟩

theorem overlooked (aliases : Table Aliases) : Overlooked env aliases .read list := by
  have hitem : Spot.inline item ∈ env.spots list := List.mem_singleton.2 rfl
  have hmember : Spot.member identifier ∈ env.spots item := by
    show Spot.member identifier ∈ env.objectSpots item
    simp [Env.objectSpots, Env.memberSpots, item, ownMarks_identifier, Mode.keeps]
  refine .here hitem List.not_mem_nil (.inline hmember (.member ?_))
  rw [ownMarks_identifier]
  decide

end Tuple

/-- A schema without a read variant whose type in the read mode is another one. -/
theorem other_type_without_variant : ∃ env ctx log key names path plain s t,
    Session env ctx log ∧ Table.get? key ctx.aliases = some names ∧ names.own .read = none ∧
    key = env.aliasKey path plain ∧ env.target path plain = .ok s ∧
    ((env.schemaType (some (.inline s)) none .base).outcome ctx).1 = .ok t ∧
    ((env.schemaType (some (.inline s)) none .read).outcome ctx).1 ≠ .ok t := by
  obtain ⟨ctx, log, hsession, hnames⟩ := Tuple.session
  obtain ⟨path, plain, s, t, hkey, hs, ht, hiff⟩ :=
    same_type_iff rfl rfl hsession hnames (show Mode.read ≠ .base by decide) rfl
  obtain ⟨rfl, rfl⟩ := Env.aliasKey_injective Tuple.target_list hs hkey
  cases Tuple.target_list.symm.trans hs
  exact ⟨_, ctx, log, _, _, _, _, _, t, hsession, hnames, rfl, hkey, hs, ht,
    fun hsame ↦ hiff.1 hsame (Tuple.overlooked _)⟩

end ApiClient
