import ApiClient.Proofs.Operation.Declarations

/-!
# What the two sides of an interface show

From a type of requests, no property is reached that is there for responses only, and the other way
round. A type in a mode names variants of that mode and of the base mode. So along its names the
mode stays the same until it is the base mode, in which a property is shown only if every mode shows
it.
-/

namespace ApiClient

open TypeScript

/-- The origins of words that are reached from a type along the names of variants, each of which
leads to the declaration behind its entry. -/
inductive Reaches (ledger : List Record) : List Origin → Origin → Prop where
  | here {origins : List Origin} {o : Origin} (h : o ∈ origins) : Reaches ledger origins o
  | through {origins : List Origin} {key : String} {variant : Mode} {record : Record} {o : Origin}
      (h : .variant key variant ∈ origins) (hrecord : record ∈ ledger)
      (hentry : record.entry = (key, variant)) (ho : Reaches ledger record.origins o) :
      Reaches ledger origins o

def Context.Offers (ctx : Context) (mode : Mode) (name : String) : Prop :=
  name = "Blob" ∨ ctx.IsEnum name ∨
    ∃ key variant, (variant = .base ∨ variant = mode) ∧ ctx.name? key variant = some name

/-- Nothing of the other side is named or reached, and every entry that is named is declared. -/
structure Isolated (ctx : Context) (ledger : List Record) (mode : Mode) (words : List Word)
    (origins : List Origin) : Prop where
  names : ∀ name, .type name ∈ words → ctx.Offers mode name
  entries : ∀ key variant, .variant key variant ∈ origins →
    ∃ record ∈ ledger, record.entry = (key, variant)
  members : ∀ name s, Reaches ledger origins (.property name (.inline s)) → mode.MayShow s

section

variable {env : Env} {ctx : Context} {ledger : List Record} {mode : Mode} {s : Schema}

def Site.Kept (env : Env) (mode : Mode) : Site → Prop
  | .property _ c => mode.keeps (env.ownMarks c)
  | _ => True

theorem RefOr.kept_site (c : RefOr Schema) : c.site.Kept env mode := by
  cases c <;> trivial

namespace Env

theorem kept_objectSites : ∀ site ∈ env.objectSites mode s, site.Kept env mode := by
  refine List.forall_mem_append.2 ⟨List.forall_mem_flatMap.2 fun property _ ↦ ?_, ?_⟩
  · unfold propertySites
    split
    next hkeeps =>
      exact List.forall_mem_cons.2 ⟨hkeeps, List.forall_mem_singleton.2 (RefOr.kept_site _)⟩
    next => exact List.forall_mem_nil _
  · unfold indexSites
    split
    · exact List.forall_mem_singleton.2 (RefOr.kept_site _)
    · exact List.forall_mem_nil _
    · exact List.forall_mem_nil _

theorem kept_tagSites (parent child : Schema) :
    ∀ site ∈ parent.tagSites child, site.Kept env mode := by
  unfold Schema.tagSites
  split
  · split
    · exact List.forall_mem_singleton.2 trivial
    · exact List.forall_mem_nil _
  · exact List.forall_mem_nil _

theorem kept_factorSites (c : RefOr Schema) :
    ∀ site ∈ env.factorSites s c, site.Kept env mode := by
  cases c with
  | inline t => exact List.forall_mem_singleton.2 trivial
  | ref path =>
    simp only [factorSites, extensionSites]
    split
    · split
      · exact List.forall_mem_append.2
          ⟨kept_tagSites _ s, List.forall_mem_singleton.2 trivial⟩
      · exact List.forall_mem_singleton.2 trivial
    · exact List.forall_mem_nil _

/-- The sites of a schema in a mode are those of properties that the mode shows, and others. -/
theorem kept_sites : ∀ site ∈ env.sites mode s, site.Kept env mode := by
  have hnodes (cs : List (RefOr Schema)) : ∀ site ∈ cs.map RefOr.site, site.Kept env mode :=
    List.forall_mem_map.2 fun c _ ↦ c.kept_site
  unfold sites
  -- one case for each keyword that may decide; only objects have sites of properties
  split
  · split
    · refine List.forall_mem_flatMap.2 fun path _ ↦ ?_
      exact List.forall_mem_cons.2 ⟨trivial, List.forall_mem_singleton.2 trivial⟩
    · exact hnodes _
  · exact hnodes _
  · exact List.forall_mem_map.2 fun _ _ ↦ trivial
  · refine List.forall_mem_append.2 ⟨List.forall_mem_flatMap.2 fun c _ ↦ kept_factorSites c, ?_⟩
    split
    · exact kept_objectSites
    · exact List.forall_mem_nil _
  · exact hnodes _
  · exact List.forall_mem_singleton.2 (RefOr.kept_site _)
  · split
    · exact kept_objectSites
    · exact List.forall_mem_singleton.2 trivial

theorem Unfolds.keeps {sites : List Site} {origins : List Origin}
    (h : env.Unfolds mode sites origins) (hsites : ∀ site ∈ sites, site.Kept env mode) :
    ∀ name c, .property name c ∈ origins → mode.keeps (env.ownMarks c) := by
  induction h with
  | nil => simp
  | tag _ ih | ref _ _ ih | enumeration _ ih =>
    simpa using ih (List.forall_mem_cons.1 hsites).2
  | @property name c rest origins _ ih =>
    obtain ⟨hkept, hrest⟩ := List.forall_mem_cons.1 hsites
    intro name' c' hmem
    rcases List.mem_cons.1 hmem with h | hmem
    · cases h
      exact hkept
    · exact ih hrest name' c' hmem
  | values hown _ ih =>
    have hrest := ih (List.forall_mem_cons.1 hsites).2
    rcases hown with rfl | rfl | rfl <;> simpa using hrest
  | inline _ ih =>
    obtain ⟨-, hrest⟩ := List.forall_mem_cons.1 hsites
    exact ih (List.forall_mem_append.2 ⟨kept_sites, hrest⟩)

end Env

/-- Along the names of variants of the mode and of the base mode, only what the mode shows is
reached. -/
theorem Reaches.keeps (hledger : Recorded env [] ctx ledger) {origins : List Origin} {o : Origin}
    (h : Reaches ledger origins o)
    (hvariants : ∀ key variant, .variant key variant ∈ origins → variant = .base ∨ variant = mode)
    (hkeeps : ∀ name c, .property name c ∈ origins → mode.keeps (env.ownMarks c)) :
    ∀ name c, o = .property name c → mode.keeps (env.ownMarks c) := by
  induction h generalizing mode with
  | here h =>
    rintro name c rfl
    exact hkeeps name c h
  | @through origins key variant record o h hrecord hentry _ ih =>
    intro name c ho
    -- behind the variant there is a type in its mode, which names variants in the same way
    have htraced := (hledger.stands record hrecord).traced
    have hshown := htraced.unfolds.keeps (List.forall_mem_singleton.2 trivial)
    have hrecord := ih htraced.variants hshown name c ho
    rw [show record.mode = variant from congrArg Prod.snd hentry] at hrecord
    rcases hvariants key variant h with rfl | rfl
    · exact Mode.keeps_of_base hrecord
    · exact hrecord

theorem Traced.isolated (hmodes : env.options.singleMode = false)
    (hledger : Recorded env [] ctx ledger) {nodes : List (RefOr Schema)} {words : List Word}
    {origins : List Origin} (h : Traced env ctx mode (nodes.map RefOr.site) words origins) :
    Isolated ctx ledger mode words origins where
  names := by
    intro name hname
    obtain ⟨o, ho, hreads⟩ := h.origin_of_mem hname
    cases hreads with
    | variant hentry => exact .inr (.inr ⟨_, _, h.variants _ _ ho, hentry⟩)
    | enumeration henum => exact .inr (.inl henum)
    | blob => exact .inl rfl
  entries := by
    intro key variant hmem
    obtain ⟨word, -, hreads⟩ := exists_of_forall₂ h.reads hmem
    cases hreads with
    | variant hentry =>
      obtain ⟨record, hrecord, hkey, -⟩ := hledger.record_of_name hentry
      exact ⟨record, hrecord, hkey⟩
  members := by
    intro name s hreaches
    have hnodes : ∀ site ∈ nodes.map RefOr.site, site.Kept env mode :=
      List.forall_mem_map.2 fun c _ ↦ c.kept_site
    have hkeeps := hreaches.keeps hledger h.variants (h.unfolds.keeps hnodes) name _ rfl
    exact (Env.keeps_iff_mayShow hmodes).1 hkeeps

end

/-- When all functions have been made, every declaration in a mode, and every type that was compiled
in a mode on the way, names variants of that mode and of the base mode, enumerations, and binary
data. From none of them a property is reached that the mode may not show. The types of parameters
and bodies are put together from those compiled in the write mode, and the types of responses from
those compiled in the read mode. -/
theorem mode_isolation {env : Env} (hmodes : env.options.singleMode = false) {upgraded : Bool}
    {endpoints : List Endpoint} {fs : List Function} {ctx : Context}
    (h : (functions env upgraded endpoints).outcome {} = (.ok fs, ctx)) :
    (∃ ledger, Recorded env [] ctx ledger) ∧
    (∀ ledger, Recorded env [] ctx ledger →
      (∀ record ∈ ledger,
        Isolated ctx ledger record.mode record.type.words record.origins) ∧
      ∀ node mode t, Compiled env ctx node mode t →
        (∃ origins, Traced env ctx mode (node.toList.map RefOr.site) t.words origins) ∧
        ∀ origins, Traced env ctx mode (node.toList.map RefOr.site) t.words origins →
          Isolated ctx ledger mode t.words origins) ∧
    ∀ f ∈ fs, f.Typed env ctx := by
  obtain ⟨hcalls, htyped⟩ := produces_functions env upgraded endpoints {} fs ctx .refl h
  refine ⟨hcalls.recorded, fun ledger hledger ↦ ⟨?_, ?_⟩, htyped ctx .refl⟩
  · intro record hrecord
    have htraced : Traced env ctx record.mode ([.inline record.schema].map RefOr.site)
        record.type.words record.origins := (hledger.stands record hrecord).traced
    exact htraced.isolated hmodes hledger
  · intro node mode t ht
    exact ⟨ht.traces, fun origins htraced ↦ htraced.isolated hmodes hledger⟩

/-- A read variant that is isolated from what the requests of its document show. -/
theorem read_variant_isolated : ∃ fs ctx ledger record,
    (functions Ring.env false [⟨"/", {}, .post, Ring.operation⟩]).outcome {} = (.ok fs, ctx) ∧
    Recorded Ring.env [] ctx ledger ∧ record ∈ ledger ∧
    record.entry = ("#/components/schemas/A", .read) ∧
    Isolated ctx ledger .read record.type.words record.origins := by
  obtain ⟨fs, ctx, hout, hentry⟩ := Ring.outcome_functions
  obtain ⟨⟨ledger, hledger⟩, hisolated, -⟩ := mode_isolation rfl hout
  have hname : ctx.name? "#/components/schemas/A" .read = some "ARead" :=
    (Context.name?_of_get? hentry .read).trans rfl
  obtain ⟨record, hrecord, hkey, -⟩ := hledger.record_of_name hname
  have hmode : record.mode = .read := congrArg Prod.snd hkey
  exact ⟨fs, ctx, ledger, record, hout, hledger, hrecord, hkey,
    hmode ▸ (hisolated ledger hledger).1 record hrecord⟩

end ApiClient
