import ApiClient.Proofs.Compile.Tracing

/-!
# The ledger of declarations

Every name that a key has got for a mode is that of one declaration, which is made once. The name is
entered before the declaration is made, so in between the declaration is pending. Behind each
declaration there is a record of the schema that was compiled and of where the words of its type
come from.
-/

namespace ApiClient

open TypeScript
open Plan (Ensures)

/-- What stands behind a declared alias. -/
structure Record where
  key : String
  mode : Mode
  schema : Schema
  name : String
  type : Ty
  origins : List Origin

namespace Record

def entry (record : Record) : String × Mode := (record.key, record.mode)

def declaration (record : Record) : Declaration := .typeAlias record.name record.type

/-- The record is right: its name is that of the entry, and its type is that of the schema to which
the key belongs. -/
structure Stands (env : Env) (ctx : Context) (record : Record) : Prop where
  target : ∃ path plain, record.key = env.aliasKey path plain ∧
    env.target path plain = .ok record.schema
  name : ctx.name? record.key record.mode = some record.name
  traced : Traced env ctx record.mode [.inline record.schema] record.type.words record.origins

theorem Stands.mono {env : Env} {ctx ctx' : Context} {record : Record}
    (h : record.Stands env ctx) (hbelow : ctx.Below ctx') : record.Stands env ctx' where
  target := h.target
  name := hbelow.names _ _ _ h.name
  traced := h.traced.mono hbelow

end Record

/-- The entries of the table of names are those of the ledger, each of them once, and those whose
declarations are pending. -/
structure Recorded (env : Env) (pending : List (String × Mode)) (ctx : Context)
    (ledger : List Record) : Prop where
  declarations : ctx.typeDeclarations = ledger.map Record.declaration
  nodup : (pending ++ ledger.map Record.entry).Nodup
  entries : ∀ key mode, (ctx.name? key mode).isSome ↔
    (key, mode) ∈ pending ++ ledger.map Record.entry
  stands : ∀ record ∈ ledger, record.Stands env ctx
  enums : ctx.EnumsDeclared

namespace Context

theorem name?_enter (ctx : Context) (counts : Names.Counts) (key other : String) (names : Aliases)
    (mode : Mode) : (ctx.enter counts key names).name? other mode =
      if key = other then names.own mode else ctx.name? other mode := by
  unfold name?
  split
  next h => rw [← h, get?_enter_self, Option.bind_some]
  next h => rw [get?_enter_of_ne h]

theorem name?_of_get? {ctx : Context} {key : String} {names : Aliases}
    (h : Table.get? key ctx.aliases = some names) (mode : Mode) :
    ctx.name? key mode = names.own mode := by
  rw [name?, h, Option.bind_some]

theorem name?_eq_none {ctx : Context} {key : String} (h : Table.get? key ctx.aliases = none)
    (mode : Mode) : ctx.name? key mode = none := by
  rw [name?, h, Option.bind_none]

theorem own_eq_of_new {ctx : Context} {key : String} (h : Table.get? key ctx.aliases = none)
    (base : String) :
    ∀ other, other ≠ .base → Aliases.own { base := base } other = ctx.name? key other := by
  intro other hother
  rw [name?_eq_none h]
  cases other with
  | base => exact absurd rfl hother
  | read | write => rfl

theorem own_set_eq {ctx : Context} {key : String} {names : Aliases} {mode : Mode}
    (h : Table.get? key ctx.aliases = some names) (hmode : mode ≠ .base) (variant : String) :
    ∀ other, other ≠ mode → (names.set mode variant).own other = ctx.name? key other :=
  fun other hother ↦ by rw [Aliases.own_set _ hmode, if_neg hother, name?_of_get? h]

theorem Below.of_eq {ctx ctx' : Context} (haliases : ctx'.aliases = ctx.aliases)
    (henums : ctx.enumDeclarations ⊆ ctx'.enumDeclarations) : ctx.Below ctx' where
  names := fun key mode name hname ↦ by rwa [name?, haliases]
  enums := henums

theorem Below.enter {ctx : Context} {key : String} {mode : Mode} {names : Aliases}
    (hnew : ctx.name? key mode = none)
    (hold : ∀ other, other ≠ mode → names.own other = ctx.name? key other)
    (counts : Names.Counts) : ctx.Below (ctx.enter counts key names) where
  names := by
    intro other m name hname
    rw [name?_enter]
    split
    next h =>
      subst h
      by_cases hm : m = mode
      · subst hm
        simp [hname] at hnew
      · rw [hold m hm, hname]
    next => exact hname
  enums := List.Subset.refl _

end Context

namespace Recorded

variable {env : Env} {pending : List (String × Mode)} {ctx ctx' : Context} {ledger : List Record}
  {key name : String} {mode : Mode}

theorem start (env : Env) : Recorded env [] {} [] where
  declarations := rfl
  nodup := List.nodup_nil
  entries := fun key mode ↦ by simp [Context.name?]
  stands := by simp
  enums := fun _ _ h ↦ by cases h

theorem of_eq (h : Recorded env pending ctx ledger) (haliases : ctx'.aliases = ctx.aliases)
    (hdecls : ctx'.typeDeclarations = ctx.typeDeclarations) (henums : ctx'.EnumsDeclared)
    (hsub : ctx.enumDeclarations ⊆ ctx'.enumDeclarations) :
    Recorded env pending ctx' ledger where
  declarations := hdecls.trans h.declarations
  nodup := h.nodup
  entries := fun key mode ↦ by rw [Context.name?, haliases, ← h.entries, Context.name?]
  stands := fun record hrecord ↦ (h.stands record hrecord).mono (.of_eq haliases hsub)
  enums := henums

theorem enter (h : Recorded env pending ctx ledger) {names : Aliases}
    (hnew : ctx.name? key mode = none) (hname : (names.own mode).isSome)
    (hold : ∀ other, other ≠ mode → names.own other = ctx.name? key other)
    (counts : Names.Counts) :
    Recorded env ((key, mode) :: pending) (ctx.enter counts key names) ledger where
  declarations := h.declarations
  nodup := by
    refine List.nodup_cons.2 ⟨fun hmem ↦ ?_, h.nodup⟩
    have hsome := (h.entries key mode).2 hmem
    rw [hnew] at hsome
    cases hsome
  entries := by
    intro other m
    rw [Context.name?_enter, List.cons_append, List.mem_cons, ← h.entries, Prod.mk.injEq]
    by_cases hkey : key = other
    · subst hkey
      by_cases hm : m = mode
      · subst hm
        simp [hname]
      · simp [hold m hm, hm]
    · simp [hkey, Ne.symm hkey]
  stands := fun record hrecord ↦ (h.stands record hrecord).mono (.enter hnew hold counts)
  enums := h.enums.of_eq rfl rfl

theorem declare {record : Record} (h : Recorded env (record.entry :: pending) ctx ledger)
    (hrecord : record.Stands env ctx) :
    Recorded env pending (ctx.declare record.name record.type) (ledger ++ [record]) where
  declarations := by
    rw [List.map_append, ← h.declarations]
    rfl
  nodup := by
    rw [List.map_append, List.map_singleton, ← List.append_assoc]
    exact (List.perm_append_singleton _ _).nodup_iff.2 h.nodup
  entries := by
    intro key mode
    rw [List.map_append, List.map_singleton, ← List.append_assoc,
      (List.perm_append_singleton _ _).mem_iff]
    exact h.entries key mode
  stands := by
    intro other hother
    have hbelow : ctx.Below (ctx.declare record.name record.type) :=
      .of_eq rfl (List.Subset.refl _)
    rcases List.mem_append.1 hother with hother | hother
    · exact (h.stands other hother).mono hbelow
    · exact List.mem_singleton.1 hother ▸ hrecord.mono hbelow
  enums := h.enums.of_eq rfl rfl

theorem entry_iff (h : Recorded env [] ctx ledger) :
    (key, mode) ∈ ledger.map Record.entry ↔ (ctx.name? key mode).isSome := by
  rw [h.entries, List.nil_append]

theorem record_of_name (h : Recorded env [] ctx ledger)
    (hname : ctx.name? key mode = some name) :
    ∃ record ∈ ledger, record.entry = (key, mode) ∧ record.name = name := by
  have hsome : (ctx.name? key mode).isSome := by
    rw [hname]
    rfl
  obtain ⟨record, hrecord, hentry⟩ := List.mem_map.1 (h.entry_iff.2 hsome)
  refine ⟨record, hrecord, hentry, ?_⟩
  have hown := (h.stands record hrecord).name
  cases hentry
  exact Option.some.inj (hown.symm.trans hname)

end Recorded

/-- What the steps of a plan leave alone, apart from the enumerations that they add. -/
structure Build.Tame {σ : Type} (b : Build σ) : Prop where
  aliases : ∀ {ctx ctx' x}, b.outcome ctx = (.ok x, ctx') → ctx'.aliases = ctx.aliases
  declarations : ∀ {ctx ctx' x}, b.outcome ctx = (.ok x, ctx') →
    ctx'.typeDeclarations = ctx.typeDeclarations
  enums : ∀ {ctx ctx' x}, b.outcome ctx = (.ok x, ctx') → ctx.EnumsDeclared →
    ctx'.EnumsDeclared ∧ ctx.enumDeclarations ⊆ ctx'.enumDeclarations

namespace Build.Tame

variable {σ : Type} {b : Build σ} {env : Env} {pending : List (String × Mode)}
  {ctx ctx' : Context} {ledger : List Record} {x : σ}

theorem of_fixed (h : b.Fixed) : b.Tame where
  aliases := fun hout ↦ by rw [(h.still hout).2]
  declarations := fun hout ↦ by rw [(h.still hout).2]
  enums := fun hout henums ↦ by
    rw [(h.still hout).2]
    exact ⟨henums, List.Subset.refl _⟩

theorem recorded (h : b.Tame) (hout : b.outcome ctx = (.ok x, ctx'))
    (hctx : Recorded env pending ctx ledger) : Recorded env pending ctx' ledger :=
  hctx.of_eq (h.aliases hout) (h.declarations hout) (h.enums hout hctx.enums).1
    (h.enums hout hctx.enums).2

theorem below (h : b.Tame) (hout : b.outcome ctx = (.ok x, ctx')) (henums : ctx.EnumsDeclared) :
    ctx.Below ctx' :=
  .of_eq (h.aliases hout) (h.enums hout henums).2

end Build.Tame

theorem Build.tame_declareEnum (s : Schema) (name : String) :
    (ApiClient.declareEnum s name).Tame where
  aliases := fun hout ↦ (Build.still_declareEnum s name).aliases hout
  declarations := fun {ctx _ _} hout ↦ by
    have hkeeps : Build.Keeps Context.typeDeclarations (ApiClient.declareEnum s name) :=
      Build.keeps_declareEnum (fun _ _ ↦ rfl) (fun _ _ ↦ rfl) (fun _ _ ↦ rfl) s name
    have hctx := hkeeps ctx
    rwa [hout] at hctx
  enums := fun hout henums ↦ (Build.declareEnum_ok hout henums).imp id And.left

theorem Env.tame_simpleType (env : Env) (s : Schema) (name : Option String) :
    (simpleType env s name).Tame where
  aliases := fun hout ↦ (Build.still_simpleType env s name).aliases hout
  declarations := fun {ctx _ _} hout ↦ by
    have hkeeps : Build.Keeps Context.typeDeclarations (simpleType env s name) :=
      Build.keeps_simpleType (fun _ _ ↦ rfl) (fun _ _ ↦ rfl) (fun _ _ ↦ rfl) env s name
    have hctx := hkeeps ctx
    rwa [hout] at hctx
  enums := fun hout henums ↦
    (Build.simpleType_ok hout henums).imp id And.left

theorem Build.Tame.of_keeps {σ : Type} {b : Build σ}
    (h : ∀ {γ : Type} (part : Context → γ),
      (∀ (ctx : Context) flags names, part { ctx with flags, functionNames := names } = part ctx) →
      Build.Keeps part b) : b.Tame := by
  have hkeeps {γ : Type} (part : Context → γ) (hpart : ∀ (ctx : Context) flags names,
      part { ctx with flags, functionNames := names } = part ctx) {ctx ctx' : Context} {x : σ}
      (hout : b.outcome ctx = (.ok x, ctx')) : part ctx' = part ctx := by
    have hkept := h part hpart ctx
    rwa [hout] at hkept
  refine ⟨hkeeps Context.aliases fun _ _ _ ↦ rfl, hkeeps Context.typeDeclarations fun _ _ _ ↦ rfl,
    fun hout henums ↦ ?_⟩
  have hdecls := hkeeps Context.enumDeclarations (fun _ _ _ ↦ rfl) hout
  exact ⟨henums.of_eq (hkeeps Context.enums (fun _ _ _ ↦ rfl) hout) hdecls,
    hdecls ▸ List.Subset.refl _⟩

theorem Env.tame_closureMarks (env : Env) (s : Schema) : (env.closureMarks s).Tame :=
  .of_keeps fun _ hpart ↦ Build.keeps_closureMarks (fun ctx flags ↦ hpart ctx flags _) env s

theorem admits_tame (env : Env) : Admits env fun _ b ↦ b.Tame where
  simple := env.tame_simpleType
  lift := fun x ↦ .of_fixed (.lift x)
  resolve := fun x ↦ .of_fixed (.ofResolve x)

/-- A reference keeps the ledger right and is answered by a name that can be looked up. -/
def Env.recording (env : Env) : Contract where
  pre := fun w _ _ _ ctx ↦ ∃ ledger, Recorded env w ctx ledger
  post := fun w path mode plain ctx t ctx' _ ↦
    (∃ ledger, Recorded env w ctx' ledger) ∧ ctx.Below ctx' ∧ ctx'.Answers env path mode plain t

namespace Env

variable {env : Env} {ctx : Context} {w : List (String × Mode)} {key : String} {s : Schema}
  {mode : Mode} {ledger : List Record}

theorem nodeType_ensures_recording (node : RefOr Schema) (name : Option String) (around : Around)
    (h : Recorded env (around mode) ctx ledger) :
    (nodeType env node name mode).Ensures env (env.recording.given env.naming) around ctx
      fun t ctx' _ ↦ (∃ ledger', Recorded env (around mode) ctx' ledger') ∧ ctx.Steady ctx' ∧
        ctx.Below ctx' ∧ Traces env ctx' mode [node.site] t.words := by
  refine (Ensures.of_always (I := fun ctx ↦ ∃ ledger, Recorded env (around mode) ctx ledger)
    (L := fun ctx ctx' ↦ ctx.Steady ctx' ∧ ctx.Below ctx')
    (V := fun ctx _ b x ↦ ctx.Came b x) (R := fun ctx ↦ ctx.Answers env)
    (fun ctx ↦ ⟨.refl ctx, .refl ctx⟩) (fun h h' ↦ ⟨h.1.trans h'.1, h.2.trans h'.2⟩)
    (fun h _ _ _ hcame ↦ hcame.mono h.2) (fun h _ _ _ _ hanswers ↦ hanswers.mono h.2) ?_ ?_
    (nodeType_within (M := fun _ m _ ↦ m = mode) (admits_tame env) node name fun _ _ _ ↦ rfl)
    ⟨ledger, h⟩).mono ?_
  · rintro σ b hb ctx x ctx₁ hout ⟨ledger, hledger⟩
    exact ⟨⟨ledger, hb.recorded hout hledger⟩,
      ⟨.of_eq (hb.aliases hout), hb.below hout hledger.enums⟩,
      ctx, ctx₁, hledger.enums, hout, List.Subset.refl _⟩
  · rintro path m plain rfl ctx hledger
    refine ⟨hledger, ?_⟩
    rintro t ctx₁ log ⟨⟨hsteady, -⟩, hledger', hbelow, hanswers⟩
    exact ⟨hledger', ⟨hsteady, hbelow⟩, hanswers⟩
  · rintro t ctx' - ⟨hledger, ⟨hsteady, hbelow⟩, halways⟩
    exact ⟨hledger, hsteady, hbelow, halways _ (yields_nodeType node name)⟩

theorem declareIn_ensures_recording {name : String}
    (htarget : ∃ path plain, key = env.aliasKey path plain ∧ env.target path plain = .ok s)
    (h : Recorded env ((key, mode) :: w) ctx ledger) (hname : ctx.name? key mode = some name) :
    (inlineType env s none mode).Ensures env (env.recording.given env.naming)
      (fun m ↦ (key, m) :: w) ctx fun t ctx' _ ↦
        (∃ ledger', Recorded env w (ctx'.declare name t) ledger') ∧
        ctx.Steady (ctx'.declare name t) ∧ ctx.Below (ctx'.declare name t) := by
  refine (nodeType_ensures_recording (.inline s) none (fun m ↦ (key, m) :: w) h).mono ?_
  rintro t ctx' - ⟨⟨ledger', hledger'⟩, hsteady, hbelow, origins, htraced⟩
  have hstands : Record.Stands env ctx' ⟨key, mode, s, name, t, origins⟩ :=
    ⟨htarget, hbelow.names _ _ _ hname, htraced⟩
  refine ⟨⟨_, hledger'.declare hstands⟩, ?_, ?_⟩
  · exact hsteady.trans (.of_eq rfl)
  · exact hbelow.trans (.of_eq rfl (List.Subset.refl _))

theorem variantPlan_ensures_recording {differs : Bool} {name : String} {names : Aliases}
    (hmode : mode ≠ .base)
    (htarget : ∃ path plain, key = env.aliasKey path plain ∧ env.target path plain = .ok s)
    (h : Recorded env w ctx ledger) (hnames : Table.get? key ctx.aliases = some names)
    (hnone : names.own mode = none) :
    (variantPlan env key s name mode differs).Ensures env (env.recording.given env.naming)
      (fun m ↦ (key, m) :: w) ctx fun _ ctx' _ ↦ (∃ ledger', Recorded env w ctx' ledger') ∧
        ctx.Below ctx' ∧ ∃ names', Table.get? key ctx'.aliases = some names' ∧
          ∀ m, m ≠ mode → names'.own m = names.own m := by
  refine .of_variantPlan hnames (fun _ ↦ ?_) fun _ variant counts _ ↦ ?_
  · exact ⟨⟨ledger, h⟩, .refl ctx, names, hnames, fun _ _ ↦ rfl⟩
  · have hnew : ctx.name? key mode = none := (Context.name?_of_get? hnames mode).trans hnone
    have hown : (names.set mode variant).own mode = some variant := by
      rw [Aliases.own_set _ hmode, if_pos rfl]
    have hold := Context.own_set_eq hnames hmode variant
    have hname : (ctx.enter counts key (names.set mode variant)).name? key mode = some variant := by
      rw [Context.name?_enter, if_pos rfl, hown]
    refine (declareIn_ensures_recording htarget
      (h.enter hnew (by rw [hown]; rfl) hold counts) hname).mono ?_
    rintro t ctx' - ⟨hledger', hsteady, hbelow⟩
    obtain ⟨names', hnames', hother, -⟩ := Context.names_of_set hmode hsteady
    exact ⟨hledger', (Context.Below.enter hnew hold counts).trans hbelow, names', hnames', hother⟩

theorem declareModes_ensures_recording {name base : String}
    (htarget : ∃ path plain, key = env.aliasKey path plain ∧ env.target path plain = .ok s)
    (h : Recorded env ((key, .base) :: w) ctx ledger)
    (hnames : Table.get? key ctx.aliases = some { base := base }) :
    (declareModes env key s name base).Ensures env (env.recording.given env.naming)
      (fun m ↦ (key, m) :: w) ctx fun _ ctx' _ ↦ (∃ ledger', Recorded env w ctx' ledger') ∧
        ctx.Below ctx' ∧ ∃ names, Table.get? key ctx'.aliases = some names := by
  refine .of_declareModes ((declareIn_ensures_recording htarget h
    (Context.name?_of_get? hnames .base)).mono ?_)
  rintro t ctx₁ - ⟨⟨ledger₁, hledger₁⟩, hsteady₁, hbelow₁⟩ flags ctx₂ hmarks
  have htame := env.tame_closureMarks s
  have haliases : ctx₂.aliases = (ctx₁.declare base t).aliases := htame.aliases hmarks
  have hledger₂ := htame.recorded hmarks hledger₁
  have hbelow₂ := htame.below hmarks hledger₁.enums
  obtain ⟨names₁, hnames₁, hown₁⟩ := hsteady₁ _ _ hnames
  refine (variantPlan_ensures_recording (show Mode.read ≠ .base by decide) htarget hledger₂
    (haliases ▸ hnames₁) (hown₁ .read trivial)).mono ?_
  rintro - ctx₃ - ⟨⟨ledger₃, hledger₃⟩, hbelow₃, names₃, hnames₃, hown₃⟩
  refine (variantPlan_ensures_recording (show Mode.write ≠ .base by decide) htarget hledger₃ hnames₃
    ((hown₃ .write (by decide)).trans (hown₁ .write trivial))).mono ?_
  rintro - ctx₄ - ⟨hledger₄, hbelow₄, names₄, hnames₄, -⟩
  refine ⟨hledger₄, ?_, names₄, hnames₄⟩
  exact hbelow₁.trans (hbelow₂.trans (hbelow₃.trans hbelow₄))

end Env

namespace Context

/-- A name of a key that stands for it in a mode: the one for the mode, or the first one. -/
def IsName (ctx : Context) (key : String) (mode : Mode) (name : String) : Prop :=
  ∃ variant, (variant = .base ∨ variant = mode) ∧ ctx.name? key variant = some name

variable {ctx : Context} {key : String} {mode : Mode}

theorem IsName.mono {ctx' : Context} {name : String} (h : ctx.IsName key mode name)
    (hbelow : ctx.Below ctx') : ctx'.IsName key mode name :=
  h.imp fun _ ⟨hvariant, hname⟩ ↦ ⟨hvariant, hbelow.names _ _ _ hname⟩

theorem IsName.of_get? {names : Aliases} (h : Table.get? key ctx.aliases = some names)
    (mode : Mode) : ctx.IsName key mode (names.get mode) := by
  cases hown : names.own mode with
  | none => exact ⟨.base, .inl rfl, by rw [name?_of_get? h, Aliases.get_eq_base hown]; rfl⟩
  | some name =>
    refine ⟨mode, .inr rfl, ?_⟩
    rw [name?_of_get? h, hown, Aliases.get_eq_own, hown]
    rfl

theorem Answers.of_get? {env : Env} {path : String} {plain : Bool} {names : Aliases}
    (h : Table.get? (env.aliasKey path plain) ctx.aliases = some names) (mode : Mode) :
    ctx.Answers env path mode plain (.named (names.get mode)) :=
  ⟨_, rfl, .inl (IsName.of_get? h mode)⟩

end Context

namespace Env

theorem referencePlan_ensures_recording {env : Env} {ctx : Context} {w : List (String × Mode)}
    {ledger : List Record} (path : String) (mode : Mode) (plain : Bool)
    (h : Recorded env w ctx ledger) :
    (referencePlan env path mode plain).Ensures env (env.recording.given env.naming)
      (fun m ↦ (env.aliasKey path plain, m) :: w) ctx
      (env.recording.post w path mode plain ctx) := by
  refine .of_referencePlan (fun names hnames ↦ ?_) ?_ ?_
  · exact ⟨⟨ledger, h⟩, .refl ctx, .of_get? hnames mode⟩
  · intro _ s name t ctx₁ _ _ hout
    obtain ⟨-, -, n, rfl, henum⟩ := Build.declareEnum_ok hout h.enums
    have htame := Build.tame_declareEnum s name
    exact ⟨⟨ledger, htame.recorded hout h⟩, htame.below hout h.enums, n, rfl, .inr henum⟩
  · intro hnew s name base counts hs _ _ _
    have hname := Context.name?_eq_none hnew
    have hold := Context.own_eq_of_new hnew base
    refine (declareModes_ensures_recording ⟨path, plain, rfl, hs⟩
      (h.enter (hname .base) rfl hold counts) (ctx.get?_enter_self ..)).mono ?_
    rintro - ctx₁ - ⟨hledger, hbelow, names, hnames⟩
    refine ⟨hledger, (Context.Below.enter (hname .base) hold counts).trans hbelow, ?_⟩
    rw [hnames]
    exact .of_get? hnames mode

theorem recording_kept (env : Env) : (env.recording.and env.naming).Kept env :=
  env.naming_kept.and fun _ path mode plain _ ⟨_, h⟩ ↦
    referencePlan_ensures_recording path mode plain h

end Env

end ApiClient
