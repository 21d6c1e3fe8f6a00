import ApiClient.Proofs.Compile.Marking
import ApiClient.Proofs.Compile.Values

/-!
# What the table of names says

A key gets names once for all, and what they say holds from then on: the key is that of a schema in
the document, it has a name for a mode exactly if the closure of the schema has the mark of that
mode, and every reference that the first body of the schema meets has names itself. The keys that
are being declared are the only ones of which this need not hold.
-/

namespace ApiClient

open TypeScript
open Plan (Ensures)

/-- The names of a key are those of a schema in the document. -/
structure Registered (env : Env) (aliases : Table Aliases) (path : String) (plain : Bool)
    (s : Schema) (names : Aliases) : Prop where
  target : env.target path plain = .ok s
  marks : ∃ flags, Right env.snapshot (.inline s) flags ∧
    ∀ mode, mode ≠ .base → (names.own mode).isSome = flags.has mode
  value : ∃ t, (inlineType env s none .base).value env aliases = some t

/-- The tables are right, apart from the keys that are being declared. -/
structure Consistent (env : Env) (making : List String) (ctx : Context) : Prop where
  flags : Exact env.snapshot ctx.flags
  entry : ∀ key names, key ∉ making → Table.get? key ctx.aliases = some names →
    ∃ path plain s, key = env.aliasKey path plain ∧
      Registered env ctx.aliases path plain s names

namespace Consistent

variable {env : Env} {making : List String} {ctx ctx' : Context} {key : String}

theorem start (env : Env) : Consistent env [] {} where
  flags := fun _ _ h ↦ by cases h
  entry := fun _ _ _ h ↦ by cases h

theorem of_eq (h : Consistent env making ctx) (haliases : ctx'.aliases = ctx.aliases)
    (hflags : Exact env.snapshot ctx'.flags) : Consistent env making ctx' where
  flags := hflags
  entry := haliases ▸ h.entry

theorem cons (h : Consistent env making ctx) (key : String) :
    Consistent env (key :: making) ctx where
  flags := h.flags
  entry := fun other found hother ↦
    h.entry other found fun hmem ↦ hother (List.mem_cons_of_mem _ hmem)

/-- A key that is being declared gets its first name or one more. -/
theorem enter (henums : env.options.namedEnums = false) (h : Consistent env making ctx)
    (hkey : key ∈ making) (names : Aliases)
    (hbase : ∀ old, Table.get? key ctx.aliases = some old → names.base = old.base)
    (counts : Names.Counts) : Consistent env making (ctx.enter counts key names) where
  flags := h.flags
  entry := by
    intro other found hother hfound
    have hne : key ≠ other := fun heq ↦ hother (heq ▸ hkey)
    rw [Context.get?_enter_of_ne hne] at hfound
    obtain ⟨path, plain, s, rfl, hs⟩ := h.entry other found hother hfound
    obtain ⟨t, ht⟩ := hs.value
    refine ⟨path, plain, s, rfl, hs.target, hs.marks, t,
      Plan.value_later (nodeType_plain henums _ _ _) ?_ ht⟩
    intro k old hold
    by_cases heq : key = k
    · subst heq
      exact ⟨names, ctx.get?_enter_self counts key names, hbase old hold⟩
    · exact ⟨old, (Context.get?_enter_of_ne heq ..).trans hold, rfl⟩

/-- A key that has been declared belongs to the table like all others. -/
theorem finish {names : Aliases} (h : Consistent env (key :: making) ctx)
    (hnames : Table.get? key ctx.aliases = some names)
    (hkey : ∃ path plain s, key = env.aliasKey path plain ∧
      Registered env ctx.aliases path plain s names) : Consistent env making ctx where
  flags := h.flags
  entry := by
    intro other found hother hfound
    by_cases heq : other = key
    · subst heq
      cases hnames.symm.trans hfound
      exact hkey
    · exact h.entry other found (by simp [heq, hother]) hfound

end Consistent

/-- A reference keeps the tables right and has names afterwards, of which the first one is its type
in the base mode. -/
def Env.registering (env : Env) : Contract where
  pre := fun w _ _ _ ctx ↦ Consistent env (Table.keys w) ctx
  post := fun w path mode plain ctx t ctx' _ ↦
    Consistent env (Table.keys w) ctx' ∧ ctx.Steady ctx' ∧
    ∃ names, Table.get? (env.aliasKey path plain) ctx'.aliases = some names ∧
      (mode = .base → t = .named names.base)

namespace Env

variable {env : Env} {ctx : Context} {w : List (String × Mode)} {key : String}
  {s : Schema} {mode : Mode}

/-- A plan keeps the tables right, and in the base mode its result is a value from then on. -/
theorem ensures_registering {α : Type} {x : Plan α} (hx : x.Plain mode) (around : Around)
    (h : Consistent env (Table.keys (around mode)) ctx) :
    x.Ensures env env.registering around ctx fun a ctx' _ ↦
      Consistent env (Table.keys (around mode)) ctx' ∧ ctx.Steady ctx' ∧
        (mode = .base → x.value env ctx'.aliases = some a) := by
  induction x generalizing ctx with
  | done a => exact ⟨h, .refl ctx, fun _ ↦ rfl⟩
  | act b next ih =>
    intro y ctx₁ hy
    obtain ⟨hfirst, rfl⟩ := hx.1.still hy
    refine (ih y (hx.2 _ y _ hy) h).mono ?_
    rintro a ctx' - ⟨hcons, hsteady, hvalue⟩
    refine ⟨hcons, hsteady, fun hmode ↦ ?_⟩
    rw [Plan.value, hfirst]
    exact hvalue hmode
  | meet path m plain next ih =>
    obtain ⟨rfl, hnext⟩ := hx
    refine ⟨h, ?_⟩
    rintro t ctx₁ log₁ ⟨hcons, hsteady, names, hnames, ht⟩
    refine (ih t (hnext t) hcons).mono ?_
    rintro a ctx' - ⟨hcons', hsteady', hvalue⟩
    refine ⟨hcons', hsteady.trans hsteady', fun hmode ↦ ?_⟩
    subst hmode
    obtain ⟨names', hnames', hown⟩ := hsteady' _ _ hnames
    rw [Plan.value, hnames', Option.bind_some, show names'.get .base = names'.base from rfl,
      Aliases.base_eq_of_own (hown _ trivial), ← ht rfl]
    exact hvalue rfl

/-- One more declaration of a key gives it the name of its mode, and changes nothing else of it. -/
theorem variantPlan_ensures_registering (henums : env.options.namedEnums = false) {differs : Bool}
    {name : String} {names : Aliases} (hmode : mode ≠ .base)
    (h : Consistent env (key :: Table.keys w) ctx)
    (hnames : Table.get? key ctx.aliases = some names) (hnone : names.own mode = none) :
    (variantPlan env key s name mode differs).Ensures env env.registering
      (fun m ↦ (key, m) :: w) ctx fun _ ctx' _ ↦ Consistent env (key :: Table.keys w) ctx' ∧
        ctx.Later (fun k m ↦ k = key → m ≠ mode) ctx' ∧
        ∃ names', Table.get? key ctx'.aliases = some names' ∧
          (∀ m, m ≠ mode → names'.own m = names.own m) ∧ (names'.own mode).isSome = differs := by
  refine .of_variantPlan hnames (fun hsame ↦ ?_) fun hdiffers variant counts _ ↦ ?_
  · exact ⟨h, .refl ctx, names, hnames, fun _ _ ↦ rfl, by rw [hnone, hsame]; rfl⟩
  · have hentered := h.enter henums List.mem_cons_self (names.set mode variant)
      (fun old hold ↦ by cases hnames.symm.trans hold; cases mode <;> rfl) counts
    have hlater : ctx.Later (fun k m ↦ k = key → m ≠ mode)
        (ctx.enter counts key (names.set mode variant)) :=
      .set hnames counts hmode variant fun other hother ↦ hother rfl
    refine (ensures_registering (nodeType_plain henums _ none mode)
      (fun m ↦ (key, m) :: w) hentered).mono ?_
    rintro t ctx₁ - ⟨hcons, hsteady, -⟩
    obtain ⟨names', hnames', hother, hsome⟩ := Context.names_of_set hmode hsteady
    exact ⟨hcons.of_eq rfl hcons.flags, hlater.trans (hsteady.mono fun _ _ _ ↦ trivial),
      names', hnames', hother, hsome.trans hdiffers.symm⟩

/-- Declaring a schema in its modes gives its key a name for each mode of which there is a mark, and
the first body is a value from then on. -/
theorem declareModes_ensures_registering (hmodes : env.options.singleMode = false)
    (henums : env.options.namedEnums = false) {name base : String}
    (h : Consistent env (key :: Table.keys w) ctx)
    (hnames : Table.get? key ctx.aliases = some { base := base }) :
    (declareModes env key s name base).Ensures env env.registering (fun m ↦ (key, m) :: w) ctx
      fun _ ctx' _ ↦ Consistent env (key :: Table.keys w) ctx' ∧
        ctx.Later (fun k m ↦ k = key → m = .base) ctx' ∧
        (∃ names flags, Table.get? key ctx'.aliases = some names ∧
          Right env.snapshot (.inline s) flags ∧
          ∀ m, m ≠ .base → (names.own m).isSome = flags.has m) ∧
        ∃ t, (inlineType env s none .base).value env ctx'.aliases = some t := by
  refine .of_declareModes ((ensures_registering (nodeType_plain henums _ none .base)
    (fun m ↦ (key, m) :: w) h).mono ?_)
  rintro t ctx₁ - ⟨hcons₁, hsteady₁, hvalue⟩ flags ctx₂ hmarks
  have haliases : ctx₂.aliases = ctx₁.aliases :=
    (Build.aliases_of_closureMarks hmarks).trans (ctx₁.declare_aliases base t)
  have hflags₁ : Exact env.snapshot (ctx₁.declare base t).flags := hcons₁.flags
  obtain ⟨hexact, hright⟩ := closureMarks_exact hmodes hflags₁ hmarks
  obtain ⟨names₁, hnames₁, hown₁⟩ := hsteady₁ key { base := base } hnames
  refine (variantPlan_ensures_registering henums (show Mode.read ≠ .base by decide)
    (hcons₁.of_eq haliases hexact) (haliases ▸ hnames₁) (hown₁ .read trivial)).mono ?_
  rintro - ctx₃ - ⟨hcons₃, hlater₃, names₃, hnames₃, hother₃, hread⟩
  refine (variantPlan_ensures_registering henums (show Mode.write ≠ .base by decide) hcons₃ hnames₃
    ((hother₃ .write (by decide)).trans (hown₁ .write trivial))).mono ?_
  rintro - ctx₄ - ⟨hcons₄, hlater₄, names₄, hnames₄, hother₄, hwrite⟩
  have hlater : ctx₁.Later (fun k m ↦ k = key → m = .base) ctx₄ := by
    refine (Context.Later.of_eq haliases).trans ((hlater₃.mono ?_).trans (hlater₄.mono ?_)) <;>
    · rintro k m hbase rfl
      rw [hbase rfl]
      decide
  have hread' := (congrArg Option.isSome (hother₄ .read (by decide))).trans hread
  refine ⟨hcons₄, (hsteady₁.mono fun _ _ _ ↦ trivial).trans hlater,
    ⟨names₄, flags, hnames₄, hright, Aliases.isSome_own hread' hwrite⟩, t, ?_⟩
  refine Plan.value_later (nodeType_plain henums _ none .base) (fun k old hold ↦ ?_) (hvalue rfl)
  obtain ⟨new, hnew, hown⟩ := hlater k old hold
  exact ⟨new, hnew, Aliases.base_eq_of_own (hown .base fun _ ↦ rfl)⟩

theorem registering_kept (hmodes : env.options.singleMode = false)
    (henums : env.options.namedEnums = false) : env.registering.Kept env := by
  intro w path mode plain ctx h
  refine .of_referencePlan (fun names hnames ↦ ?_) ?_ ?_
  · exact ⟨h, .refl ctx, names, hnames, fun hmode ↦ by rw [hmode]; rfl⟩
  · intro _ s name t ctx₁ _ henum
    simp [Options.declaresEnum, henums] at henum
  · intro hnew s name base counts hs _ _ _
    have hentered := (h.cons (env.aliasKey path plain)).enter henums
      List.mem_cons_self { base := base } (fun old hold ↦ by simp [hnew] at hold) counts
    refine (declareModes_ensures_registering hmodes henums hentered
      (ctx.get?_enter_self _ _ _)).mono ?_
    rintro - ctx₁ - ⟨hcons, hlater, ⟨names, flags, hnames, hright, hown⟩, hvalue⟩
    have hsteady : ctx.Steady ctx₁ :=
      ((Context.Later.enter hnew counts _).trans hlater).of_new hnew
        fun _ _ hne heq ↦ absurd heq hne
    refine ⟨hcons.finish hnames ⟨path, plain, s, rfl, hs, ⟨flags, hright, hown⟩, hvalue⟩,
      hsteady, names, hnames, fun hmode ↦ ?_⟩
    rw [hnames, hmode]
    rfl

end Env

/-- Throughout a session the tables are right. -/
theorem Session.consistent {env : Env} (hmodes : env.options.singleMode = false)
    (henums : env.options.namedEnums = false) {ctx : Context} {log : List Meeting}
    (h : Session env ctx log) : Consistent env [] ctx := by
  refine h.invariant (I := fun ctx _ ↦ Consistent env [] ctx)
    (env.registering_kept hmodes henums) (.start env) ?_ ?_
  · intro ctx ctx' log haliases hflags hcons
    exact hcons.of_eq haliases (hflags ▸ hcons.flags)
  · intro path mode plain ctx log hcons
    exact ⟨hcons, fun _ _ _ hpost ↦ hpost.1⟩

end ApiClient
