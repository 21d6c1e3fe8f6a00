import ApiClient.Proofs.Compile.Marks
import ApiClient.Proofs.Compile.Variants

/-!
# Which variants a key has

While types are compiled, the results of scans that are kept stay right, and a key that is not being
declared has a name for a mode exactly if the closure of its schema has the mark of that mode.
Enumerations have no say in this, so it holds for every choice about them.
-/

namespace ApiClient

open TypeScript
open Plan (Ensures)

/-- The closure of a reference is that of its schema, with or without the discriminator. -/
theorem Env.shows_ref_iff {env : Env} {path : String} {plain : Bool} {s : Schema}
    (htarget : env.target path plain = .ok s) {finding : Finding} :
    Shows env.snapshot [] (.ref path) finding ↔ Shows env.snapshot [] (.inline s) finding := by
  obtain ⟨t, ht, rfl⟩ := Env.target_eq_ok.1 htarget
  rw [Shows.ref_iff ht, Shows.inline_iff, Shows.inline_iff]
  cases plain <;> cases finding <;> exact .rfl

theorem Right.of_target {env : Env} {path : String} {plain : Bool} {s : Schema} {flags : Flags}
    (h : Right env.snapshot (.inline s) flags) (htarget : env.target path plain = .ok s) :
    Right env.snapshot (.ref path) flags where
  sound := fun mode hmode ↦ (Env.shows_ref_iff htarget).2 (h.sound mode hmode)
  complete := fun finding hfinding ↦ h.complete finding ((Env.shows_ref_iff htarget).1 hfinding)

theorem Aliases.isSome_own {names : Aliases} {flags : Flags}
    (hread : (names.own .read).isSome = flags.readOnly)
    (hwrite : (names.own .write).isSome = flags.writeOnly) :
    ∀ mode, mode ≠ .base → (names.own mode).isSome = flags.has mode := by
  intro mode hmode
  cases mode with
  | base => exact absurd rfl hmode
  | read => exact hread
  | write => exact hwrite

/-- The variants of a key are those of which its schema has the marks. -/
structure Variants (env : Env) (key : String) (path : String) (plain : Bool) (s : Schema)
    (names : Aliases) : Prop where
  key : key = env.aliasKey path plain
  target : env.target path plain = .ok s
  marks : ∃ flags, Right env.snapshot (.inline s) flags ∧
    ∀ mode, mode ≠ .base → (names.own mode).isSome = flags.has mode

/-- The results of scans and the variants of keys are right, apart from the keys that are being
declared. -/
structure Marked (env : Env) (making : List String) (ctx : Context) : Prop where
  flags : Exact env.snapshot ctx.flags
  entry : ∀ key names, key ∉ making → Table.get? key ctx.aliases = some names →
    ∃ path plain s, Variants env key path plain s names

namespace Marked

variable {env : Env} {making : List String} {ctx ctx' : Context} {key : String}

theorem start (env : Env) : Marked env [] {} where
  flags := fun _ _ h ↦ by cases h
  entry := fun _ _ _ h ↦ by cases h

theorem of_eq (h : Marked env making ctx) (haliases : ctx'.aliases = ctx.aliases)
    (hflags : Exact env.snapshot ctx'.flags) : Marked env making ctx' where
  flags := hflags
  entry := haliases ▸ h.entry

theorem enter (h : Marked env making ctx) (counts : Names.Counts) (names : Aliases) :
    Marked env (key :: making) (ctx.enter counts key names) where
  flags := h.flags
  entry := by
    intro other found hother hfound
    obtain ⟨hne, hother⟩ := List.ne_and_not_mem_of_not_mem_cons hother
    rw [Context.get?_enter_of_ne hne.symm] at hfound
    exact h.entry other found hother hfound

theorem reenter (h : Marked env (key :: making) ctx) (counts : Names.Counts) (names : Aliases) :
    Marked env (key :: making) (ctx.enter counts key names) where
  flags := h.flags
  entry := fun other found hother hfound ↦
    (h.enter counts names).entry other found (by simpa using hother) hfound

theorem finish {names : Aliases} (h : Marked env (key :: making) ctx)
    (hnames : Table.get? key ctx.aliases = some names)
    (hkey : ∃ path plain s, Variants env key path plain s names) : Marked env making ctx where
  flags := h.flags
  entry := by
    intro other found hother hfound
    by_cases heq : other = key
    · subst heq
      cases hnames.symm.trans hfound
      exact hkey
    · exact h.entry other found (by simp [heq, hother]) hfound

end Marked

def Env.marking (env : Env) : Contract where
  pre := fun w _ _ _ ctx ↦ Marked env (Table.keys w) ctx
  post := fun w _ _ _ _ _ ctx' _ ↦ Marked env (Table.keys w) ctx'

namespace Env

variable {env : Env} {ctx : Context} {w : List (String × Mode)} {key : String}
  {s : Schema} {mode : Mode}

theorem nodeType_ensures_marking (node : RefOr Schema) (name : Option String) (around : Around)
    (h : Marked env (Table.keys (around mode)) ctx) :
    (nodeType env node name mode).Ensures env (env.marking.given env.naming) around ctx
      fun _ ctx' _ ↦ Marked env (Table.keys (around mode)) ctx' ∧ ctx.Steady ctx' := by
  refine Ensures.of_within
    (I := fun ctx' _ ↦ Marked env (Table.keys (around mode)) ctx' ∧ ctx.Steady ctx') ?_ ?_
    (nodeType_within (M := fun _ m _ ↦ m = mode) (admits_still env) node name fun _ _ _ ↦ rfl)
    [] ⟨h, .refl ctx⟩
  · rintro σ b hb ctx₁ x ctx₂ log hout ⟨hmarked, hsteady⟩
    have haliases := hb.aliases hout
    exact ⟨hmarked.of_eq haliases (hb.flags hout ▸ hmarked.flags), hsteady.trans (.of_eq haliases)⟩
  · rintro path m plain rfl ctx₁ log ⟨hmarked, hsteady⟩
    refine ⟨hmarked, ?_⟩
    rintro t ctx₂ log' ⟨⟨hsteady', -⟩, hmarked'⟩
    exact ⟨hmarked', hsteady.trans hsteady'⟩

theorem variantPlan_ensures_marking {differs : Bool} {name : String} {names : Aliases}
    (hmode : mode ≠ .base) (h : Marked env (key :: Table.keys w) ctx)
    (hnames : Table.get? key ctx.aliases = some names) (hnone : names.own mode = none) :
    (variantPlan env key s name mode differs).Ensures env (env.marking.given env.naming)
      (fun m ↦ (key, m) :: w) ctx fun _ ctx' _ ↦ Marked env (key :: Table.keys w) ctx' ∧
        ∃ names', Table.get? key ctx'.aliases = some names' ∧
          (∀ m, m ≠ mode → names'.own m = names.own m) ∧ (names'.own mode).isSome = differs := by
  refine .of_variantPlan hnames (fun hsame ↦ ?_) fun hdiffers variant counts _ ↦ ?_
  · exact ⟨h, names, hnames, fun _ _ ↦ rfl, by rw [hnone, hsame]; rfl⟩
  · refine (nodeType_ensures_marking (.inline s) none (fun m ↦ (key, m) :: w)
      (h.reenter counts (names.set mode variant))).mono ?_
    rintro t ctx₁ - ⟨hmarked, hsteady⟩
    obtain ⟨names', hnames', hother, hsome⟩ := Context.names_of_set hmode hsteady
    exact ⟨hmarked.of_eq rfl hmarked.flags, names', hnames', hother, hsome.trans hdiffers.symm⟩

theorem declareModes_ensures_marking (hmodes : env.options.singleMode = false) {name base : String}
    (h : Marked env (key :: Table.keys w) ctx)
    (hnames : Table.get? key ctx.aliases = some { base := base }) :
    (declareModes env key s name base).Ensures env (env.marking.given env.naming)
      (fun m ↦ (key, m) :: w) ctx fun _ ctx' _ ↦ Marked env (key :: Table.keys w) ctx' ∧
        ∃ names flags, Table.get? key ctx'.aliases = some names ∧
          Right env.snapshot (.inline s) flags ∧
          ∀ m, m ≠ .base → (names.own m).isSome = flags.has m := by
  refine .of_declareModes ((nodeType_ensures_marking (.inline s) none (fun m ↦ (key, m) :: w)
    h).mono ?_)
  rintro t ctx₁ - ⟨hmarked₁, hsteady₁⟩ flags ctx₂ hmarks
  have haliases : ctx₂.aliases = ctx₁.aliases :=
    (Build.aliases_of_closureMarks hmarks).trans (ctx₁.declare_aliases base t)
  have hflags₁ : Exact env.snapshot (ctx₁.declare base t).flags := hmarked₁.flags
  obtain ⟨hexact, hright⟩ := closureMarks_exact hmodes hflags₁ hmarks
  obtain ⟨names₁, hnames₁, hown₁⟩ := hsteady₁ _ _ hnames
  refine (variantPlan_ensures_marking (show Mode.read ≠ .base by decide)
    (hmarked₁.of_eq haliases hexact) (haliases ▸ hnames₁) (hown₁ .read trivial)).mono ?_
  rintro - ctx₃ - ⟨hmarked₃, names₃, hnames₃, hother₃, hread⟩
  refine (variantPlan_ensures_marking (show Mode.write ≠ .base by decide) hmarked₃ hnames₃
    ((hother₃ .write (by decide)).trans (hown₁ .write trivial))).mono ?_
  rintro - ctx₄ - ⟨hmarked₄, names₄, hnames₄, hother₄, hwrite⟩
  have hread' := (congrArg Option.isSome (hother₄ .read (by decide))).trans hread
  exact ⟨hmarked₄, names₄, flags, hnames₄, hright, Aliases.isSome_own hread' hwrite⟩

theorem marking_kept (hmodes : env.options.singleMode = false) :
    (env.marking.and env.naming).Kept env := by
  refine env.naming_kept.and fun w path mode plain ctx h ↦ ?_
  refine .of_referencePlan (fun names _ ↦ h) ?_ ?_
  · intro _ s name t ctx₁ _ _ hout
    have hstill := Build.still_declareEnum s name
    exact h.of_eq (hstill.aliases hout) (hstill.flags hout ▸ h.flags)
  · intro hnew s name base counts hs _ _ _
    refine (declareModes_ensures_marking hmodes (h.enter counts { base := base })
      (ctx.get?_enter_self _ _ _)).mono ?_
    rintro - ctx₁ - ⟨hmarked, names, flags, hnames, hright, hown⟩
    exact hmarked.finish hnames ⟨path, plain, s, rfl, hs, flags, hright, hown⟩

end Env

end ApiClient
