import ApiClient.Proofs.Compile.Calls

/-!
# What declared types are

A name that a key has got for a mode is that of a declared type, and this type is one that the plan
of the schema of the key comes to, if references are answered with names of their keys. So what
every such plan comes to can be read off the declarations.
-/

namespace ApiClient

open TypeScript
open Plan (Ensures)

/-- A reference gets the name of an enumeration, which is no name of its key. -/
def Env.Enumerates (env : Env) (path : String) (plain : Bool) : Prop :=
  ∃ s name, env.target path plain = .ok s ∧ env.options.declaresEnum s name = true

namespace Context

/-- What a reference is answered in a mode. -/
def Answered (ctx : Context) (env : Env) (path : String) (mode : Mode) (plain : Bool) (t : Ty) :
    Prop :=
  ∃ name, t = .named name ∧ (ctx.IsName (env.aliasKey path plain) mode name ∨
    env.Enumerates path plain ∧ ctx.IsEnum name)

/-- The plan of a node can come to a type. -/
def Makes (ctx : Context) (env : Env) (node : RefOr Schema) (name : Option String) (mode : Mode)
    (t : Ty) : Prop :=
  ∀ P : Ty → Prop, (nodeType env node name mode).Always (fun _ b x ↦ ctx.Came b x)
    (ctx.Answered env) P → P t

/-- The name of a key for a mode is that of a declared type, which the plan of its schema can come
to. -/
def Establishes (ctx : Context) (env : Env) (key : String) (mode : Mode) (name : String) : Prop :=
  ∃ path plain s t, key = env.aliasKey path plain ∧ env.target path plain = .ok s ∧
    .typeAlias name t ∈ ctx.typeDeclarations ∧ ctx.Makes env (.inline s) none mode t

/-- All names are established, apart from those whose declarations are pending. -/
structure Established (env : Env) (pending : List (String × Mode)) (ctx : Context) : Prop where
  names : ∀ key mode name, ctx.name? key mode = some name → (key, mode) ∉ pending →
    ctx.Establishes env key mode name
  enums : ctx.EnumsDeclared

section

variable {env : Env} {ctx ctx' : Context} {mode : Mode}

theorem Answered.mono {path : String} {plain : Bool} {t : Ty}
    (h : ctx.Answered env path mode plain t) (hbelow : ctx.Below ctx') :
    ctx'.Answered env path mode plain t := by
  obtain ⟨name, ht, hname | ⟨hreference, henum⟩⟩ := h
  · exact ⟨name, ht, .inl (hname.mono hbelow)⟩
  · exact ⟨name, ht, .inr ⟨hreference, henum.mono hbelow.enums⟩⟩

theorem Makes.mono {node : RefOr Schema} {name : Option String} {t : Ty}
    (h : ctx.Makes env node name mode t) (hbelow : ctx.Below ctx') :
    ctx'.Makes env node name mode t := by
  refine fun P hP ↦ h P (hP.weaken (fun _ b x hcame ↦ hcame.mono hbelow) ?_)
  exact fun _ _ _ _ hanswered ↦ hanswered.mono hbelow

theorem Establishes.mono {key name : String} (h : ctx.Establishes env key mode name)
    (hbelow : ctx.Below ctx') (hsub : ctx.typeDeclarations ⊆ ctx'.typeDeclarations) :
    ctx'.Establishes env key mode name := by
  obtain ⟨path, plain, s, t, hkey, htarget, hmem, hmakes⟩ := h
  exact ⟨path, plain, s, t, hkey, htarget, hsub hmem, hmakes.mono hbelow⟩

end

namespace Established

variable {env : Env} {pending : List (String × Mode)} {ctx ctx' : Context} {key name : String}
  {mode : Mode}

theorem start (env : Env) : Established env [] {} where
  names := fun _ _ _ h ↦ by cases h
  enums := fun _ _ h ↦ by cases h

theorem of_eq (h : Established env pending ctx) (haliases : ctx'.aliases = ctx.aliases)
    (hdecls : ctx'.typeDeclarations = ctx.typeDeclarations) (henums : ctx'.EnumsDeclared)
    (hsub : ctx.enumDeclarations ⊆ ctx'.enumDeclarations) : Established env pending ctx' where
  names := by
    intro key mode name hname hnot
    rw [Context.name?, haliases] at hname
    exact (h.names key mode name hname hnot).mono (.of_eq haliases hsub)
      (hdecls ▸ List.Subset.refl _)
  enums := henums

theorem enter (h : Established env pending ctx) {names : Aliases}
    (hnew : ctx.name? key mode = none)
    (hold : ∀ other, other ≠ mode → names.own other = ctx.name? key other)
    (counts : Names.Counts) :
    Established env ((key, mode) :: pending) (ctx.enter counts key names) where
  names := by
    intro other m name hname hnot
    have hother : ctx.name? other m = some name := by
      rw [name?_enter] at hname
      split at hname
      next hkey =>
        subst hkey
        rwa [← hold m fun hm ↦ hnot (hm ▸ List.mem_cons_self)]
      next => exact hname
    exact (h.names other m name hother fun hmem ↦ hnot (List.mem_cons_of_mem _ hmem)).mono
      (.enter hnew hold counts) (List.Subset.refl _)
  enums := h.enums.of_eq rfl rfl

theorem declare {path : String} {plain : Bool} {s : Schema} {t : Ty}
    (h : Established env ((key, mode) :: pending) ctx) (hkey : key = env.aliasKey path plain)
    (htarget : env.target path plain = .ok s) (hname : ctx.name? key mode = some name)
    (hmakes : ctx.Makes env (.inline s) none mode t) :
    Established env pending (ctx.declare name t) where
  names := by
    intro other m name' hname' hnot
    have hbelow : ctx.Below (ctx.declare name t) := .of_eq rfl (List.Subset.refl _)
    by_cases hentry : (other, m) = (key, mode)
    · cases hentry
      obtain rfl := Option.some.inj (hname.symm.trans hname')
      exact ⟨path, plain, s, t, hkey, htarget, List.mem_append_right _ (List.mem_singleton_self _),
        hmakes.mono hbelow⟩
    · have hbefore := h.names other m name' hname' (by simp [hentry, hnot])
      exact hbefore.mono hbelow (List.subset_append_left _ _)
  enums := h.enums.of_eq rfl rfl

end Established

end Context

open Context (Established)

namespace Build.Tame

variable {σ : Type} {b : Build σ} {env : Env} {pending : List (String × Mode)}
  {ctx ctx' : Context} {x : σ}

theorem established (h : b.Tame) (hout : b.outcome ctx = (.ok x, ctx'))
    (hctx : Established env pending ctx) : Established env pending ctx' :=
  hctx.of_eq (h.aliases hout) (h.declarations hout) (h.enums hout hctx.enums).1
    (h.enums hout hctx.enums).2

end Build.Tame

/-- A reference establishes the names that it gives. -/
def Env.establishing (env : Env) : Contract where
  pre := fun w _ _ _ ctx ↦ Established env w ctx
  post := fun w path mode plain ctx t ctx' _ ↦
    Established env w ctx' ∧ ctx.Below ctx' ∧ ctx'.Answered env path mode plain t

namespace Env

variable {env : Env} {ctx : Context} {w : List (String × Mode)} {key : String} {s : Schema}
  {mode : Mode}

theorem nodeType_ensures_establishing (node : RefOr Schema) (name : Option String) (around : Around)
    (h : Established env (around mode) ctx) :
    (nodeType env node name mode).Ensures env (env.establishing.given env.naming) around ctx
      fun t ctx' _ ↦ Established env (around mode) ctx' ∧ ctx.Steady ctx' ∧ ctx.Below ctx' ∧
        ctx'.Makes env node name mode t := by
  refine (Ensures.of_always (I := Established env (around mode))
    (L := fun ctx ctx' ↦ ctx.Steady ctx' ∧ ctx.Below ctx')
    (V := fun ctx _ b x ↦ ctx.Came b x) (R := fun ctx ↦ ctx.Answered env)
    (fun ctx ↦ ⟨.refl ctx, .refl ctx⟩) (fun h h' ↦ ⟨h.1.trans h'.1, h.2.trans h'.2⟩)
    (fun h _ _ _ hcame ↦ hcame.mono h.2) (fun h _ _ _ _ hanswered ↦ hanswered.mono h.2) ?_ ?_
    (nodeType_within (M := fun _ m _ ↦ m = mode) (admits_tame env) node name fun _ _ _ ↦ rfl)
    h).mono fun _ _ _ ⟨hctx, ⟨hsteady, hbelow⟩, halways⟩ ↦ ⟨hctx, hsteady, hbelow, halways⟩
  · intro σ b hb ctx x ctx₁ hout hctx
    exact ⟨hb.established hout hctx, ⟨.of_eq (hb.aliases hout), hb.below hout hctx.enums⟩,
      ctx, ctx₁, hctx.enums, hout, List.Subset.refl _⟩
  · rintro path m plain rfl ctx hctx
    refine ⟨hctx, ?_⟩
    rintro t ctx₁ log ⟨⟨hsteady, -⟩, hctx₁, hbelow, hanswered⟩
    exact ⟨hctx₁, ⟨hsteady, hbelow⟩, hanswered⟩

theorem declareIn_ensures_establishing {name path : String} {plain : Bool}
    (hkey : key = env.aliasKey path plain) (htarget : env.target path plain = .ok s)
    (h : Established env ((key, mode) :: w) ctx) (hname : ctx.name? key mode = some name) :
    (inlineType env s none mode).Ensures env (env.establishing.given env.naming)
      (fun m ↦ (key, m) :: w) ctx fun t ctx' _ ↦ Established env w (ctx'.declare name t) ∧
        ctx.Steady (ctx'.declare name t) ∧ ctx.Below (ctx'.declare name t) := by
  refine (nodeType_ensures_establishing (.inline s) none (fun m ↦ (key, m) :: w) h).mono ?_
  rintro t ctx' - ⟨hctx', hsteady, hbelow, hmakes⟩
  exact ⟨hctx'.declare hkey htarget (hbelow.names _ _ _ hname) hmakes,
    hsteady.trans (.of_eq rfl), hbelow.trans (.of_eq rfl (List.Subset.refl _))⟩

theorem variantPlan_ensures_establishing {differs : Bool} {name path : String} {plain : Bool}
    {names : Aliases} (hmode : mode ≠ .base) (hkey : key = env.aliasKey path plain)
    (htarget : env.target path plain = .ok s) (h : Established env w ctx)
    (hnames : Table.get? key ctx.aliases = some names) (hnone : names.own mode = none) :
    (variantPlan env key s name mode differs).Ensures env (env.establishing.given env.naming)
      (fun m ↦ (key, m) :: w) ctx fun _ ctx' _ ↦ Established env w ctx' ∧ ctx.Below ctx' ∧
        ∃ names', Table.get? key ctx'.aliases = some names' ∧
          ∀ m, m ≠ mode → names'.own m = names.own m := by
  refine .of_variantPlan hnames (fun _ ↦ ⟨h, .refl ctx, names, hnames, fun _ _ ↦ rfl⟩)
    fun _ variant counts _ ↦ ?_
  have hnew : ctx.name? key mode = none := (Context.name?_of_get? hnames mode).trans hnone
  have hold := Context.own_set_eq hnames hmode variant
  have hname : (ctx.enter counts key (names.set mode variant)).name? key mode = some variant := by
    rw [Context.name?_enter, if_pos rfl, Aliases.own_set _ hmode, if_pos rfl]
  refine (declareIn_ensures_establishing hkey htarget (h.enter hnew hold counts) hname).mono ?_
  rintro t ctx' - ⟨hctx', hsteady, hbelow⟩
  obtain ⟨names', hnames', hother, -⟩ := Context.names_of_set hmode hsteady
  exact ⟨hctx', (Context.Below.enter hnew hold counts).trans hbelow, names', hnames', hother⟩

theorem declareModes_ensures_establishing {name base path : String} {plain : Bool}
    (hkey : key = env.aliasKey path plain) (htarget : env.target path plain = .ok s)
    (h : Established env ((key, .base) :: w) ctx)
    (hnames : Table.get? key ctx.aliases = some { base := base }) :
    (declareModes env key s name base).Ensures env (env.establishing.given env.naming)
      (fun m ↦ (key, m) :: w) ctx fun _ ctx' _ ↦ Established env w ctx' ∧ ctx.Below ctx' ∧
        ∃ names, Table.get? key ctx'.aliases = some names := by
  refine .of_declareModes ((declareIn_ensures_establishing hkey htarget h
    (Context.name?_of_get? hnames .base)).mono ?_)
  rintro t ctx₁ - ⟨hctx₁, hsteady₁, hbelow₁⟩ flags ctx₂ hmarks
  have htame := env.tame_closureMarks s
  have haliases : ctx₂.aliases = (ctx₁.declare base t).aliases := htame.aliases hmarks
  have hctx₂ := htame.established hmarks hctx₁
  have hbelow₂ := htame.below hmarks hctx₁.enums
  obtain ⟨names₁, hnames₁, hown₁⟩ := hsteady₁ _ _ hnames
  refine (variantPlan_ensures_establishing (show Mode.read ≠ .base by decide) hkey htarget hctx₂
    (haliases ▸ hnames₁) (hown₁ .read trivial)).mono ?_
  rintro - ctx₃ - ⟨hctx₃, hbelow₃, names₃, hnames₃, hown₃⟩
  refine (variantPlan_ensures_establishing (show Mode.write ≠ .base by decide) hkey htarget hctx₃
    hnames₃ ((hown₃ .write (by decide)).trans (hown₁ .write trivial))).mono ?_
  rintro - ctx₄ - ⟨hctx₄, hbelow₄, names₄, hnames₄, -⟩
  exact ⟨hctx₄, hbelow₁.trans (hbelow₂.trans (hbelow₃.trans hbelow₄)), names₄, hnames₄⟩

theorem referencePlan_ensures_establishing (path : String) (mode : Mode) (plain : Bool)
    (h : Established env w ctx) :
    (referencePlan env path mode plain).Ensures env (env.establishing.given env.naming)
      (fun m ↦ (env.aliasKey path plain, m) :: w) ctx
      (env.establishing.post w path mode plain ctx) := by
  refine .of_referencePlan (fun names hnames ↦ ?_) ?_ ?_
  · exact ⟨h, .refl ctx, _, rfl, .inl (.of_get? hnames mode)⟩
  · intro _ s name t ctx₁ htarget henum hout
    obtain ⟨-, -, n, rfl, hn⟩ := Build.declareEnum_ok hout h.enums
    have htame := Build.tame_declareEnum s name
    exact ⟨htame.established hout h, htame.below hout h.enums, n, rfl,
      .inr ⟨⟨s, name, htarget, henum⟩, hn⟩⟩
  · intro hnew s name base counts htarget _ _ _
    have hname := Context.name?_eq_none hnew
    have hold := Context.own_eq_of_new hnew base
    refine (declareModes_ensures_establishing rfl htarget (h.enter (hname .base) hold counts)
      (ctx.get?_enter_self ..)).mono ?_
    rintro - ctx₁ - ⟨hctx₁, hbelow, names, hnames⟩
    refine ⟨hctx₁, (Context.Below.enter (hname .base) hold counts).trans hbelow, _, rfl, .inl ?_⟩
    rw [hnames]
    exact .of_get? hnames mode

theorem establishing_kept (env : Env) : (env.establishing.and env.naming).Kept env :=
  env.naming_kept.and fun _ path mode plain _ h ↦
    referencePlan_ensures_establishing path mode plain h

end Env

theorem Call.established {env : Env} {ctx ctx' : Context} (h : Call env ctx ctx')
    (hctx : Established env [] ctx) : Established env [] ctx' := by
  cases h with
  | @schema node name mode t h =>
    refine Env.outcome_schemaType (Q := fun _ ctx' ↦ Established env [] ctx')
      env.establishing_kept h ?_
    cases node with
    | none => exact hctx
    | some node =>
      exact ((Env.nodeType_ensures_naming node name (fun _ ↦ []) (Env.making_nil ctx)).and
        (Env.nodeType_ensures_establishing node name (fun _ ↦ []) hctx)).mono
          fun _ _ _ hQ ↦ hQ.2.1
  | reference h =>
    obtain ⟨log, -, hctx', -⟩ :=
      Env.outcome_referenceType env.establishing_kept h ⟨Env.making_nil ctx, hctx⟩
    exact hctx'
  | marks h => exact (Env.tame_nodeMarks env _).established h hctx
  | reserve h => exact (Build.tame_reserve _).established h hctx

theorem Calls.established {env : Env} {ctx : Context} (h : Calls env {} ctx) :
    Established env [] ctx := by
  induction h with
  | refl => exact .start env
  | tail _ hcall hctx => exact hcall.established hctx

theorem Context.Established.answered {env : Env} {ctx ctx' : Context}
    (hctx : Established env [] ctx) {path : String} {mode : Mode} {plain : Bool} {t : Ty}
    (h : (env.referenceType path mode plain).outcome ctx = (.ok t, ctx')) :
    ctx'.Answered env path mode plain t := by
  obtain ⟨log, -, -, -, hanswered⟩ :=
    Env.outcome_referenceType env.establishing_kept h ⟨Env.making_nil ctx, hctx⟩
  exact hanswered

/-- Whatever is called, a name that a key has got is that of a type which the plan of its schema can
come to. -/
theorem Calls.establishes {env : Env} {ctx : Context} (h : Calls env {} ctx) {key name : String}
    {mode : Mode} (hname : ctx.name? key mode = some name) :
    ctx.Establishes env key mode name :=
  h.established.names key mode name hname List.not_mem_nil

end ApiClient
