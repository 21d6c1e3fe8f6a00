import ApiClient.Proofs.Compile.Invariants
import ApiClient.Proofs.Compile.Values

/-!
# Compiling again

Where no enumerations are declared, a compilation that has succeeded has left names for all the
references that it met, and these names stay. So compiling the same once more, then or later, only
looks them up.
-/

namespace ApiClient

open TypeScript
open Plan (Ensures)

/-- A key that has names keeps having names, whatever the plan of a reference does. -/
theorem admits_has (env : Env) (key : String) :
    AdmitsReferences env fun _ b ↦ b.Preserves fun ctx ↦ Table.has ctx.aliases key := by
  have hkeeps {σ : Type} {b : Build σ} (hb : b.Keeps Context.aliases) :
      b.Preserves fun ctx ↦ Table.has ctx.aliases key :=
    .of_keeps hb fun ctx ctx' haliases hhas ↦ by rwa [haliases]
  exact
    { lift := .lift
      resolve := .ofResolve
      simple := fun s name ↦ hkeeps
        (Build.keeps_simpleType (fun _ _ ↦ rfl) (fun _ _ ↦ rfl) (fun _ _ ↦ rfl) env s name)
      get := .of_still .get
      allocate := fun wanted ↦ hkeeps (.allocate (fun _ _ ↦ rfl) wanted)
      register := by
        intro other names ctx _ ctx' hhas hout
        cases hout
        exact (Table.has_put ..).2 (.inr hhas)
      declareType := fun _ _ ↦ hkeeps fun _ ↦ rfl
      declareEnum := fun s name ↦ hkeeps
        (Build.keeps_declareEnum (fun _ _ ↦ rfl) (fun _ _ ↦ rfl) (fun _ _ ↦ rfl) s name)
      marks := fun node ↦ hkeeps (Env.keeps_nodeMarks (fun _ _ ↦ rfl) env node) }

/-- A reference gets the name that its key has for the mode afterwards. -/
def Env.answering (env : Env) : Contract where
  pre := fun _ _ _ _ _ ↦ True
  post := fun _ path mode plain _ t ctx' _ ↦
    ∃ names, Table.get? (env.aliasKey path plain) ctx'.aliases = some names ∧
      t = .named (names.get mode)

namespace Env

variable {env : Env} {ctx ctx' : Context}

theorem answering_kept (henums : env.options.namedEnums = false) :
    (env.answering.and env.naming).Kept env := by
  refine env.naming_kept.and fun w path mode plain ctx _ ↦ .of_referencePlan ?_ ?_ ?_
  · exact fun names hnames ↦ ⟨names, hnames, rfl⟩
  · intro _ s name t ctx₁ _ henum
    simp [Options.declaresEnum, henums] at henum
  · intro hnew s name base counts _ _ _ hbase
    obtain rfl : (Names.allocate (toIdentifier name true) ctx.typeNames).1 = base :=
      congrArg Prod.fst hbase
    have hwithin : (declareModes env (env.aliasKey path plain) s name _).Within
        (fun _ b ↦ b.Preserves fun ctx ↦ Table.has ctx.aliases (env.aliasKey path plain))
        fun _ _ _ ↦ True :=
      ((admits_has env _).admitsIn _ _).declareModes_within inherited_trivial _ trivial trivial
        ctx.typeNames
    refine (Ensures.of_within (I := fun ctx _ ↦ Table.has ctx.aliases (env.aliasKey path plain))
      ?_ ?_ hwithin [] (ctx.has_enter_self ..)).mono ?_
    · exact fun σ b hb ctx x ctx₁ _ hout hhas ↦ hb ctx x ctx₁ hhas hout
    · intro other m p _ ctx₁ _ hhas
      refine ⟨trivial, ?_⟩
      rintro t ctx₂ log ⟨⟨hsteady, -⟩, -⟩
      rw [Table.has_eq_isSome, Option.isSome_iff_exists] at hhas ⊢
      obtain ⟨names, hnames⟩ := hhas
      obtain ⟨names', hnames', -⟩ := hsteady _ _ hnames
      exact ⟨names', hnames'⟩
    · intro _ ctx₁ _ hhas
      obtain ⟨names, hnames⟩ := Option.isSome_iff_exists.1
        ((Table.has_eq_isSome _ _).symm.trans hhas)
      exact ⟨names, hnames, by rw [hnames]; rfl⟩

/-- What a plan comes to on its own is its value from then on. -/
theorem ensures_value {α : Type} {x : Plan α} {mode : Mode} (hx : x.Plain mode) (ctx : Context) :
    x.Ensures env (env.answering.and env.naming) (fun _ ↦ []) ctx fun a ctx' _ ↦
      ctx.Steady ctx' ∧ x.value env ctx'.aliases = some a := by
  induction x generalizing ctx with
  | done a => exact ⟨.refl ctx, rfl⟩
  | act b next ih =>
    intro y ctx₁ hy
    obtain ⟨hfirst, rfl⟩ := hx.1.still hy
    refine (ih y (hx.2 _ y _ hy) _).mono ?_
    rintro a ctx' - ⟨hsteady, hvalue⟩
    refine ⟨hsteady, ?_⟩
    rwa [Plan.value, hfirst]
  | meet path m plain next ih =>
    obtain ⟨rfl, hnext⟩ := hx
    refine ⟨⟨making_nil ctx, trivial⟩, ?_⟩
    rintro t ctx₁ log ⟨⟨hsteady, -⟩, names, hnames, rfl⟩
    refine (ih _ (hnext _) ctx₁).mono ?_
    rintro a ctx' - ⟨hsteady', hvalue⟩
    refine ⟨hsteady.trans hsteady', ?_⟩
    obtain ⟨names', hnames', hown⟩ := hsteady' _ _ hnames
    rw [Plan.value, hnames', Option.bind_some,
      Aliases.get_eq_of_own (hown .base trivial) (hown m trivial)]
    exact hvalue

end Env

theorem Call.steady {env : Env} {ctx ctx' : Context} (h : Call env ctx ctx') : ctx.Steady ctx' := by
  cases h with
  | @schema node name mode t h =>
    refine Env.outcome_schemaType (Q := fun _ ctx' ↦ ctx.Steady ctx') env.naming_kept h ?_
    cases node with
    | none => exact .refl ctx
    | some node =>
      exact (Env.nodeType_ensures_naming node name (fun _ ↦ []) (Env.making_nil ctx)).mono
        fun _ _ _ hQ ↦ hQ.1
  | reference h =>
    obtain ⟨log, hsteady, -⟩ := Env.outcome_referenceType env.naming_kept h (Env.making_nil ctx)
    exact hsteady
  | @marks node flags h =>
    have hkeeps : Build.Keeps Context.aliases (env.nodeMarks node) :=
      Env.keeps_nodeMarks (fun _ _ ↦ rfl) env node
    have haliases := hkeeps ctx
    rw [h] at haliases
    exact .of_eq haliases
  | reserve h =>
    cases h
    exact .of_eq rfl

theorem Calls.steady {env : Env} {ctx ctx' : Context} (h : Calls env ctx ctx') :
    ctx.Steady ctx' := by
  induction h with
  | refl => exact .refl ctx
  | tail _ hcall ih => exact ih.trans hcall.steady

/-- A plan that has come to a value comes to it again in every later context, and leaves that
context as it is. -/
theorem Ends.again {env : Env} (henums : env.options.namedEnums = false) {x : Plan Ty} {mode : Mode}
    (hx : x.Plain mode) {ctx ctx' ctx'' : Context} {t : Ty} (h : Ends env x ctx (.ok t) ctx')
    (hcalls : Calls env ctx' ctx'') : Ends env x ctx'' (.ok t) ctx'' := by
  obtain ⟨log, hrun⟩ := h
  obtain ⟨-, hvalue⟩ := hrun.ensures (Q := fun t ctx' _ ↦ ctx.Steady ctx' ∧
    x.value env ctx'.aliases = some t) (Env.answering_kept henums) rfl (Env.ensures_value hx ctx)
  refine Runs.of_value hx (Plan.value_later hx (fun key names hnames ↦ ?_) hvalue) fun _ ↦ []
  obtain ⟨names', hnames', hown⟩ := hcalls.steady key names hnames
  exact ⟨names', hnames', Aliases.get_eq_of_own (hown .base trivial) (hown mode trivial)⟩

/-- If no enumerations are declared and the type of a schema or of a reference has been made, in
whatever context, then making it again gives the same type and changes no table and no declaration,
at once or after any further calls that succeed. -/
theorem compiling_again {env : Env} (henums : env.options.namedEnums = false)
    {ctx ctx' ctx'' : Context} (hcalls : Calls env ctx' ctx'') {mode : Mode} {t : Ty} :
    (∀ node name, (env.schemaType node name mode).outcome ctx = (.ok t, ctx') →
      (env.schemaType node name mode).outcome ctx'' = (.ok t, ctx'')) ∧
    ∀ path plain, (env.referenceType path mode plain).outcome ctx = (.ok t, ctx') →
      (env.referenceType path mode plain).outcome ctx'' = (.ok t, ctx'') := by
  constructor
  · intro node name hout
    have hplain : (schemaPlan env node name mode).Plain mode := by
      cases node with
      | none => exact .done _
      | some node => exact nodeType_plain henums node name mode
    have hends := env.ends_schemaPlan node name mode ctx
    rw [hout] at hends
    exact (env.ends_schemaPlan node name mode ctx'').unique (hends.again henums hplain hcalls)
  · intro path plain hout
    have hends := env.ends_follow path mode plain ctx
    rw [hout] at hends
    exact (env.ends_follow path mode plain ctx'').unique (hends.again henums (.follow rfl) hcalls)

/-- Schemas that hold each other are compiled again without any change. -/
theorem ring_compiled_again : Ring.env.options.namedEnums = false ∧ ∃ t ctx,
    (Ring.env.referenceType "#/components/schemas/A" .read).outcome {} = (.ok t, ctx) ∧
      Calls Ring.env ctx ctx ∧
      (Ring.env.referenceType "#/components/schemas/A" .read).outcome ctx = (.ok t, ctx) := by
  obtain ⟨t, ctx, log, hrun, -, -⟩ := Ring.runs .read []
  have hout : (Ring.env.referenceType "#/components/schemas/A" .read).outcome {} = (.ok t, ctx) :=
    (Ring.env.ends_follow "#/components/schemas/A" .read false {}).unique ⟨log, hrun⟩
  have hcalls : Calls Ring.env ctx ctx := .refl
  obtain ⟨-, hagain⟩ := compiling_again rfl hcalls
  exact ⟨rfl, t, ctx, hout, hcalls, hagain _ _ hout⟩

end ApiClient
