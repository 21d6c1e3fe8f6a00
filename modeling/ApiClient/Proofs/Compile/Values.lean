import ApiClient.Proofs.Compile.Sessions

/-!
# Values of plans

Where no enumerations are declared, a plan does nothing but meet references. If these have names
already, the result of the plan can be read off the table of names.
-/

namespace ApiClient

open TypeScript

/-- A step that leaves the context as it is and comes to the same in each. -/
def Build.Fixed {σ : Type} (b : Build σ) : Prop :=
  ∃ out, ∀ ctx, b.outcome ctx = (out, ctx)

namespace Build.Fixed

variable {σ : Type} {b : Build σ} {ctx ctx' : Context} {out : Except CompileError σ}

theorem pure (a : σ) : Fixed (Pure.pure a) := ⟨.ok a, fun _ ↦ rfl⟩

theorem lift (x : Except CompileError σ) : Fixed (liftM x) := ⟨x, fun _ ↦ rfl⟩

theorem ofResolve (x : Except ResolveError σ) : Fixed (Build.ofResolve x) :=
  ⟨x.mapError .reference, outcome_ofResolve x⟩

theorem outcome_eq (h : b.Fixed) (ctx ctx' : Context) :
    b.outcome ctx = ((b.outcome ctx').1, ctx) := by
  obtain ⟨out, hout⟩ := h
  rw [hout, hout]

theorem still (h : b.Fixed) (hout : b.outcome ctx = (out, ctx')) :
    (b.outcome {}).1 = out ∧ ctx' = ctx := by
  rw [h.outcome_eq ctx {}] at hout
  cases hout
  exact ⟨rfl, rfl⟩

end Build.Fixed

theorem Build.fixed_simpleType {env : Env} (henums : env.options.namedEnums = false) (s : Schema)
    (name : Option String) : (simpleType env s name).Fixed := by
  have hdeclares : ∀ name, env.options.declaresEnum s name = false := by
    simp [Options.declaresEnum, henums]
  unfold simpleType
  simp only [hdeclares, Bool.false_eq_true, if_false]
  repeat' split
  all_goals exact .lift _

theorem admits_fixed {env : Env} (henums : env.options.namedEnums = false) :
    Admits env fun _ b ↦ Build.Fixed b where
  simple := Build.fixed_simpleType henums
  lift := .lift
  resolve := .ofResolve

/-- The parts of which a plan consists if no enumerations are declared and all its references are
met in one mode. -/
abbrev Plan.Plain {α : Type} (x : Plan α) (mode : Mode) : Prop :=
  x.Within (fun _ b ↦ Build.Fixed b) fun _ m _ ↦ m = mode

theorem nodeType_plain {env : Env} (henums : env.options.namedEnums = false) (node : RefOr Schema)
    (name : Option String) (mode : Mode) : (nodeType env node name mode).Plain mode :=
  nodeType_within (admits_fixed henums) node name fun _ _ _ ↦ rfl

namespace Plan

variable {α β : Type} {env : Env} {aliases aliases' : Table Aliases} {mode : Mode}

/-- What a plan comes to if all its references have names. -/
def value (env : Env) (aliases : Table Aliases) : Plan α → Option α
  | done a => some a
  | act b next =>
    match (b.outcome {}).1 with
    | .ok x => (next x).value env aliases
    | .error _ => none
  | meet path mode plain next =>
    (Table.get? (env.aliasKey path plain) aliases).bind fun names ↦
      (next (.named (names.get mode))).value env aliases

@[simp] theorem value_done (a : α) : (done a).value env aliases = some a := rfl

@[simp] theorem value_bind (x : Plan α) (f : α → Plan β) :
    (x >>= f).value env aliases = (x.value env aliases).bind fun a ↦ (f a).value env aliases := by
  induction x with
  | done a => rfl
  | act b next ih =>
    rw [act_bind, value, value]
    split
    · exact ih _
    · rfl
  | meet path mode plain next ih =>
    rw [meet_bind, value, value, Option.bind_assoc]
    exact congrArg _ (funext fun names ↦ ih _)

theorem value_later {x : Plan α} (hx : x.Plain mode)
    (h : ∀ key names, Table.get? key aliases = some names →
      ∃ names', Table.get? key aliases' = some names' ∧ names'.get mode = names.get mode)
    {a : α} (ha : x.value env aliases = some a) : x.value env aliases' = some a := by
  induction x with
  | done b => exact ha
  | act b next ih =>
    rw [value] at ha ⊢
    split at ha
    next y hy => exact ih y (hx.2 {} y {} (Prod.ext hy (hx.1.still rfl).2)) ha
    next => cases ha
  | meet path m plain next ih =>
    obtain ⟨rfl, hnext⟩ := hx
    obtain ⟨names, hnames, ha⟩ := Option.bind_eq_some_iff.1 ha
    obtain ⟨names', hnames', hget⟩ := h _ _ hnames
    rw [value, hnames', Option.bind_some, hget]
    exact ih _ (hnext _) ha

end Plan

/-- A plan with a value runs to it and leaves the context as it is. -/
theorem Runs.of_value {env : Env} {α : Type} {x : Plan α} {mode : Mode} (hx : x.Plain mode)
    {ctx : Context} {a : α} (ha : x.value env ctx.aliases = some a) (around : Around) :
    ∃ log, Runs env around x ctx (.ok a) ctx log := by
  induction x with
  | done b =>
    cases ha
    exact ⟨[], .done _⟩
  | act b next ih =>
    rw [Plan.value] at ha
    split at ha
    next y hy =>
      have hout : b.outcome ctx = (.ok y, ctx) := hy ▸ hx.1.outcome_eq ctx {}
      obtain ⟨log, hrun⟩ := ih y (hx.2 ctx y ctx hout) ha
      exact ⟨log, .act hout hrun⟩
    next => cases ha
  | meet path m plain next ih =>
    obtain ⟨names, hnames, ha⟩ := Option.bind_eq_some_iff.1 ha
    obtain ⟨log, hrun⟩ := ih _ (hx.2 _) ha
    exact ⟨_, .meet (.found hnames) hrun⟩

end ApiClient
