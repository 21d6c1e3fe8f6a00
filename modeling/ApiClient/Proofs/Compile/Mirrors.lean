import ApiClient.Proofs.Compile.Passing

/-!
# Compilations that mirror each other

Two compilations of a document can go the same way step by step, with the same names and the same
errors, and differ only in the types that they make and in the modes in which they meet references.
Then the result of the one and the context after it tell those of the other, also if there is an
error.
-/

namespace ApiClient

open TypeScript

/-- `P` holds of what a plan comes to, whatever its steps and references give. -/
abbrev Plan.Surely {α : Type} (x : Plan α) (P : α → Prop) : Prop :=
  x.Always (fun _ _ _ ↦ True) (fun _ _ _ _ ↦ True) P

/-- A value that a plan can come to if its steps and references may give anything. -/
def Plan.MayGive {α : Type} (x : Plan α) (a : α) : Prop :=
  ∀ P : α → Prop, x.Surely P → P a

theorem Plan.surely_mayGive {α : Type} (x : Plan α) : x.Surely x.MayGive := by
  induction x with
  | done a => exact fun P hP ↦ hP
  | act b next ih => exact fun y _ ↦ (ih y).mono fun a ha P hP ↦ ha P (hP y trivial)
  | meet path mode plain next ih => exact fun t _ ↦ (ih t).mono fun a ha P hP ↦ ha P (hP t trivial)

theorem Runs.mayGive {env : Env} {around : Around} {α : Type} {x : Plan α} {ctx ctx' : Context}
    {out : Except CompileError α} {log : List Meeting} (h : Runs env around x ctx out ctx' log)
    {a : α} (hout : out = .ok a) : x.MayGive a := by
  induction h with
  | done b =>
    cases hout
    exact fun P hP ↦ hP
  | act _ _ ih => exact fun P hP ↦ ih hout P (hP _ trivial)
  | fail _ => cases hout
  | meet _ _ _ ih => exact fun P hP ↦ ih hout P (hP _ trivial)
  | stuck _ _ => cases hout

/-- A declaration with a changed type. -/
def TypeScript.Declaration.mapType (f : Ty → Ty) : Declaration → Declaration
  | .typeAlias name t => .typeAlias name (f t)
  | d => d

/-- The context with all declared types changed. -/
def Context.mapTypes (ctx : Context) (f : Ty → Ty) : Context :=
  { ctx with typeDeclarations := ctx.typeDeclarations.map (Declaration.mapType f) }

theorem Context.mapTypes_declare (ctx : Context) (f : Ty → Ty) (name : String) (t : Ty) :
    (ctx.declare name t).mapTypes f = (ctx.mapTypes f).declare name (f t) := by
  simp only [mapTypes, declare, List.map_append, List.map_singleton, Declaration.mapType]

/-- The same document with other options. -/
def Env.under (env : Env) (options : Options) : Env :=
  { env with options }

/-- How the types of one compilation are changed to those of another one, and what is known of the
contexts on the way. -/
structure Mirror where
  type : Ty → Ty
  member : Member Ty → Member Ty
  modes : Mode → Mode → Prop
  Inv : Context → Prop

namespace Mirror

variable (M : Mirror) {α β γ δ σ τ : Type}

/-- In the mirrored context the second step does what the first one does. -/
def Step (v : σ → τ) (b : Build σ) (c : Build τ) : Prop :=
  ∀ ctx, M.Inv ctx →
    c.outcome (ctx.mapTypes M.type) =
      ((b.outcome ctx).1.map v, (b.outcome ctx).2.mapTypes M.type) ∧
    M.Inv (b.outcome ctx).2

/-- The second plan consists of the mirrored steps and references of the first one. -/
inductive Image {α β : Type} (v : α → β) : Plan α → Plan β → Prop where
  | done {a : α} {b : β} (h : b = v a) : Image v (.done a) (.done b)
  | act {σ τ : Type} {w : σ → τ} {b : Build σ} {c : Build τ} {next : σ → Plan α}
      {next' : τ → Plan β} (hstep : M.Step w b c)
      (hnext : ∀ ctx x ctx', M.Inv ctx → b.outcome ctx = (.ok x, ctx') →
        Image v (next x) (next' (w x))) :
      Image v (.act b next) (.act c next')
  | meet {path : String} {mode mode' : Mode} {plain : Bool} {next next' : Ty → Plan _}
      (hmode : M.modes mode mode') (hnext : ∀ t, Image v (next t) (next' (M.type t))) :
      Image v (.meet path mode plain next) (.meet path mode' plain next')

variable {M}

namespace Step

variable {w : σ → τ} {b : Build σ} {c : Build τ}

theorem lift {x : Except CompileError σ} {y : Except CompileError τ} (h : y = x.map w) :
    M.Step w (liftM x) (liftM y) :=
  fun ctx hctx ↦ ⟨congrArg (·, ctx.mapTypes M.type) h, hctx⟩

theorem get : M.Step (fun ctx ↦ ctx.mapTypes M.type) get get :=
  fun _ hctx ↦ ⟨rfl, hctx⟩

theorem ofResolve (x : Except ResolveError σ) :
    M.Step id (Build.ofResolve x) (Build.ofResolve x) := by
  intro ctx hctx
  rw [Build.outcome_ofResolve, Build.outcome_ofResolve, Except.map_id]
  exact ⟨rfl, hctx⟩

theorem bind {α β : Type} {v : α → β} {f : σ → Build α} {g : τ → Build β} (hb : M.Step w b c)
    (hf : ∀ ctx x ctx', M.Inv ctx → b.outcome ctx = (.ok x, ctx') → M.Step v (f x) (g (w x))) :
    M.Step v (b >>= f) (c >>= g) := by
  intro ctx hctx
  obtain ⟨hc, hinv⟩ := hb ctx hctx
  rcases hout : b.outcome ctx with ⟨e | x, ctx₁⟩ <;> rw [hout] at hc hinv
  · rw [Build.outcome_bind_error hout, Build.outcome_bind_error hc]
    exact ⟨rfl, hinv⟩
  · rw [Build.outcome_bind_ok hout, Build.outcome_bind_ok hc]
    exact hf ctx x ctx₁ hctx hout ctx₁ hinv

end Step

namespace Image

variable {v : α → β} {w : γ → δ} {x : Plan α} {y : Plan β} {f : α → Plan γ} {g : β → Plan δ}

/-- After a plan only those results need to be looked at that it can come to. -/
theorem bind_of_mayGive (h : M.Image v x y) (hf : ∀ a, x.MayGive a → M.Image w (f a) (g (v a))) :
    M.Image w (x >>= f) (y >>= g) := by
  have hx := x.surely_mayGive
  revert hx
  generalize x.MayGive = P at hf ⊢
  intro hx
  induction h with
  | done hb =>
    subst hb
    exact hf _ hx
  | act hstep _ ih =>
    exact .act hstep fun ctx x ctx' hctx hout ↦ ih ctx x ctx' hctx hout (hx x trivial)
  | meet hmode _ ih => exact .meet hmode fun t ↦ ih t (hx t trivial)

theorem bind (h : M.Image v x y) (hf : ∀ a, M.Image w (f a) (g (v a))) :
    M.Image w (x >>= f) (y >>= g) :=
  h.bind_of_mayGive fun a _ ↦ hf a

theorem act_bind {w : σ → τ} {b : Build σ} {c : Build τ} {f : σ → Plan α} {g : τ → Plan β}
    (hstep : M.Step w b c)
    (hf : ∀ ctx x ctx', M.Inv ctx → b.outcome ctx = (.ok x, ctx') → M.Image v (f x) (g (w x))) :
    M.Image v ((liftM b : Plan σ) >>= f) ((liftM c : Plan τ) >>= g) :=
  .act hstep hf

theorem follow {path : String} {mode mode' : Mode} {plain : Bool} (h : M.modes mode mode') :
    M.Image M.type (.follow path mode plain) (.follow path mode' plain) :=
  .meet h fun _ ↦ .done rfl

theorem followAll {mode mode' : Mode} (h : M.modes mode mode') (paths : List String) :
    M.Image (List.map M.type) (ApiClient.followAll mode paths)
      (ApiClient.followAll mode' paths) := by
  induction paths with
  | nil => exact .done rfl
  | cons path rest ih => exact .bind (.follow h) fun t ↦ .bind ih fun ts ↦ .done rfl

end Image

end Mirror

/-- If the plan of each reference is mirrored, then so is every run. -/
theorem Runs.mirrored {M : Mirror} {env env' : Env} {α β : Type} {v : α → β}
    (hplans : ∀ path mode mode' plain, M.modes mode mode' →
      M.Image M.type (referencePlan env path mode plain) (referencePlan env' path mode' plain))
    {around : Around} {x : Plan α} {y : Plan β} {ctx ctx' : Context}
    {out : Except CompileError α} {log : List Meeting} (h : Runs env around x ctx out ctx' log)
    (hxy : M.Image v x y) (hctx : M.Inv ctx) (around' : Around) :
    M.Inv ctx' ∧ ∃ log', Runs env' around' y (ctx.mapTypes M.type) (out.map v)
      (ctx'.mapTypes M.type) log' := by
  induction h generalizing β around' with
  | done a =>
    cases hxy with
    | done hb =>
      subst hb
      exact ⟨hctx, [], .done _⟩
  | act hb _ ih =>
    cases hxy with
    | act hstep hnext =>
      obtain ⟨hout, hinv⟩ := hstep _ hctx
      rw [hb] at hout hinv
      obtain ⟨hinv', log', hrun⟩ := ih (hnext _ _ _ hctx hb) hinv around'
      exact ⟨hinv', log', .act hout hrun⟩
  | fail hb =>
    cases hxy with
    | act hstep _ =>
      obtain ⟨hout, hinv⟩ := hstep _ hctx
      rw [hb] at hout hinv
      exact ⟨hinv, [], .fail hout⟩
  | meet _ _ ihpath ihnext =>
    cases hxy with
    | meet hmode hnext =>
      obtain ⟨hinv₁, log₁, hpath⟩ := ihpath (hplans _ _ _ _ hmode) hctx _
      obtain ⟨hinv₂, log₂, hrun⟩ := ihnext (hnext _) hinv₁ around'
      exact ⟨hinv₂, _, .meet hpath hrun⟩
  | stuck _ ihpath =>
    cases hxy with
    | meet hmode _ =>
      obtain ⟨hinv, log, hpath⟩ := ihpath (hplans _ _ _ _ hmode) hctx _
      exact ⟨hinv, log, .stuck hpath⟩

/-- What is known of the contexts holds on the way. -/
theorem Passes.inv {M : Mirror} {env env' : Env} {α β : Type} {v : α → β}
    (hplans : ∀ path mode mode' plain, M.modes mode mode' →
      M.Image M.type (referencePlan env path mode plain) (referencePlan env' path mode' plain))
    {x : Plan α} {y : Plan β} {ctx ctx' : Context} (h : Passes env x ctx ctx')
    (hxy : M.Image v x y) (hctx : M.Inv ctx) : M.Inv ctx' := by
  induction h generalizing β with
  | here x ctx => exact hctx
  | act hb _ ih =>
    cases hxy with
    | act hstep hnext =>
      obtain ⟨-, hinv⟩ := hstep _ hctx
      rw [hb] at hinv
      exact ih (hnext _ _ _ hctx hb) hinv
  | fail hb =>
    cases hxy with
    | act hstep _ =>
      obtain ⟨-, hinv⟩ := hstep _ hctx
      rwa [hb] at hinv
  | inside _ ih =>
    cases hxy with
    | meet hmode _ => exact ih (hplans _ _ _ _ hmode) hctx
  | past hpath _ ih =>
    cases hxy with
    | meet hmode hnext =>
      obtain ⟨hinv, -⟩ := hpath.mirrored hplans (hplans _ _ _ _ hmode) hctx fun _ ↦ []
      exact ih (hnext _) hinv

end ApiClient
