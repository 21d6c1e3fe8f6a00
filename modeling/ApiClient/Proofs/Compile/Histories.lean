import ApiClient.Proofs.Compile.Calls

/-!
# Histories

A compilation that succeeds is a list of steps, each of which is carried out in the context that the
step before it left behind. The steps of a reference stand where it is met. So what happened between
two steps can be said of the steps that stand between them.
-/

namespace ApiClient

open TypeScript

/-- A step with its result and the contexts before and after it. -/
structure Step : Type 1 where
  {σ : Type}
  action : Build σ
  before : Context
  result : σ
  after : Context

def Step.Sound (step : Step) : Prop :=
  step.action.outcome step.before = (.ok step.result, step.after)

/-- Steps of some kind that lead from one context to another. -/
inductive Course (A : (σ : Type) → Build σ → Prop) : Context → List Step → Context → Prop where
  | nil (ctx : Context) : Course A ctx [] ctx
  | cons {step : Step} {steps : List Step} {ctx : Context} (h : step.Sound)
      (hkind : A _ step.action) (hrest : Course A step.after steps ctx) :
      Course A step.before (step :: steps) ctx

namespace Course

variable {A : (σ : Type) → Build σ → Prop} {ctx ctx' ctx'' : Context}
  {steps before after : List Step} {step : Step}

theorem of_outcome {σ : Type} {b : Build σ} {x : σ} (hb : b.outcome ctx = (.ok x, ctx'))
    (hkind : A _ b) (hrest : Course A ctx' steps ctx'') :
    Course A ctx (⟨b, ctx, x, ctx'⟩ :: steps) ctx'' :=
  have hstep : Step.Sound ⟨b, ctx, x, ctx'⟩ := hb
  .cons hstep hkind hrest

theorem append (h : Course A ctx before ctx') (h' : Course A ctx' after ctx'') :
    Course A ctx (before ++ after) ctx'' := by
  induction h with
  | nil _ => exact h'
  | cons hstep hkind _ ih => exact .cons hstep hkind (ih h')

theorem split (h : Course A ctx (before ++ step :: after) ctx') :
    Course A ctx before step.before ∧ step.Sound ∧ Course A step.after after ctx' := by
  induction before generalizing ctx with
  | nil =>
    cases h with
    | cons hstep _ hrest => exact ⟨.nil _, hstep, hrest⟩
  | cons first before ih =>
    cases h with
    | cons hfirst hkind hrest =>
      obtain ⟨hbefore, hstep, hafter⟩ := ih hrest
      exact ⟨.cons hfirst hkind hbefore, hstep, hafter⟩

theorem sound_of_mem (h : Course A ctx steps ctx') (hmem : step ∈ steps) : step.Sound := by
  obtain ⟨before, after, rfl⟩ := List.append_of_mem hmem
  exact h.split.2.1

end Course

/-- Carrying out a plan from a context comes to a value in another context by these steps. -/
inductive Carries (env : Env) : {α : Type} → Plan α → Context → α → Context → List Step → Prop where
  | done {α : Type} {ctx : Context} (a : α) : Carries env (.done a) ctx a ctx []
  | act {α σ : Type} {b : Build σ} {next : σ → Plan α} {ctx ctx₁ ctx₂ : Context} {x : σ} {a : α}
      {steps : List Step} (hb : b.outcome ctx = (.ok x, ctx₁))
      (hnext : Carries env (next x) ctx₁ a ctx₂ steps) :
      Carries env (.act b next) ctx a ctx₂ (⟨b, ctx, x, ctx₁⟩ :: steps)
  | meet {α : Type} {path : String} {mode : Mode} {plain : Bool} {next : Ty → Plan α}
      {ctx ctx₁ ctx₂ : Context} {t : Ty} {a : α} {steps₁ steps₂ : List Step}
      (hpath : Carries env (referencePlan env path mode plain) ctx t ctx₁ steps₁)
      (hnext : Carries env (next t) ctx₁ a ctx₂ steps₂) :
      Carries env (.meet path mode plain next) ctx a ctx₂ (steps₁ ++ steps₂)

namespace Carries

variable {env : Env} {α : Type} {x : Plan α} {ctx ctx' : Context} {a : α} {steps : List Step}

theorem of_runs {around : Around} {out : Except CompileError α} {log : List Meeting}
    (h : Runs env around x ctx out ctx' log) (hout : out = .ok a) :
    ∃ steps, Carries env x ctx a ctx' steps := by
  induction h with
  | done b =>
    cases hout
    exact ⟨[], .done _⟩
  | act hb _ ih =>
    obtain ⟨steps, hsteps⟩ := ih hout
    exact ⟨_, .act hb hsteps⟩
  | fail _ => cases hout
  | meet _ _ ihpath ihnext =>
    obtain ⟨steps₁, hpath⟩ := ihpath rfl
    obtain ⟨steps₂, hnext⟩ := ihnext hout
    exact ⟨_, .meet hpath hnext⟩
  | stuck _ _ => cases hout

theorem runs (h : Carries env x ctx a ctx' steps) (around : Around) :
    ∃ log, Runs env around x ctx (.ok a) ctx' log := by
  induction h generalizing around with
  | done a => exact ⟨[], .done a⟩
  | act hb _ ih =>
    obtain ⟨log, hlog⟩ := ih around
    exact ⟨log, .act hb hlog⟩
  | meet _ _ ihpath ihnext =>
    obtain ⟨log₁, hpath⟩ := ihpath _
    obtain ⟨log₂, hnext⟩ := ihnext around
    exact ⟨_, .meet hpath hnext⟩

/-- If the plan and the plans of all references consist of steps of some kind, so does the course
of what is carried out. -/
theorem course {A : (σ : Type) → Build σ → Prop} {M M' : String → Mode → Bool → Prop}
    (h : Carries env x ctx a ctx' steps) (hx : x.Within A M)
    (hreference : ∀ path mode plain, (referencePlan env path mode plain).Within A M') :
    Course A ctx steps ctx' := by
  induction h generalizing M with
  | done _ => exact .nil _
  | act hb _ ih => exact .of_outcome hb hx.1 (ih (hx.2 _ _ _ hb))
  | meet _ _ ihpath ihnext => exact (ihpath (hreference _ _ _)).append (ihnext (hx.2 _))

end Carries

/-- What is asked of the steps in the plan of a reference. -/
structure AdmitsReferences (env : Env) (A : (σ : Type) → Build σ → Prop) : Prop
    extends Admits env A where
  get : A _ (get : Build Context)
  allocate : ∀ wanted, A _ (Build.allocate wanted)
  register : ∀ key names, A _ (Build.register key names)
  declareType : ∀ name type, A _ (Build.declareType name type)
  declareEnum : ∀ s name, A _ (ApiClient.declareEnum s name)
  marks : ∀ node, A _ (env.nodeMarks node)

/-- What is asked of the steps in the plan of a reference to a schema that has some inherited
property, and another one together with its name. -/
structure AdmitsReferencesIn (env : Env) (H : RefOr Schema → Prop)
    (N : RefOr Schema → String → Prop) (A : (σ : Type) → Build σ → Prop) : Prop
    extends AdmitsIn env H N A where
  get : A _ (get : Build Context)
  allocate : ∀ s name mode, N (.inline s) name →
    A _ (Build.allocate (toIdentifier name true mode))
  register : ∀ key names, A _ (Build.register key names)
  declareType : ∀ s name mode counts type, N (.inline s) name →
    A _ (Build.declareType (Names.allocate (toIdentifier name true mode) counts).1 type)
  declareEnum : ∀ s name, H (.inline s) → N (.inline s) name → A _ (ApiClient.declareEnum s name)
  marks : ∀ node, A _ (env.nodeMarks node)

theorem AdmitsReferences.admitsIn {env : Env} {A : (σ : Type) → Build σ → Prop}
    (hA : AdmitsReferences env A) (H : RefOr Schema → Prop) (N : RefOr Schema → String → Prop) :
    AdmitsReferencesIn env H N A where
  toAdmitsIn := hA.toAdmits.admitsIn H N
  get := hA.get
  allocate _ _ _ _ := hA.allocate _
  register := hA.register
  declareType _ _ _ _ _ _ := hA.declareType _ _
  declareEnum s name _ _ := hA.declareEnum s name
  marks := hA.marks

/-- A reference with `M` leads to a schema that has the inherited property, and with `N` under the
name that it is declared by. -/
structure Leads (env : Env) (H : RefOr Schema → Prop) (N : RefOr Schema → String → Prop)
    (M : String → Prop) : Prop where
  schema : ∀ path plain s, M path → env.target path plain = .ok s → H (.inline s)
  name : ∀ path plain s, M path → env.target path plain = .ok s →
    N (.inline s) (s.title.getD (Pointer.displayName (env.aliasKey path plain)))

namespace AdmitsReferencesIn

open Plan (Within)

variable {env : Env} {H : RefOr Schema → Prop} {N : RefOr Schema → String → Prop}
  {M : String → Prop} {A : (σ : Type) → Build σ → Prop}

theorem declareIn_within (hA : AdmitsReferencesIn env H N A) (hH : Inherited H N M) {s : Schema}
    (hs : H (.inline s)) {name : String} (hname : N (.inline s) name) (nameMode : Mode)
    (counts : Names.Counts) (mode : Mode) :
    (declareIn env s (Names.allocate (toIdentifier name true nameMode) counts).1 mode).Within A
      fun path _ _ ↦ M path := by
  have hplan : (inlineType env s none mode).Within A fun path _ _ ↦ M path :=
    Inherited.nodeType_within ⟨fun path h _ ↦ hH.ref path h, fun s d path h hd hp _ ↦
      hH.target s d path h hd hp, hH.part, hH.key⟩ hA.toAdmitsIn (.inline s) none hs (by simp)
  exact .bind hplan fun t ↦ .act (hA.declareType s _ _ _ _ hname)

theorem variantPlan_within (hA : AdmitsReferencesIn env H N A) (hH : Inherited H N M)
    (key : String) {s : Schema} (hs : H (.inline s)) {name : String} (hname : N (.inline s) name)
    (mode : Mode) (differs : Bool) :
    (variantPlan env key s name mode differs).Within A fun path _ _ ↦ M path := by
  cases differs with
  | false => exact .done ()
  | true =>
    refine .allocate_bind (hA.allocate s name mode hname) fun counts ↦ ?_
    refine .bind (.act hA.get) fun ctx ↦ ?_
    split
    · exact .bind (.act (hA.register _ _)) fun _ ↦ hA.declareIn_within hH hs hname _ _ _
    · exact hA.declareIn_within hH hs hname _ _ _

theorem declareModes_within (hA : AdmitsReferencesIn env H N A) (hH : Inherited H N M)
    (key : String) {s : Schema} (hs : H (.inline s)) {name : String} (hname : N (.inline s) name)
    (counts : Names.Counts) :
    (declareModes env key s name (Names.allocate (toIdentifier name true) counts).1).Within A
      fun path _ _ ↦ M path := by
  rw [declareModes_eq]
  refine .bind (hA.declareIn_within hH hs hname _ _ _) fun _ ↦ ?_
  refine .bind (.act (hA.marks (.inline s))) fun flags ↦ ?_
  exact .bind (hA.variantPlan_within hH key hs hname _ _) fun _ ↦
    hA.variantPlan_within hH key hs hname _ _

theorem referencePlan_within (hA : AdmitsReferencesIn env H N A) (hH : Inherited H N M)
    (hleads : Leads env H N M) {path : String} (hpath : M path) (mode : Mode) (plain : Bool) :
    (referencePlan env path mode plain).Within A fun path _ _ ↦ M path := by
  refine .bind (.act hA.get) fun ctx ↦ ?_
  split
  · exact .done _
  refine .ofResolve_bind (hA.resolve _) fun s htarget ↦ ?_
  have hs := hleads.schema path plain s hpath htarget
  have hname := hleads.name path plain s hpath htarget
  dsimp only
  split
  · exact .act (hA.declareEnum _ _ hs hname)
  refine .allocate_bind (hA.allocate s _ .base hname) fun counts ↦ ?_
  refine .bind (.act (hA.register _ _)) fun _ ↦ ?_
  refine .bind (hA.declareModes_within hH _ hs hname _) fun _ ↦ .bind (.act hA.get) fun ctx ↦ ?_
  split <;> exact .done _

end AdmitsReferencesIn

theorem inherited_trivial : Inherited (fun _ ↦ True) (fun _ _ ↦ True) fun _ ↦ True := by
  constructor <;> intros <;> trivial

theorem leads_trivial (env : Env) : Leads env (fun _ ↦ True) (fun _ _ ↦ True) fun _ ↦ True := by
  constructor <;> intros <;> trivial

theorem AdmitsReferences.referencePlan_within {env : Env} {A : (σ : Type) → Build σ → Prop}
    {M : String → Mode → Bool → Prop} (hA : AdmitsReferences env A)
    (hM : ∀ path mode plain, M path mode plain) (path : String) (mode : Mode) (plain : Bool) :
    (referencePlan env path mode plain).Within A M := by
  have hplan : (referencePlan env path mode plain).Within A fun _ _ _ ↦ True :=
    (hA.admitsIn _ _).referencePlan_within inherited_trivial (leads_trivial env) trivial mode plain
  exact hplan.mono (fun _ _ ↦ id) fun path mode plain _ ↦ hM path mode plain

/-- What the calls of the compiler from a fresh context have done up to a context. -/
inductive History (env : Env) : Context → List Step → Prop where
  | start : History env {} []
  | request {ctx ctx' : Context} {steps steps' : List Step} {x : Plan Ty} {t : Ty}
      (h : History env ctx steps) (hx : Request env x)
      (hcarries : Carries env x ctx t ctx' steps') :
      History env ctx' (steps ++ steps')
  | marks {ctx ctx' : Context} {steps : List Step} {node : RefOr Schema} {flags : Flags}
      (h : History env ctx steps) (hmarks : (env.nodeMarks node).outcome ctx = (.ok flags, ctx')) :
      History env ctx' (steps ++ [⟨env.nodeMarks node, ctx, flags, ctx'⟩])
  | reserve {ctx ctx' : Context} {steps : List Step} {wanted name : String}
      (h : History env ctx steps)
      (hreserve : (Build.reserve wanted).outcome ctx = (.ok name, ctx')) :
      History env ctx' (steps ++ [⟨Build.reserve wanted, ctx, name, ctx'⟩])

namespace History

variable {env : Env} {ctx : Context} {steps : List Step}

theorem course {A : (σ : Type) → Build σ → Prop} (h : History env ctx steps)
    (hA : AdmitsReferences env A) (hreserve : ∀ wanted, A _ (Build.reserve wanted)) :
    Course A {} steps ctx := by
  induction h with
  | start => exact .nil _
  | request _ hx hcarries ih =>
    have hplan := hx.within hA.toAdmits
    exact ih.append (hcarries.course hplan (hA.referencePlan_within fun _ _ _ ↦ trivial))
  | marks _ hmarks ih => exact ih.append (.of_outcome hmarks (hA.marks _) (.nil _))
  | reserve _ hname ih => exact ih.append (.of_outcome hname (hreserve _) (.nil _))

/-- The contexts that have histories are those that calls lead to. -/
theorem exists_iff_calls : (∃ steps, History env ctx steps) ↔ Calls env {} ctx := by
  constructor
  · rintro ⟨steps, h⟩
    induction h with
    | start => exact .refl
    | @request ctx ctx' _ _ x t _ hx hcarries ih =>
      have hruns := hcarries.runs fun _ ↦ []
      cases hx with
      | schema node name mode =>
        exact ih.tail (.schema ((env.ends_schemaPlan node name mode ctx).unique hruns))
      | reference path mode plain =>
        exact ih.tail (.reference ((env.ends_follow path mode plain ctx).unique hruns))
    | marks _ hmarks ih => exact ih.tail (.marks hmarks)
    | reserve _ hreserve ih => exact ih.tail (.reserve hreserve)
  · intro h
    induction h with
    | refl => exact ⟨[], .start⟩
    | @tail ctx ctx' _ hcall ih =>
      obtain ⟨steps, hsteps⟩ := ih
      cases hcall with
      | @schema node name mode t hout =>
        have hends := env.ends_schemaPlan node name mode ctx
        rw [hout] at hends
        obtain ⟨log, hruns⟩ := hends
        obtain ⟨steps', hcarries⟩ := Carries.of_runs hruns rfl
        exact ⟨_, hsteps.request (.schema node name mode) hcarries⟩
      | @reference path mode plain t hout =>
        have hends := env.ends_follow path mode plain ctx
        rw [hout] at hends
        obtain ⟨log, hruns⟩ := hends
        obtain ⟨steps', hcarries⟩ := Carries.of_runs hruns rfl
        exact ⟨_, hsteps.request (.reference path mode plain) hcarries⟩
      | marks hmarks => exact ⟨_, hsteps.marks hmarks⟩
      | reserve hreserve => exact ⟨_, hsteps.reserve hreserve⟩

end History

end ApiClient
