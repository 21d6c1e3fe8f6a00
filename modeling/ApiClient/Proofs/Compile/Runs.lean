import ApiClient.Compile.Reference
import ApiClient.Proofs.Compile.Plans

/-!
# Runs

A run carries out a plan without a bound on the references: whenever a reference is met, the plan of
that reference is run to its end and gives the answer. Whether a run exists is a question of its
own. A run keeps a log of the references that it met, each with the declarations in the making
around it.

What holds of all runs is shown with contracts. A contract says what a reference may expect and what
it owes, and a contract that every reference keeps if the references below it keep it holds of all.
-/

namespace ApiClient

open TypeScript

/-- A reference that was met, and the type that it got. -/
structure Meeting where
  /-- The keys whose declarations were in the making, the innermost first, each with the mode of the
  declaration. -/
  within : List (String × Mode)
  key : String
  mode : Mode
  answer : Ty

/-- The declarations in the making around a plan. A plan that declares a key once for each mode
meets a reference in the mode of the declaration that it makes. -/
abbrev Around := Mode → List (String × Mode)

/-- The log of one reference, which says nothing if the key got no names. -/
def logged (ctx : Context) (w : List (String × Mode)) (key : String) (mode : Mode) (t : Ty) :
    List Meeting :=
  if Table.has ctx.aliases key then [⟨w, key, mode, t⟩] else []

theorem mem_logged {ctx : Context} {w : List (String × Mode)} {key : String} {mode : Mode} {t : Ty}
    {meeting : Meeting} : meeting ∈ logged ctx w key mode t ↔
      Table.has ctx.aliases key ∧ meeting = ⟨w, key, mode, t⟩ := by
  unfold logged
  split <;> simp_all

/-- A run of a plan from a context, with its result, the context after it and its log. -/
inductive Runs (env : Env) : Around → {α : Type} → Plan α → Context → Except CompileError α →
    Context → List Meeting → Prop where
  | done {around : Around} {α : Type} {ctx : Context} (a : α) :
      Runs env around (.done a) ctx (.ok a) ctx []
  | act {around : Around} {α σ : Type} {b : Build σ} {next : σ → Plan α} {ctx ctx₁ ctx₂ : Context}
      {x : σ} {out : Except CompileError α} {log : List Meeting}
      (hb : b.outcome ctx = (.ok x, ctx₁)) (hnext : Runs env around (next x) ctx₁ out ctx₂ log) :
      Runs env around (.act b next) ctx out ctx₂ log
  | fail {around : Around} {α σ : Type} {b : Build σ} {next : σ → Plan α} {ctx ctx₁ : Context}
      {e : CompileError} (hb : b.outcome ctx = (.error e, ctx₁)) :
      Runs env around (.act b next) ctx (.error e) ctx₁ []
  | meet {around : Around} {α : Type} {path : String} {mode : Mode} {plain : Bool}
      {next : Ty → Plan α} {ctx ctx₁ ctx₂ : Context} {t : Ty} {out : Except CompileError α}
      {log₁ log₂ : List Meeting}
      (hpath : Runs env (fun m ↦ (env.aliasKey path plain, m) :: around mode)
        (referencePlan env path mode plain) ctx (.ok t) ctx₁ log₁)
      (hnext : Runs env around (next t) ctx₁ out ctx₂ log₂) :
      Runs env around (.meet path mode plain next) ctx out ctx₂
        (log₁ ++ logged ctx₁ (around mode) (env.aliasKey path plain) mode t ++ log₂)
  | stuck {around : Around} {α : Type} {path : String} {mode : Mode} {plain : Bool}
      {next : Ty → Plan α} {ctx ctx₁ : Context} {e : CompileError} {log : List Meeting}
      (hpath : Runs env (fun m ↦ (env.aliasKey path plain, m) :: around mode)
        (referencePlan env path mode plain) ctx (.error e) ctx₁ log) :
      Runs env around (.meet path mode plain next) ctx (.error e) ctx₁ log

/-- The references that carrying out a plan comes to, each with the context in which it is met. -/
inductive Comes (env : Env) : Around → {α : Type} → Plan α → Context → String → Mode → Bool →
    Context → Prop where
  | here {around : Around} {α : Type} {path : String} {mode : Mode} {plain : Bool}
      {next : Ty → Plan α} {ctx : Context} :
      Comes env around (.meet path mode plain next) ctx path mode plain ctx
  | act {around : Around} {α σ : Type} {b : Build σ} {next : σ → Plan α} {ctx ctx₁ ctx' : Context}
      {x : σ} {path : String} {mode : Mode} {plain : Bool} (hb : b.outcome ctx = (.ok x, ctx₁))
      (hnext : Comes env around (next x) ctx₁ path mode plain ctx') :
      Comes env around (.act b next) ctx path mode plain ctx'
  | past {around : Around} {α : Type} {first path : String} {mode₁ mode : Mode}
      {plain₁ plain : Bool} {next : Ty → Plan α} {ctx ctx₁ ctx' : Context} {t : Ty}
      {log : List Meeting}
      (hfirst : Runs env (fun m ↦ (env.aliasKey first plain₁, m) :: around mode₁)
        (referencePlan env first mode₁ plain₁) ctx (.ok t) ctx₁ log)
      (hnext : Comes env around (next t) ctx₁ path mode plain ctx') :
      Comes env around (.meet first mode₁ plain₁ next) ctx path mode plain ctx'

/-- What a reference may expect where it is met, and what it owes if it gets a type. The
surroundings are those of the reference. -/
structure Contract where
  pre : List (String × Mode) → String → Mode → Bool → Context → Prop
  post : List (String × Mode) → String → Mode → Bool → Context → Ty → Context → List Meeting → Prop

namespace Plan

variable {α β : Type} {env : Env} {contract : Contract} {around : Around}

/-- If references keep to the contract and the plan ends with a value, then `Q` holds of the value,
of the context after it and of the log. -/
def Ensures (env : Env) (contract : Contract) (around : Around) :
    Plan α → Context → (α → Context → List Meeting → Prop) → Prop
  | done a, ctx, Q => Q a ctx []
  | act b next, ctx, Q =>
    ∀ x ctx₁, b.outcome ctx = (.ok x, ctx₁) → (next x).Ensures env contract around ctx₁ Q
  | meet path mode plain next, ctx, Q =>
    contract.pre (around mode) path mode plain ctx ∧ ∀ t ctx₁ log₁,
      contract.post (around mode) path mode plain ctx t ctx₁ log₁ →
      (next t).Ensures env contract around ctx₁ fun a ctx₂ log₂ ↦
        Q a ctx₂ (log₁ ++ logged ctx₁ (around mode) (env.aliasKey path plain) mode t ++ log₂)

namespace Ensures

theorem mono {x : Plan α} {ctx : Context} {Q Q' : α → Context → List Meeting → Prop}
    (h : x.Ensures env contract around ctx Q) (hQ : ∀ a ctx log, Q a ctx log → Q' a ctx log) :
    x.Ensures env contract around ctx Q' := by
  induction x generalizing ctx Q Q' with
  | done a => exact hQ _ _ _ h
  | act b next ih => exact fun x ctx₁ hb ↦ ih x (h x ctx₁ hb) hQ
  | meet path mode plain next ih =>
    exact ⟨h.1, fun t ctx₁ log₁ ht ↦ ih t (h.2 t ctx₁ log₁ ht) fun _ _ _ ↦ hQ _ _ _⟩

theorem bind {x : Plan α} {f : α → Plan β} {ctx : Context} {Q : β → Context → List Meeting → Prop}
    (h : x.Ensures env contract around ctx fun a ctx₁ log₁ ↦
      (f a).Ensures env contract around ctx₁ fun b ctx₂ log₂ ↦ Q b ctx₂ (log₁ ++ log₂)) :
    (x >>= f).Ensures env contract around ctx Q := by
  induction x generalizing ctx Q with
  | done a => exact h
  | act b next ih => exact fun x ctx₁ hb ↦ ih x (h x ctx₁ hb)
  | meet path mode plain next ih =>
    refine ⟨h.1, fun t ctx₁ log₁ ht ↦ ih t ((h.2 t ctx₁ log₁ ht).mono fun a ctx₂ log₂ ha ↦ ?_)⟩
    exact ha.mono fun b ctx₃ log₃ ↦ by simp only [List.append_assoc, imp_self]

theorem act_bind {σ : Type} {b : Build σ} {f : σ → Plan α} {ctx : Context}
    {Q : α → Context → List Meeting → Prop}
    (h : ∀ x ctx₁, b.outcome ctx = (.ok x, ctx₁) → (f x).Ensures env contract around ctx₁ Q) :
    ((liftM b : Plan σ) >>= f).Ensures env contract around ctx Q :=
  h

/-- What every step and every reference of a plan keeps, the whole plan keeps. -/
theorem of_within {A : (σ : Type) → Build σ → Prop} {M : String → Mode → Bool → Prop}
    {I : Context → List Meeting → Prop}
    (hA : ∀ σ b, A σ b → ∀ ctx x ctx₁ log, b.outcome ctx = (.ok x, ctx₁) → I ctx log → I ctx₁ log)
    (hM : ∀ path mode plain, M path mode plain → ∀ ctx log, I ctx log →
      contract.pre (around mode) path mode plain ctx ∧ ∀ t ctx₁ log₁,
        contract.post (around mode) path mode plain ctx t ctx₁ log₁ →
        I ctx₁ (log ++ (log₁ ++ logged ctx₁ (around mode) (env.aliasKey path plain) mode t)))
    {x : Plan α} (hx : x.Within A M) {ctx : Context} (log : List Meeting) (hI : I ctx log) :
    x.Ensures env contract around ctx fun _ ctx₁ log₁ ↦ I ctx₁ (log ++ log₁) := by
  induction x generalizing ctx log with
  | done a => simpa [Ensures] using hI
  | act b next ih =>
    exact fun x ctx₁ hb ↦ ih x (hx.2 ctx x ctx₁ hb) log (hA _ b hx.1 ctx x ctx₁ log hb hI)
  | meet path mode plain next ih =>
    obtain ⟨hpre, hpost⟩ := hM path mode plain hx.1 ctx log hI
    refine ⟨hpre, fun t ctx₁ log₁ ht ↦ ?_⟩
    exact (ih t (hx.2 t) _ (hpost t ctx₁ log₁ ht)).mono fun _ _ _ ↦ by
      simp only [List.append_assoc, imp_self]

end Ensures

end Plan

/-- Every reference keeps the contract if the references that it meets do. -/
def Contract.Kept (env : Env) (contract : Contract) : Prop :=
  ∀ w path mode plain ctx, contract.pre w path mode plain ctx →
    (referencePlan env path mode plain).Ensures env contract
      (fun m ↦ (env.aliasKey path plain, m) :: w) ctx (contract.post w path mode plain ctx)

namespace Contract

/-- A contract whose answers also keep another one. -/
def given (contract other : Contract) : Contract where
  pre := contract.pre
  post := fun w path mode plain ctx t ctx' log ↦
    other.post w path mode plain ctx t ctx' log ∧ contract.post w path mode plain ctx t ctx' log

def and (contract other : Contract) : Contract where
  pre := fun w path mode plain ctx ↦
    other.pre w path mode plain ctx ∧ contract.pre w path mode plain ctx
  post := (contract.given other).post

end Contract

theorem Plan.Ensures.and {env : Env} {contract other : Contract} {around : Around} {α : Type}
    {x : Plan α} {ctx : Context} {Q Q' : α → Context → List Meeting → Prop}
    (h : x.Ensures env other around ctx Q)
    (h' : x.Ensures env (contract.given other) around ctx Q') :
    x.Ensures env (contract.and other) around ctx
      fun a ctx' log ↦ Q a ctx' log ∧ Q' a ctx' log := by
  induction x generalizing ctx Q Q' with
  | done a => exact ⟨h, h'⟩
  | act b next ih => exact fun x ctx₁ hb ↦ ih x (h x ctx₁ hb) (h' x ctx₁ hb)
  | meet path mode plain next ih =>
    exact ⟨⟨h.1, h'.1⟩, fun t ctx₁ log₁ ht ↦ ih t (h.2 t ctx₁ log₁ ht.1) (h'.2 t ctx₁ log₁ ht)⟩

/-- A contract may rely on another one that is kept. -/
theorem Contract.Kept.and {env : Env} {contract other : Contract} (hother : other.Kept env)
    (h : ∀ w path mode plain ctx, contract.pre w path mode plain ctx →
      (referencePlan env path mode plain).Ensures env (contract.given other)
        (fun m ↦ (env.aliasKey path plain, m) :: w) ctx (contract.post w path mode plain ctx)) :
    (contract.and other).Kept env :=
  fun w path mode plain ctx hpre ↦
    (hother w path mode plain ctx hpre.1).and (h w path mode plain ctx hpre.2)

namespace Runs

variable {env : Env} {α : Type} {around : Around} {x : Plan α} {ctx ctx' : Context}
  {out : Except CompileError α} {log : List Meeting}

/-- The rule of recursion: if every reference keeps the contract as long as the references that it
meets do, then what a plan ensures under the contract holds of its runs. -/
theorem ensures {contract : Contract} (hcontract : contract.Kept env)
    (h : Runs env around x ctx out ctx' log) {a : α} (hout : out = .ok a)
    {Q : α → Context → List Meeting → Prop} (hx : x.Ensures env contract around ctx Q) :
    Q a ctx' log := by
  induction h with
  | done b =>
    cases hout
    exact hx
  | act hb _ ih => exact ih hout (hx _ _ hb)
  | fail hb => cases hout
  | meet _ _ ihpath ihnext =>
    exact ihnext hout (hx.2 _ _ _ (ihpath rfl (hcontract _ _ _ _ _ hx.1)))
  | stuck _ _ => cases hout

/-- A plan that ensures something under a contract comes to references only where they may be met.
-/
theorem pre_of_comes {contract : Contract} (hcontract : contract.Kept env) {path : String}
    {mode : Mode} {plain : Bool} (h : Comes env around x ctx path mode plain ctx')
    {Q : α → Context → List Meeting → Prop} (hx : x.Ensures env contract around ctx Q) :
    contract.pre (around mode) path mode plain ctx' := by
  induction h generalizing Q with
  | here => exact hx.1
  | act hb _ ih => exact ih (hx _ _ hb)
  | past hfirst _ ih =>
    exact ih
      (hx.2 _ _ _ (hfirst.ensures hcontract rfl (hcontract _ _ _ _ _ hx.1)))

/-- If answers to references are runs of their plans wherever the contract lets references be met,
then what comes of a plan with these answers is a run of it. -/
theorem of_answers (contract : Contract) {answer : Follow}
    (hanswer : ∀ w path mode plain ctx, contract.pre w path mode plain ctx →
      ∃ log, Runs env (fun m ↦ (env.aliasKey path plain, m) :: w)
          (referencePlan env path mode plain) ctx ((answer path mode plain).outcome ctx).1
          ((answer path mode plain).outcome ctx).2 log ∧
        ∀ t, ((answer path mode plain).outcome ctx).1 = .ok t →
          contract.post w path mode plain ctx t ((answer path mode plain).outcome ctx).2 log)
    {Q : α → Context → List Meeting → Prop} (hx : x.Ensures env contract around ctx Q) :
    ∃ log, Runs env around x ctx ((x.run answer).outcome ctx).1 ((x.run answer).outcome ctx).2 log ∧
      ∀ a, ((x.run answer).outcome ctx).1 = .ok a → Q a ((x.run answer).outcome ctx).2 log := by
  induction x generalizing ctx Q with
  | done a => exact ⟨[], .done a, fun b hb ↦ by cases hb; exact hx⟩
  | act b next ih =>
    rcases hb : b.outcome ctx with ⟨e | a, ctx₁⟩
    · rw [Plan.run, Build.outcome_bind_error hb]
      exact ⟨[], .fail hb, fun _ h ↦ by cases h⟩
    · rw [Plan.run, Build.outcome_bind_ok hb]
      obtain ⟨log, hrun, hQ⟩ := ih a (hx a ctx₁ hb)
      exact ⟨log, .act hb hrun, hQ⟩
  | meet path mode plain next ih =>
    obtain ⟨log₁, hpath, hpost⟩ := hanswer _ path mode plain ctx hx.1
    rcases ht : (answer path mode plain).outcome ctx with ⟨e | t, ctx₁⟩ <;> rw [ht] at hpath hpost
    · rw [Plan.run, Build.outcome_bind_error ht]
      exact ⟨log₁, .stuck hpath, fun _ h ↦ by cases h⟩
    · rw [Plan.run, Build.outcome_bind_ok ht]
      obtain ⟨log₂, hrun, hQ⟩ := ih t (hx.2 t ctx₁ log₁ (hpost t rfl))
      exact ⟨_, .meet hpath hrun, hQ⟩

theorem unique (h : Runs env around x ctx out ctx' log) {out₂ : Except CompileError α}
    {ctx₂ : Context} {log₂ : List Meeting} (h₂ : Runs env around x ctx out₂ ctx₂ log₂) :
    out = out₂ ∧ ctx' = ctx₂ ∧ log = log₂ := by
  induction h generalizing ctx₂ log₂ with
  | done a =>
    cases h₂
    exact ⟨rfl, rfl, rfl⟩
  | act hb _ ih =>
    cases h₂ with
    | act hb' hnext =>
      cases hb.symm.trans hb'
      exact ih hnext
    | fail hb' => cases hb.symm.trans hb'
  | fail hb =>
    cases h₂ with
    | act hb' _ => cases hb.symm.trans hb'
    | fail hb' =>
      cases hb.symm.trans hb'
      exact ⟨rfl, rfl, rfl⟩
  | meet _ _ ihpath ihnext =>
    cases h₂ with
    | meet hpath hnext =>
      obtain ⟨ht, rfl, rfl⟩ := ihpath hpath
      cases ht
      obtain ⟨rfl, rfl, rfl⟩ := ihnext hnext
      exact ⟨rfl, rfl, rfl⟩
    | stuck hpath =>
      obtain ⟨ht, -⟩ := ihpath hpath
      cases ht
  | stuck _ ih =>
    cases h₂ with
    | meet hpath _ =>
      obtain ⟨ht, -⟩ := ih hpath
      cases ht
    | stuck hpath =>
      obtain ⟨ht, rfl, rfl⟩ := ih hpath
      cases ht
      exact ⟨rfl, rfl, rfl⟩

end Runs

end ApiClient
