import ApiClient.Proofs.Compile.Runs

/-!
# What plans can come to

The result of a plan depends on the context only through what its steps come to and what the
references in it are answered. So once it is known what these can be, the results can be described
without contexts. What was answered on the way is read off the context at the end, where all that
was entered on the way still stands.
-/

namespace ApiClient

open TypeScript

namespace Plan

variable {α β : Type} {V : (σ : Type) → Build σ → σ → Prop}
  {R : String → Mode → Bool → Ty → Prop}

/-- `P` holds of the result of a plan, whatever its steps come to and its references are answered
within `V` and `R`. -/
def Always (V : (σ : Type) → Build σ → σ → Prop) (R : String → Mode → Bool → Ty → Prop) :
    Plan α → (α → Prop) → Prop
  | done a, P => P a
  | act b next, P => ∀ x, V _ b x → (next x).Always V R P
  | meet path mode plain next, P => ∀ t, R path mode plain t → (next t).Always V R P

namespace Always

theorem done {a : α} {P : α → Prop} (h : P a) : (Plan.done a).Always V R P := h

theorem act {b : Build α} {P : α → Prop} (h : ∀ x, V _ b x → P x) :
    (Plan.act b .done).Always V R P :=
  h

theorem follow {path : String} {mode : Mode} {plain : Bool} {P : Ty → Prop}
    (h : ∀ t, R path mode plain t → P t) : (Plan.follow path mode plain).Always V R P :=
  h

theorem mono {x : Plan α} {P Q : α → Prop} (h : x.Always V R P) (hPQ : ∀ a, P a → Q a) :
    x.Always V R Q := by
  induction x with
  | done a => exact hPQ a h
  | act b next ih => exact fun x hx ↦ ih x (h x hx)
  | meet path mode plain next ih => exact fun t ht ↦ ih t (h t ht)

theorem of_forall {x : Plan α} {P : α → Prop} (h : ∀ a, P a) : x.Always V R P := by
  induction x with
  | done a => exact h a
  | act b next ih => exact fun x _ ↦ ih x
  | meet path mode plain next ih => exact fun t _ ↦ ih t

theorem weaken {V' : (σ : Type) → Build σ → σ → Prop} {R' : String → Mode → Bool → Ty → Prop}
    {x : Plan α} {P : α → Prop} (h : x.Always V' R' P) (hV : ∀ σ b a, V σ b a → V' σ b a)
    (hR : ∀ path mode plain t, R path mode plain t → R' path mode plain t) : x.Always V R P := by
  induction x with
  | done a => exact h
  | act b next ih => exact fun x hx ↦ ih x (h x (hV _ b x hx))
  | meet path mode plain next ih => exact fun t ht ↦ ih t (h t (hR _ _ _ t ht))

theorem bind {x : Plan α} {f : α → Plan β} {P : β → Prop}
    (h : x.Always V R fun a ↦ (f a).Always V R P) : (x >>= f).Always V R P := by
  induction x with
  | done a => exact h
  | act b next ih => exact fun x hx ↦ ih x (h x hx)
  | meet path mode plain next ih => exact fun t ht ↦ ih t (h t ht)

theorem act_bind {σ : Type} {b : Build σ} {f : σ → Plan α} {P : α → Prop}
    (h : ∀ x, V _ b x → (f x).Always V R P) : ((liftM b : Plan σ) >>= f).Always V R P :=
  h

end Always

/-- What a plan always comes to, going by the context at its end, it ensures. The relation `L`
leads from each context on the way to the next one, and keeps what steps came to and references were
answered. -/
theorem Ensures.of_always {env : Env} {contract : Contract} {around : Around}
    {A : (σ : Type) → Build σ → Prop} {M : String → Mode → Bool → Prop} {I : Context → Prop}
    {L : Context → Context → Prop} {V : Context → (σ : Type) → Build σ → σ → Prop}
    {R : Context → String → Mode → Bool → Ty → Prop} (hrefl : ∀ ctx, L ctx ctx)
    (htrans : ∀ {ctx₁ ctx₂ ctx₃}, L ctx₁ ctx₂ → L ctx₂ ctx₃ → L ctx₁ ctx₃)
    (hV : ∀ {ctx ctx'}, L ctx ctx' → ∀ σ b x, V ctx σ b x → V ctx' σ b x)
    (hR : ∀ {ctx ctx'}, L ctx ctx' → ∀ path mode plain t, R ctx path mode plain t →
      R ctx' path mode plain t)
    (hA : ∀ σ b, A σ b → ∀ ctx x ctx₁, b.outcome ctx = (.ok x, ctx₁) → I ctx →
      I ctx₁ ∧ L ctx ctx₁ ∧ V ctx₁ σ b x)
    (hM : ∀ path mode plain, M path mode plain → ∀ ctx, I ctx →
      contract.pre (around mode) path mode plain ctx ∧ ∀ t ctx₁ log,
        contract.post (around mode) path mode plain ctx t ctx₁ log →
        I ctx₁ ∧ L ctx ctx₁ ∧ R ctx₁ path mode plain t)
    {x : Plan α} (hx : x.Within A M) {ctx : Context} (hI : I ctx) :
    x.Ensures env contract around ctx fun a ctx' _ ↦ I ctx' ∧ L ctx ctx' ∧
      ∀ P, x.Always (V ctx') (R ctx') P → P a := by
  induction x generalizing ctx with
  | done a => exact ⟨hI, hrefl ctx, fun P hP ↦ hP⟩
  | act b next ih =>
    intro y ctx₁ hy
    obtain ⟨hI₁, hbelow, hv⟩ := hA _ b hx.1 ctx y ctx₁ hy hI
    refine (ih y (hx.2 ctx y ctx₁ hy) hI₁).mono ?_
    rintro a ctx' - ⟨hI', hbelow', ha⟩
    exact ⟨hI', htrans hbelow hbelow', fun P hP ↦ ha P (hP y (hV hbelow' _ b y hv))⟩
  | meet path mode plain next ih =>
    obtain ⟨hpre, hpost⟩ := hM path mode plain hx.1 ctx hI
    refine ⟨hpre, fun t ctx₁ log₁ ht ↦ ?_⟩
    obtain ⟨hI₁, hbelow, hr⟩ := hpost t ctx₁ log₁ ht
    refine (ih t (hx.2 t) hI₁).mono ?_
    rintro a ctx' - ⟨hI', hbelow', ha⟩
    exact ⟨hI', htrans hbelow hbelow', fun P hP ↦ ha P (hP t (hR hbelow' _ _ _ t hr))⟩

end Plan

end ApiClient
