import ApiClient.Proofs.Compile.Declaring

/-!
# Sessions

A session compiles nodes and references one after the other, each in the context that the one before
left behind. From step to step the names of a key never change. While a key is being declared it
gets new names, but only for modes that come later than the one that is being declared.
-/

namespace ApiClient

open TypeScript
open Plan (Ensures)

/-- The position of a mode in the order in which a schema is declared. -/
def Mode.rank : Mode → Nat
  | .base => 0
  | .read => 1
  | .write => 2

namespace Aliases

def own (a : Aliases) : Mode → Option String
  | .base => some a.base
  | .read => a.read
  | .write => a.write

theorem get_eq_own (a : Aliases) (mode : Mode) : a.get mode = (a.own mode).getD a.base := by
  cases mode <;> rfl

theorem base_eq_of_own {a b : Aliases} (h : b.own .base = a.own .base) : b.base = a.base :=
  Option.some.inj h

theorem get_eq_of_own {a b : Aliases} {mode : Mode} (hbase : b.own .base = a.own .base)
    (h : b.own mode = a.own mode) : b.get mode = a.get mode := by
  rw [get_eq_own, get_eq_own, h, base_eq_of_own hbase]

theorem get_eq_base {a : Aliases} {mode : Mode} (h : a.own mode = none) : a.get mode = a.base := by
  rw [get_eq_own, h]
  rfl

theorem own_set (a : Aliases) {mode : Mode} (hmode : mode ≠ .base) (name : String) (other : Mode) :
    (a.set mode name).own other = if other = mode then some name else a.own other := by
  cases mode <;> cases other <;> first | rfl | exact absurd rfl hmode

end Aliases

/-- The keys of one context are keys of a later one, with the names that are fixed. -/
def Context.Later (fixed : String → Mode → Prop) (ctx ctx' : Context) : Prop :=
  ∀ key names, Table.get? key ctx.aliases = some names →
    ∃ names', Table.get? key ctx'.aliases = some names' ∧
      ∀ mode, fixed key mode → names'.own mode = names.own mode

/-- All names of one context are those of a later one. -/
abbrev Context.Steady (ctx ctx' : Context) : Prop :=
  ctx.Later (fun _ _ ↦ True) ctx'

namespace Context.Later

variable {fixed fixed' : String → Mode → Prop} {ctx ctx' ctx'' : Context} {key : String}

theorem refl (ctx : Context) : ctx.Later fixed ctx :=
  fun _ names hnames ↦ ⟨names, hnames, fun _ _ ↦ rfl⟩

theorem mono (h : ctx.Later fixed ctx') (hfixed : ∀ key mode, fixed' key mode → fixed key mode) :
    ctx.Later fixed' ctx' := by
  intro key names hnames
  obtain ⟨names', hnames', hown⟩ := h key names hnames
  exact ⟨names', hnames', fun mode hmode ↦ hown mode (hfixed key mode hmode)⟩

theorem trans (h : ctx.Later fixed ctx') (h' : ctx'.Later fixed ctx'') : ctx.Later fixed ctx'' := by
  intro key names hnames
  obtain ⟨names', hnames', hown⟩ := h key names hnames
  obtain ⟨names'', hnames'', hown'⟩ := h' key names' hnames'
  exact ⟨names'', hnames'', fun mode hmode ↦ (hown' mode hmode).trans (hown mode hmode)⟩

theorem of_eq (h : ctx'.aliases = ctx.aliases) : ctx.Later fixed ctx' := by
  intro key names hnames
  exact ⟨names, h ▸ hnames, fun _ _ ↦ rfl⟩

theorem enter (h : Table.get? key ctx.aliases = none) (counts : Names.Counts) (names : Aliases) :
    ctx.Later fixed (ctx.enter counts key names) := by
  intro other old hold
  have hkey : key ≠ other := by
    rintro rfl
    simp [hold] at h
  exact ⟨old, (Context.get?_enter_of_ne hkey ..).trans hold, fun _ _ ↦ rfl⟩

/-- One more name for a key changes only the name in that mode. -/
theorem set {names : Aliases} (h : Table.get? key ctx.aliases = some names) (counts : Names.Counts)
    {mode : Mode} (hmode : mode ≠ .base) (name : String)
    (hfixed : ∀ other, fixed key other → other ≠ mode) :
    ctx.Later fixed (ctx.enter counts key (names.set mode name)) := by
  intro other old hold
  by_cases hkey : key = other
  · subst hkey
    obtain rfl := Option.some.inj (h.symm.trans hold)
    refine ⟨_, ctx.get?_enter_self counts key _, fun m hm ↦ ?_⟩
    rw [Aliases.own_set _ hmode, if_neg (hfixed m hm)]
  · exact ⟨old, (Context.get?_enter_of_ne hkey ..).trans hold, fun _ _ ↦ rfl⟩

/-- What is fixed of a key without names does not matter. -/
theorem of_new (h : ctx.Later fixed ctx') (hkey : Table.get? key ctx.aliases = none)
    (hfixed : ∀ other mode, other ≠ key → fixed other mode) : ctx.Steady ctx' := by
  intro other names hnames
  obtain ⟨names', hnames', hown⟩ := h other names hnames
  refine ⟨names', hnames', fun mode _ ↦ hown mode (hfixed other mode ?_)⟩
  rintro rfl
  simp [hnames] at hkey

end Context.Later

/-- A name that a key has got for a mode stays, and so do its names for other modes. -/
theorem Context.names_of_set {ctx ctx' : Context} {counts : Names.Counts} {key variant : String}
    {names : Aliases} {mode : Mode} (hmode : mode ≠ .base)
    (h : (ctx.enter counts key (names.set mode variant)).Steady ctx') :
    ∃ names', Table.get? key ctx'.aliases = some names' ∧
      (∀ m, m ≠ mode → names'.own m = names.own m) ∧ (names'.own mode).isSome = true := by
  obtain ⟨names', hnames', hown⟩ := h key _ (ctx.get?_enter_self counts key _)
  refine ⟨names', hnames', fun m hm ↦ ?_, ?_⟩
  · rw [hown m trivial, Aliases.own_set _ hmode, if_neg hm]
  · rw [hown mode trivial, Aliases.own_set _ hmode, if_pos rfl]
    rfl

inductive Request (env : Env) : Plan Ty → Prop where
  | schema (node : Option (RefOr Schema)) (name : Option String) (mode : Mode) :
      Request env (schemaPlan env node name mode)
  | reference (path : String) (mode : Mode) (plain : Bool) : Request env (.follow path mode plain)

/-- A session from a fresh context: requests that are fulfilled one after the other, with the log of
all of them. -/
inductive Session (env : Env) : Context → List Meeting → Prop where
  | start : Session env {} []
  | step {ctx ctx' : Context} {log log' : List Meeting} {x : Plan Ty} {t : Ty}
      (h : Session env ctx log) (hx : Request env x)
      (hrun : Runs env (fun _ ↦ []) x ctx (.ok t) ctx' log') : Session env ctx' (log ++ log')

theorem Request.within {env : Env} {A : (σ : Type) → Build σ → Prop} (hA : Admits env A)
    {x : Plan Ty} (hx : Request env x) : x.Within A fun _ _ _ ↦ True := by
  cases hx with
  | schema node name mode =>
    cases node with
    | none => exact .done _
    | some node => exact nodeType_within hA node name fun _ _ _ ↦ trivial
  | reference path mode plain => exact .follow trivial

/-- What holds at the beginning and is kept by every reference holds throughout a session. -/
theorem Session.invariant {env : Env} {contract : Contract} {I : Context → List Meeting → Prop}
    (hcontract : contract.Kept env) (hstart : I {} [])
    (hstill : ∀ ctx ctx' log, ctx'.aliases = ctx.aliases → ctx'.flags = ctx.flags → I ctx log →
      I ctx' log)
    (hkeep : ∀ path mode plain ctx log, I ctx log → contract.pre [] path mode plain ctx ∧
      ∀ t ctx' log', contract.post [] path mode plain ctx t ctx' log' →
        I ctx' (log ++ (log' ++ logged ctx' [] (env.aliasKey path plain) mode t)))
    {ctx : Context} {log : List Meeting} (h : Session env ctx log) : I ctx log := by
  induction h with
  | start => exact hstart
  | step _ hx hrun ih =>
    refine hrun.ensures hcontract rfl
      (Ensures.of_within ?_ ?_ (hx.within (admits_still env)) _ ih)
    · exact fun σ b hb ctx x ctx₁ log hout hI ↦
        hstill ctx ctx₁ log (hb.aliases hout) (hb.flags hout) hI
    · exact fun path mode plain _ ctx log hI ↦ hkeep path mode plain ctx log hI

end ApiClient
