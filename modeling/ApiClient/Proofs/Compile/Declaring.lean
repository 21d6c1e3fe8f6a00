import ApiClient.Proofs.Compile.Runs

/-!
# What a reference does

The plan of a reference in its cases: its key has names, or it gets a declared enumeration, or new
names are entered and the schema is declared once for each mode in which it differs.
-/

namespace ApiClient

open TypeScript
open Plan (Ensures)

/-- The context in which one more alias is declared. -/
def Context.declare (ctx : Context) (name : String) (t : Ty) : Context :=
  { ctx with typeDeclarations := ctx.typeDeclarations ++ [.typeAlias name t] }

/-- The context in which a key has names, and the names given out are counted. -/
def Context.enter (ctx : Context) (counts : Names.Counts) (key : String) (names : Aliases) :
    Context :=
  { ctx with typeNames := counts, aliases := Table.put key names ctx.aliases }

namespace Context

@[simp] theorem declare_aliases (ctx : Context) (name : String) (t : Ty) :
    (ctx.declare name t).aliases = ctx.aliases := rfl

theorem get?_enter_self (ctx : Context) (counts : Names.Counts) (key : String) (names : Aliases) :
    Table.get? key (ctx.enter counts key names).aliases = some names := by
  rw [enter, Table.get?_put, if_pos rfl]

theorem get?_enter_of_ne {key other : String} (h : key ≠ other) (ctx : Context)
    (counts : Names.Counts) (names : Aliases) :
    Table.get? other (ctx.enter counts key names).aliases = Table.get? other ctx.aliases := by
  rw [enter, Table.get?_put, if_neg h]

theorem has_enter_self (ctx : Context) (counts : Names.Counts) (key : String) (names : Aliases) :
    Table.has (ctx.enter counts key names).aliases key := by
  rw [Table.has_eq_isSome, get?_enter_self]
  rfl

end Context

def variantPlan (env : Env) (key : String) (s : Schema) (name : String) (mode : Mode)
    (differs : Bool) : Plan Unit :=
  if differs then addVariant env key s name mode else pure ()

theorem declareModes_eq (env : Env) (key : String) (s : Schema) (name base : String) :
    declareModes env key s name base = (do
      declareIn env s base .base
      let flags ← env.closureMarks s
      variantPlan env key s name .read flags.readOnly
      variantPlan env key s name .write flags.writeOnly) := by
  unfold declareModes variantPlan
  congr 1
  funext _
  congr 1
  funext flags
  cases flags.readOnly <;> cases flags.writeOnly <;> rfl

namespace Plan.Ensures

variable {env : Env} {contract : Contract} {around : Around} {ctx : Context} {key : String}
  {s : Schema} {name base : String} {mode : Mode}

theorem of_declareIn {Q : Unit → Context → List Meeting → Prop}
    (h : (inlineType env s none mode).Ensures env contract around ctx fun t ctx₁ log ↦
      Q () (ctx₁.declare name t) log) :
    (declareIn env s name mode).Ensures env contract around ctx Q := by
  refine .bind (h.mono fun t ctx₁ log hQ ↦ .act_bind fun x ctx₂ hdeclare ↦ ?_)
  rw [Build.outcome_declareType] at hdeclare
  cases hdeclare
  show Q _ _ (log ++ [])
  rw [List.append_nil]
  exact hQ

theorem of_variantPlan {differs : Bool} {names : Aliases}
    (hnames : Table.get? key ctx.aliases = some names) {Q : Unit → Context → List Meeting → Prop}
    (same : differs = false → Q () ctx [])
    (other : differs = true → ∀ variant counts,
      Names.allocate (toIdentifier name true mode) ctx.typeNames = (variant, counts) →
      (inlineType env s none mode).Ensures env contract around
        (ctx.enter counts key (names.set mode variant)) fun t ctx₁ log ↦
        Q () (ctx₁.declare variant t) log) :
    (variantPlan env key s name mode differs).Ensures env contract around ctx Q := by
  unfold variantPlan
  split
  next hdiffers =>
    refine .act_bind fun variant ctx₁ hvariant ↦ .act_bind fun ctx₂ ctx₃ hget ↦ ?_
    rw [Build.outcome_allocate] at hvariant
    cases hvariant
    cases hget
    simp only [hnames]
    refine .act_bind fun _ ctx₄ hregister ↦ ?_
    rw [Build.outcome_register] at hregister
    cases hregister
    exact of_declareIn (other hdiffers _ _ rfl)
  next hdiffers => exact same (by simpa using hdiffers)

theorem of_declareModes {Q : Unit → Context → List Meeting → Prop}
    (h : (inlineType env s none .base).Ensures env contract around ctx fun t ctx₁ log₁ ↦
      ∀ flags ctx₂, (env.closureMarks s).outcome (ctx₁.declare base t) = (.ok flags, ctx₂) →
      (variantPlan env key s name .read flags.readOnly).Ensures env contract around ctx₂
        fun _ ctx₃ log₂ ↦
        (variantPlan env key s name .write flags.writeOnly).Ensures env contract around ctx₃
          fun _ ctx₄ log₃ ↦ Q () ctx₄ (log₁ ++ (log₂ ++ log₃))) :
    (declareModes env key s name base).Ensures env contract around ctx Q := by
  rw [declareModes_eq]
  refine .bind (of_declareIn (h.mono fun t ctx₁ log₁ hflags ↦ ?_))
  exact .act_bind fun flags ctx₂ hmarks ↦ .bind (hflags flags ctx₂ hmarks)

theorem of_referencePlan {path : String} {plain : Bool} {Q : Ty → Context → List Meeting → Prop}
    (found : ∀ names, Table.get? (env.aliasKey path plain) ctx.aliases = some names →
      Q (.named (names.get mode)) ctx [])
    (enum : Table.get? (env.aliasKey path plain) ctx.aliases = none → ∀ s name t ctx₁,
      env.target path plain = .ok s → env.options.declaresEnum s name = true →
      (declareEnum s name).outcome ctx = (.ok t, ctx₁) → Q t ctx₁ [])
    (declared : Table.get? (env.aliasKey path plain) ctx.aliases = none → ∀ s name base counts,
      env.target path plain = .ok s →
      name = s.title.getD (Pointer.displayName (env.aliasKey path plain)) →
      env.options.declaresEnum s name = false →
      Names.allocate (toIdentifier name true) ctx.typeNames = (base, counts) →
      (declareModes env (env.aliasKey path plain) s name base).Ensures env contract around
        (ctx.enter counts (env.aliasKey path plain) { base := base }) fun _ ctx₁ log ↦
        Q (.named (((Table.get? (env.aliasKey path plain) ctx₁.aliases).map
          (Aliases.get · mode)).getD base)) ctx₁ log) :
    (referencePlan env path mode plain).Ensures env contract around ctx Q := by
  refine .act_bind fun ctx₁ ctx₂ hget ↦ ?_
  cases hget
  split
  next names hnames => exact found names hnames
  next hnames =>
    refine .act_bind fun s ctx₁ hs ↦ ?_
    obtain ⟨htarget, rfl⟩ := Build.ok_of_outcome_ofResolve hs
    dsimp only
    split
    next henum => exact .act_bind fun t ctx₂ ht ↦ enum hnames s _ t ctx₂ htarget henum ht
    next henum =>
      refine .act_bind fun base ctx₁ hbase ↦ .act_bind fun _ ctx₂ hregister ↦ ?_
      rcases hallocate : Names.allocate (toIdentifier
        (s.title.getD (Pointer.displayName (env.aliasKey path plain))) true) ctx.typeNames
        with ⟨base', counts⟩
      rw [Build.outcome_allocate, hallocate] at hbase
      cases hbase
      rw [Build.outcome_register] at hregister
      cases hregister
      refine .bind ((declared hnames s _ _ _ htarget rfl (by simpa using henum) hallocate).mono
        fun _ ctx₃ log hQ ↦ ?_)
      refine .act_bind fun ctx₄ ctx₅ hget ↦ ?_
      cases hget
      split
      next names hentry => simpa [Ensures, hentry] using hQ
      next hentry => simpa [Ensures, hentry] using hQ

end Plan.Ensures

namespace Runs

variable {env : Env} {around : Around} {ctx ctx₁ ctx₂ ctx₃ ctx₄ : Context}
  {path key name base : String} {mode : Mode} {plain : Bool} {s : Schema} {names : Aliases}
  {counts : Names.Counts} {t : Ty}
  {log log₁ log₂ log₃ : List Meeting}

theorem bind {α β : Type} {x : Plan α} {f : α → Plan β} {a : α} {out : Except CompileError β}
    (hx : Runs env around x ctx (.ok a) ctx₁ log₁) (hf : Runs env around (f a) ctx₁ out ctx₂ log₂) :
    Runs env around (x >>= f) ctx out ctx₂ (log₁ ++ log₂) := by
  generalize hout : (Except.ok a : Except CompileError α) = out₁ at hx
  induction hx with
  | done b =>
    cases hout
    exact hf
  | act hb _ ih => exact .act hb (ih hf hout)
  | fail hb => cases hout
  | meet hpath _ _ ihnext =>
    rw [List.append_assoc]
    exact .meet hpath (ihnext hf hout)
  | stuck _ _ => cases hout

theorem act_bind {σ α : Type} {b : Build σ} {f : σ → Plan α} {x : σ} {out : Except CompileError α}
    (hb : b.outcome ctx = (.ok x, ctx₁)) (hf : Runs env around (f x) ctx₁ out ctx₂ log) :
    Runs env around ((liftM b : Plan σ) >>= f) ctx out ctx₂ log :=
  .act hb hf

theorem declareIn (h : Runs env around (inlineType env s none mode) ctx (.ok t) ctx₁ log) :
    Runs env around (ApiClient.declareIn env s name mode) ctx (.ok ()) (ctx₁.declare name t)
      log := by
  rw [← List.append_nil log]
  exact h.bind (.act (Build.outcome_declareType name t ctx₁) (.done ()))

theorem same (ctx : Context) :
    Runs env around (variantPlan env key s name mode false) ctx (.ok ()) ctx [] :=
  .done ()

theorem other {variant : String} (hnames : Table.get? key ctx.aliases = some names)
    (hvariant : Names.allocate (toIdentifier name true mode) ctx.typeNames = (variant, counts))
    (h : Runs env around (inlineType env s none mode)
      (ctx.enter counts key (names.set mode variant)) (.ok t) ctx₁ log) :
    Runs env around (variantPlan env key s name mode true) ctx (.ok ()) (ctx₁.declare variant t)
      log := by
  refine act_bind (by rw [Build.outcome_allocate, hvariant]) (act_bind rfl ?_)
  simp only [hnames]
  exact act_bind rfl h.declareIn

theorem modes {flags : Flags}
    (hbase : Runs env around (inlineType env s none .base) ctx (.ok t) ctx₁ log₁)
    (hmarks : (env.closureMarks s).outcome (ctx₁.declare base t) = (.ok flags, ctx₂))
    (hread : Runs env around (variantPlan env key s name .read flags.readOnly) ctx₂ (.ok ()) ctx₃
      log₂)
    (hwrite : Runs env around (variantPlan env key s name .write flags.writeOnly) ctx₃ (.ok ()) ctx₄
      log₃) :
    Runs env around (declareModes env key s name base) ctx (.ok ()) ctx₄
      (log₁ ++ (log₂ ++ log₃)) := by
  rw [declareModes_eq]
  exact hbase.declareIn.bind (act_bind hmarks (hread.bind hwrite))

theorem found (hnames : Table.get? (env.aliasKey path plain) ctx.aliases = some names) :
    Runs env around (referencePlan env path mode plain) ctx (.ok (.named (names.get mode))) ctx
      [] := by
  refine act_bind rfl ?_
  simp only [hnames]
  exact .done _

theorem enumerated {out : Except CompileError Ty}
    (hnew : Table.get? (env.aliasKey path plain) ctx.aliases = none)
    (hs : env.target path plain = .ok s)
    (henum : env.options.declaresEnum s
      (s.title.getD (Pointer.displayName (env.aliasKey path plain))) = true)
    (hout : (declareEnum s (s.title.getD (Pointer.displayName (env.aliasKey path plain)))).outcome
      ctx = (out, ctx₁)) :
    Runs env around (referencePlan env path mode plain) ctx out ctx₁ [] := by
  refine act_bind rfl ?_
  simp only [hnew]
  refine act_bind (by rw [Build.outcome_ofResolve, hs]; rfl) ?_
  rw [if_pos henum]
  cases out with
  | error e => exact .fail hout
  | ok t => exact .act hout (.done _)

theorem declared (hnew : Table.get? (env.aliasKey path plain) ctx.aliases = none)
    (hs : env.target path plain = .ok s)
    (henum : env.options.declaresEnum s
      (s.title.getD (Pointer.displayName (env.aliasKey path plain))) = false)
    (hbase : Names.allocate (toIdentifier
      (s.title.getD (Pointer.displayName (env.aliasKey path plain))) true) ctx.typeNames =
      (base, counts))
    (hmodes : Runs env around (declareModes env (env.aliasKey path plain) s
      (s.title.getD (Pointer.displayName (env.aliasKey path plain))) base)
      (ctx.enter counts (env.aliasKey path plain) { base := base }) (.ok ()) ctx₁ log)
    (hnames : Table.get? (env.aliasKey path plain) ctx₁.aliases = some names) :
    Runs env around (referencePlan env path mode plain) ctx (.ok (.named (names.get mode))) ctx₁
      log := by
  refine act_bind rfl ?_
  simp only [hnew]
  refine act_bind (by rw [Build.outcome_ofResolve, hs]; rfl) ?_
  rw [if_neg (by simp [henum])]
  refine act_bind (by rw [Build.outcome_allocate, hbase]) (act_bind rfl ?_)
  rw [← List.append_nil log]
  refine hmodes.bind (act_bind rfl ?_)
  simp only [hnames]
  exact .done _

end Runs

end ApiClient
