import ApiClient.Compile.Reference

/-!
# Steps of a compilation

What each step comes to in a context, and which tables it leaves alone. Only entering names changes
the table of names, and only a scan changes the table of marks.
-/

namespace ApiClient

open TypeScript

/-- What has been done if two computations that may fail come to a result. -/
theorem bind_eq_ok {ε α β : Type} {x : Except ε α} {f : α → Except ε β} {b : β} :
    (x >>= f) = .ok b ↔ ∃ a, x = .ok a ∧ f a = .ok b := by
  cases x with
  | error e => simp [bind, Except.bind]
  | ok a => simp [bind, Except.bind]

namespace Build

variable {α β γ : Type}

/-- The result of a step in a context, and the context after it. -/
def outcome (b : Build α) (ctx : Context) : Except CompileError α × Context :=
  StateT.run (ExceptT.run b) ctx

theorem outcome_bind (b : Build α) (f : α → Build β) (ctx : Context) :
    (b >>= f).outcome ctx =
      match b.outcome ctx with
      | (.ok a, ctx') => (f a).outcome ctx'
      | (.error e, ctx') => (.error e, ctx') := by
  simp only [outcome, ExceptT.run_bind, StateT.run_bind]
  rcases StateT.run (ExceptT.run b) ctx with ⟨_ | _, _⟩ <;> rfl

theorem outcome_bind_ok {b : Build α} {f : α → Build β} {ctx ctx' : Context} {a : α}
    (h : b.outcome ctx = (.ok a, ctx')) : (b >>= f).outcome ctx = (f a).outcome ctx' := by
  rw [outcome_bind, h]

theorem outcome_bind_error {b : Build α} {f : α → Build β} {ctx ctx' : Context} {e : CompileError}
    (h : b.outcome ctx = (.error e, ctx')) : (b >>= f).outcome ctx = (.error e, ctx') := by
  rw [outcome_bind, h]

/-- What has been done if one step after another comes to a result. -/
theorem outcome_bind_eq_ok {b : Build α} {f : α → Build β} {ctx ctx' : Context} {y : β} :
    (b >>= f).outcome ctx = (.ok y, ctx') ↔
      ∃ x ctx₁, b.outcome ctx = (.ok x, ctx₁) ∧ (f x).outcome ctx₁ = (.ok y, ctx') := by
  constructor
  · intro h
    rcases hb : b.outcome ctx with ⟨e | x, ctx₁⟩
    · rw [outcome_bind_error hb] at h
      cases h
    · exact ⟨x, ctx₁, rfl, (outcome_bind_ok hb).symm.trans h⟩
  · rintro ⟨x, ctx₁, hb, hf⟩
    exact (outcome_bind_ok hb).trans hf

@[simp] theorem outcome_get (ctx : Context) : (get : Build Context).outcome ctx = (.ok ctx, ctx) :=
  rfl

@[simp] theorem outcome_lift (x : Except CompileError α) (ctx : Context) :
    (liftM x : Build α).outcome ctx = (x, ctx) := rfl

@[simp] theorem outcome_ofResolve (x : Except ResolveError α) (ctx : Context) :
    (ofResolve x).outcome ctx = (x.mapError .reference, ctx) := by
  cases x <;> rfl

theorem ok_of_outcome_ofResolve {x : Except ResolveError α} {a : α} {ctx ctx' : Context}
    (h : (ofResolve x).outcome ctx = (.ok a, ctx')) : x = .ok a ∧ ctx = ctx' := by
  rw [outcome_ofResolve, Prod.mk.injEq] at h
  obtain ⟨hx, rfl⟩ := h
  cases x with
  | error e => cases hx
  | ok b =>
    cases hx
    exact ⟨rfl, rfl⟩

@[simp] theorem outcome_allocate (wanted : String) (ctx : Context) :
    (allocate wanted).outcome ctx =
      (.ok (Names.allocate wanted ctx.typeNames).1,
        { ctx with typeNames := (Names.allocate wanted ctx.typeNames).2 }) := rfl

@[simp] theorem outcome_register (key : String) (names : Aliases) (ctx : Context) :
    (register key names).outcome ctx =
      (.ok (), { ctx with aliases := Table.put key names ctx.aliases }) := rfl

@[simp] theorem outcome_declareType (name : String) (type : Ty) (ctx : Context) :
    (declareType name type).outcome ctx =
      (.ok (), { ctx with typeDeclarations := ctx.typeDeclarations ++ [.typeAlias name type] }) :=
  rfl

/-- A part of the context that a step leaves as it is, whether or not it fails. -/
def Keeps (part : Context → γ) (b : Build α) : Prop :=
  ∀ ctx, part (b.outcome ctx).2 = part ctx

namespace Keeps

variable {part : Context → γ}

theorem pure (a : α) : Keeps part (Pure.pure a : Build α) := fun _ ↦ rfl

theorem throw (e : CompileError) : Keeps part (MonadExcept.throw e : Build α) := fun _ ↦ rfl

theorem get : Keeps part (MonadState.get : Build Context) := fun _ ↦ rfl

theorem lift (x : Except CompileError α) : Keeps part (liftM x : Build α) := fun _ ↦ rfl

theorem ofResolve (x : Except ResolveError α) : Keeps part (Build.ofResolve x) := by
  intro ctx
  simp

theorem bind {b : Build α} {f : α → Build β} (hb : Keeps part b) (hf : ∀ a, Keeps part (f a)) :
    Keeps part (b >>= f) := by
  intro ctx
  have hctx := hb ctx
  rcases hout : b.outcome ctx with ⟨e | a, ctx'⟩ <;> rw [hout] at hctx
  · rwa [outcome_bind_error hout]
  · rw [outcome_bind_ok hout]
    exact (hf a ctx').trans hctx

theorem allocate (h : ∀ (ctx : Context) counts, part { ctx with typeNames := counts } = part ctx)
    (wanted : String) : Keeps part (Build.allocate wanted) :=
  fun ctx ↦ h ctx _

end Keeps

section

variable {part : Context → γ}
  (hnames : ∀ (ctx : Context) counts, part { ctx with typeNames := counts } = part ctx)
  (henums : ∀ (ctx : Context) entries, part { ctx with enums := entries } = part ctx)
  (hdecls : ∀ (ctx : Context) decls, part { ctx with enumDeclarations := decls } = part ctx)

include hnames henums hdecls

theorem keeps_newEnum (s : Schema) (proposed text : String) :
    Keeps part (newEnum s proposed text) := by
  refine .bind (.allocate hnames _) fun enumName ↦ .bind (.lift _) fun _ ↦ ?_
  refine .bind (.lift _) fun members ↦ .bind (fun ctx ↦ hdecls ctx _) fun _ ↦ ?_
  exact .bind (fun ctx ↦ henums ctx _) fun _ ↦ .pure _

/-- A part of the context that has nothing to do with enumerations is left alone by them. -/
theorem keeps_declareEnum (s : Schema) (name : String) :
    Keeps part (ApiClient.declareEnum s name) := by
  refine .bind (.lift _) fun text ↦ .bind .get fun ctx ↦ ?_
  split
  · split
    · exact .pure _
    · exact keeps_newEnum hnames henums hdecls _ _ _
  · exact keeps_newEnum hnames henums hdecls _ _ _

theorem keeps_simpleType (env : Env) (s : Schema) (name : Option String) :
    Keeps part (simpleType env s name) := by
  unfold simpleType
  repeat' split
  all_goals first
    | exact keeps_declareEnum hnames henums hdecls _ _
    | exact .lift _

end

/-- A step that leaves the tables of names and of marks alone. -/
def Still (b : Build α) : Prop :=
  Keeps (fun ctx ↦ (ctx.aliases, ctx.flags)) b

namespace Still

variable {b : Build α} {ctx ctx' : Context} {out : Except CompileError α}

theorem aliases (h : b.Still) (hout : b.outcome ctx = (out, ctx')) :
    ctx'.aliases = ctx.aliases := by
  have hctx := h ctx
  rw [hout] at hctx
  exact congrArg Prod.fst hctx

theorem flags (h : b.Still) (hout : b.outcome ctx = (out, ctx')) : ctx'.flags = ctx.flags := by
  have hctx := h ctx
  rw [hout] at hctx
  exact congrArg Prod.snd hctx

end Still

theorem still_declareEnum (s : Schema) (name : String) : (ApiClient.declareEnum s name).Still :=
  keeps_declareEnum (fun _ _ ↦ rfl) (fun _ _ ↦ rfl) (fun _ _ ↦ rfl) s name

theorem still_simpleType (env : Env) (s : Schema) (name : Option String) :
    (simpleType env s name).Still :=
  keeps_simpleType (fun _ _ ↦ rfl) (fun _ _ ↦ rfl) (fun _ _ ↦ rfl) env s name

theorem keeps_scan {part : Context → γ}
    (hflags : ∀ (ctx : Context) flags, part { ctx with flags } = part ctx) (scan : Scan Flags) :
    Keeps part (Build.scan scan) := by
  intro ctx
  unfold Build.scan
  rw [outcome_bind_ok (outcome_get ctx)]
  rcases hrun : scan.run { known := ctx.flags } with ⟨_ | flags, walk⟩ <;> simp only
  · exact hflags ctx _
  · exact hflags ctx _

theorem keeps_closureMarks {part : Context → γ}
    (hflags : ∀ (ctx : Context) flags, part { ctx with flags } = part ctx) (env : Env)
    (s : Schema) : Keeps part (env.closureMarks s) := by
  unfold Env.closureMarks
  split
  · exact .pure _
  · exact keeps_scan hflags _

theorem aliases_of_closureMarks {env : Env} {s : Schema} {ctx ctx' : Context}
    {out : Except CompileError Flags} (h : (env.closureMarks s).outcome ctx = (out, ctx')) :
    ctx'.aliases = ctx.aliases := by
  have hctx : ((env.closureMarks s).outcome ctx).2.aliases = ctx.aliases :=
    keeps_closureMarks (fun _ _ ↦ rfl) env s ctx
  rwa [h] at hctx

/-- A schema without scanned parts has the marks of its own. -/
theorem outcome_closureMarks {env : Env} {s : Schema} (hmodes : env.options.singleMode = false)
    (hs : s.scanned = []) (ctx : Context) :
    (env.closureMarks s).outcome ctx = (.ok s.marks, ctx) := by
  have hparts : ∀ parts (small : ∀ c ∈ parts, sizeOf c < sizeOf s), parts = [] →
      scanParts (scanRef env.snapshot env.snapshot.scanHops) s parts small s.marks =
        pure s.marks := by
    rintro _ small rfl
    rw [scanParts]
  rw [Env.closureMarks, if_neg (by simp [hmodes]), Schema.scan, hparts _ _ hs]
  rfl

end Build

end ApiClient
