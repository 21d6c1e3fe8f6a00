import ApiClient.Proofs.Compile.Declaring
import ApiClient.Proofs.Compile.Scans

/-!
# Compiling comes to an end

References may lead in circles, yet every compilation has a run. A reference without names enters
its key before what it points to is compiled, keys are never taken out again, and what is compiled
below it refers only to the finitely many references of the document. So the number of keys that
have no names goes down with every reference that is met below another one.
-/

namespace ApiClient

open TypeScript
open Plan (Ensures)

/-- The keys of one context are keys of another one. -/
def Context.Grows (ctx ctx' : Context) : Prop :=
  ∀ key, Table.has ctx.aliases key → Table.has ctx'.aliases key

namespace Context.Grows

variable {ctx ctx' ctx'' : Context}

theorem refl (ctx : Context) : ctx.Grows ctx := fun _ h ↦ h

theorem trans (h : ctx.Grows ctx') (h' : ctx'.Grows ctx'') : ctx.Grows ctx'' :=
  fun key hkey ↦ h' key (h key hkey)

theorem of_eq (h : ctx'.aliases = ctx.aliases) : ctx.Grows ctx' := by
  intro key hkey
  rwa [h]

theorem enter (ctx : Context) (counts : Names.Counts) (key : String) (names : Aliases) :
    ctx.Grows (ctx.enter counts key names) := by
  intro other hother
  by_cases hkey : key = other
  · subst hkey
    exact ctx.has_enter_self counts key names
  · rw [Table.has_eq_isSome] at hother ⊢
    rwa [Context.get?_enter_of_ne hkey]

end Context.Grows

/-- The references of the document, each with and without the discriminator of its schema. -/
def Env.references (env : Env) : List (String × Bool) :=
  env.snapshot.root.texts.flatMap fun path ↦ [(path, false), (path, true)]

/-- How many references of the document have a key without names. -/
def Env.pending (env : Env) (ctx : Context) : Nat :=
  env.references.countP fun r ↦ !Table.has ctx.aliases (env.aliasKey r.1 r.2)

/-- How many references without names can be met from a reference downwards. One that does not stand
in the document is met once at most. -/
def Env.measure (env : Env) (path : String) (ctx : Context) : Nat :=
  if path ∈ env.snapshot.root.texts then env.pending ctx else env.pending ctx + 1

namespace Env

variable {env : Env} {ctx ctx' : Context} {path : String}

theorem mem_references (plain : Bool) (h : path ∈ env.snapshot.root.texts) :
    (path, plain) ∈ env.references :=
  List.mem_flatMap.2 ⟨path, h, by cases plain <;> simp⟩

theorem length_references (env : Env) : env.references.length ≤ 2 * env.snapshot.size := by
  have htexts := env.snapshot.root.length_texts_le
  rw [env.snapshot.size_eq, references, List.length_flatMap]
  simp only [List.length_cons, List.length_nil, List.map_const', List.sum_replicate_nat]
  omega

theorem pending_le_size (env : Env) (ctx : Context) : env.pending ctx ≤ 2 * env.snapshot.size :=
  Nat.le_trans List.countP_le_length env.length_references

theorem pending_le_of_grows (env : Env) (h : ctx.Grows ctx') :
    env.pending ctx' ≤ env.pending ctx := by
  refine List.countP_mono_left fun r _ hr ↦ ?_
  simp only [Bool.not_eq_true', Bool.eq_false_iff] at hr ⊢
  exact fun hhas ↦ hr (h _ hhas)

/-- Entering the key of a reference of the document leaves fewer without names. -/
theorem pending_enter_lt {plain : Bool} (hpath : path ∈ env.snapshot.root.texts)
    (hkey : Table.get? (env.aliasKey path plain) ctx.aliases = none) (counts : Names.Counts)
    (names : Aliases) :
    env.pending (ctx.enter counts (env.aliasKey path plain) names) < env.pending ctx := by
  have hgrows := Context.Grows.enter ctx counts (env.aliasKey path plain) names
  have hold : Table.has ctx.aliases (env.aliasKey path plain) = false := by
    rw [Table.has_eq_isSome, hkey]
    rfl
  have hnew := ctx.has_enter_self counts (env.aliasKey path plain) names
  refine countP_lt_of_mem (mem_references plain hpath) (fun r hr ↦ ?_) ?_ ?_
  · simp only [Bool.not_eq_true', Bool.eq_false_iff] at hr ⊢
    exact fun hhas ↦ hr (hgrows _ hhas)
  · simp [hnew]
  · simp [hold]

theorem measure_le (env : Env) (path : String) (ctx : Context) :
    env.measure path ctx ≤ 2 * env.snapshot.size + 1 := by
  have := env.pending_le_size ctx
  unfold measure
  split <;> omega

/-- Below a reference that enters its key, fewer references without names can be met. -/
theorem measure_enter_lt {plain : Bool} {other : String}
    (hother : other ∈ env.snapshot.root.texts)
    (hkey : Table.get? (env.aliasKey path plain) ctx.aliases = none) {counts : Names.Counts}
    {names : Aliases} (hgrows : (ctx.enter counts (env.aliasKey path plain) names).Grows ctx') :
    env.measure other ctx' < env.measure path ctx := by
  have hle := pending_le_of_grows env hgrows
  have henter := pending_le_of_grows env
    (Context.Grows.enter ctx counts (env.aliasKey path plain) names)
  unfold measure
  rw [if_pos hother]
  split
  next hpath =>
    have := pending_enter_lt hpath hkey counts names
    omega
  next => omega

/-- Only references with a small measure are met, and no key is lost. -/
def bounded (env : Env) (bound : Nat) : Contract where
  pre := fun _ path _ _ ctx ↦ env.measure path ctx < bound
  post := fun _ _ _ _ ctx _ ctx' _ ↦ ctx.Grows ctx'

/-- The plan of a node stays within a bound if the references in the node do. -/
theorem nodeType_ensures_bounded {bound : Nat} {around : Around} {node : RefOr Schema}
    {name : Option String} {mode : Mode} {start : Context}
    (hmeasure : ∀ path, node.Mentions path → ∀ ctx, start.Grows ctx → env.measure path ctx < bound)
    (hstart : start.Grows ctx) :
    (nodeType env node name mode).Ensures env (env.bounded bound) around ctx
      fun _ ctx' _ ↦ start.Grows ctx' := by
  refine Ensures.of_within (I := fun ctx _ ↦ start.Grows ctx) ?_ ?_
    (nodeType_within (M := fun path _ _ ↦ node.Mentions path) (admits_still env) node name
      fun _ h _ ↦ h) [] hstart
  · exact fun σ b hb ctx x ctx₁ _ hout h ↦ h.trans (.of_eq (hb.aliases hout))
  · exact fun path mode plain hpath ctx _ h ↦
      ⟨hmeasure path hpath ctx h, fun t ctx₁ log₁ ht ↦ h.trans ht⟩

theorem variantPlan_ensures_bounded {bound : Nat} {around : Around} {key name : String} {s : Schema}
    {mode : Mode} {differs : Bool} {start : Context}
    (hmeasure : ∀ path, RefOr.Mentions (.inline s) path → ∀ ctx, start.Grows ctx →
      env.measure path ctx < bound)
    (hkey : Table.has start.aliases key) (hstart : start.Grows ctx) :
    (variantPlan env key s name mode differs).Ensures env (env.bounded bound) around ctx
      fun _ ctx' _ ↦ start.Grows ctx' := by
  obtain ⟨names, hnames⟩ := Option.isSome_iff_exists.1
    ((Table.has_eq_isSome _ _).symm.trans (hstart key hkey))
  refine .of_variantPlan hnames (fun _ ↦ hstart) fun _ variant counts _ ↦ ?_
  exact nodeType_ensures_bounded hmeasure (hstart.trans (.enter _ _ _ _))

theorem declareModes_ensures_bounded {bound : Nat} {around : Around} {key name base : String}
    {s : Schema} {start : Context}
    (hmeasure : ∀ path, RefOr.Mentions (.inline s) path → ∀ ctx, start.Grows ctx →
      env.measure path ctx < bound)
    (hkey : Table.has start.aliases key) :
    (declareModes env key s name base).Ensures env (env.bounded bound) around start
      fun _ ctx' _ ↦ start.Grows ctx' := by
  refine .of_declareModes ((nodeType_ensures_bounded hmeasure (.refl start)).mono ?_)
  intro t ctx₁ _ hbase flags ctx₂ hmarks
  have haliases := (Build.aliases_of_closureMarks hmarks).trans (ctx₁.declare_aliases base t)
  have hflags : start.Grows ctx₂ := hbase.trans (.of_eq haliases)
  refine (variantPlan_ensures_bounded hmeasure hkey hflags).mono ?_
  exact fun _ ctx₃ _ hread ↦ variantPlan_ensures_bounded hmeasure hkey hread

theorem referencePlan_ensures_bounded {bound : Nat} {around : Around} {mode : Mode} {plain : Bool}
    (hbound : env.measure path ctx ≤ bound) :
    (referencePlan env path mode plain).Ensures env (env.bounded bound) around ctx
      fun _ ctx' _ ↦ ctx.Grows ctx' := by
  refine .of_referencePlan (fun _ _ ↦ .refl ctx) ?_ ?_
  · intro _ s name t ctx₁ _ _ hout
    exact .of_eq ((Build.still_declareEnum s name).aliases hout)
  · intro hnew s name base counts hs _ _ _
    refine (declareModes_ensures_bounded (fun other hother ctx' hgrows ↦ ?_) ?_).mono
      fun _ ctx' _ hgrows ↦ (Context.Grows.enter _ _ _ _).trans hgrows
    · exact Nat.lt_of_lt_of_le
        (measure_enter_lt (mem_texts_of_mentions hs hother) hnew hgrows) hbound
    · exact Context.has_enter_self _ _ _ _

theorem bounded_kept (bound : Nat) : (env.bounded bound).Kept env :=
  fun _ _ _ _ _ hpre ↦ referencePlan_ensures_bounded (Nat.le_of_lt hpre)

theorem schemaPlan_ensures_bounded (around : Around) (node : Option (RefOr Schema))
    (name : Option String) (mode : Mode) (ctx : Context) :
    (schemaPlan env node name mode).Ensures env (env.bounded env.hops) around ctx
      fun _ ctx' _ ↦ ctx.Grows ctx' := by
  cases node with
  | none => exact .refl ctx
  | some node =>
    refine nodeType_ensures_bounded (fun path _ ctx' _ ↦ ?_) (.refl ctx)
    have := env.measure_le path ctx'
    unfold hops
    omega

/-- Within a bound that is no larger than the hops that are left, answers are runs. -/
theorem runs_referenceType {hops : Nat} (w : List (String × Mode)) (path : String) (mode : Mode)
    (plain : Bool) (ctx : Context) (hmeasure : env.measure path ctx < hops) :
    ∃ log, Runs env (fun m ↦ (env.aliasKey path plain, m) :: w) (referencePlan env path mode plain)
        ctx ((ApiClient.referenceType env hops path mode plain).outcome ctx).1
        ((ApiClient.referenceType env hops path mode plain).outcome ctx).2 log ∧
      ∀ t, ((ApiClient.referenceType env hops path mode plain).outcome ctx).1 = .ok t →
        (env.bounded hops).post w path mode plain ctx t
          ((ApiClient.referenceType env hops path mode plain).outcome ctx).2 log := by
  induction hops generalizing w path mode plain ctx with
  | zero => omega
  | succ hops ih =>
    refine Runs.of_answers (env.bounded hops) (fun w path mode plain ctx h ↦ ?_)
      (referencePlan_ensures_bounded (Nat.le_of_lt_succ hmeasure))
    exact ih w path mode plain ctx h

end Env

/-- The result of a plan and the context after it, if carrying it out ends. -/
def Ends (env : Env) {α : Type} (x : Plan α) (ctx : Context) (out : Except CompileError α)
    (ctx' : Context) : Prop :=
  ∃ log, Runs env (fun _ ↦ []) x ctx out ctx' log

theorem Ends.unique {env : Env} {α : Type} {x : Plan α} {ctx ctx₁ ctx₂ : Context}
    {out₁ out₂ : Except CompileError α} (h₁ : Ends env x ctx out₁ ctx₁)
    (h₂ : Ends env x ctx out₂ ctx₂) : (out₁, ctx₁) = (out₂, ctx₂) := by
  obtain ⟨_, h₁⟩ := h₁
  obtain ⟨_, h₂⟩ := h₂
  obtain ⟨rfl, rfl, -⟩ := h₁.unique h₂
  rfl

namespace Env

theorem ends_schemaPlan (env : Env) (node : Option (RefOr Schema)) (name : Option String)
    (mode : Mode) (ctx : Context) : Ends env (schemaPlan env node name mode) ctx
      ((env.schemaType node name mode).outcome ctx).1
      ((env.schemaType node name mode).outcome ctx).2 := by
  obtain ⟨log, hrun, -⟩ := Runs.of_answers (env.bounded env.hops)
    (fun w path mode plain ctx h ↦ runs_referenceType w path mode plain ctx h)
    (schemaPlan_ensures_bounded (fun _ ↦ []) node name mode ctx)
  exact ⟨log, hrun⟩

theorem ends_follow (env : Env) (path : String) (mode : Mode) (plain : Bool) (ctx : Context) :
    Ends env (.follow path mode plain) ctx ((env.referenceType path mode plain).outcome ctx).1
      ((env.referenceType path mode plain).outcome ctx).2 := by
  have hmeasure : env.measure path ctx < env.hops := by
    have := env.measure_le path ctx
    unfold hops
    omega
  obtain ⟨log, hrun, -⟩ := runs_referenceType [] path mode plain ctx hmeasure
  unfold referenceType
  rcases hout : (ApiClient.referenceType env env.hops path mode plain).outcome ctx with
    ⟨e | t, ctx₁⟩ <;> rw [hout] at hrun
  · exact ⟨_, .stuck hrun⟩
  · exact ⟨_, .meet hrun (.done t)⟩

theorem measure_lt_of_comes {env : Env} {around : Around} {path other : String} {mode mode' : Mode}
    {plain plain' : Bool} {ctx ctx' : Context}
    (h : Comes env around (referencePlan env path mode plain) ctx other mode' plain' ctx') :
    env.measure other ctx' < env.measure path ctx :=
  Runs.pre_of_comes (bounded_kept (env.measure path ctx)) h
    (referencePlan_ensures_bounded (Nat.le_refl _))

/-- Every compilation of a node or of a reference ends, in any context and for any document, with
the type or the error that the bounded evaluation has. The recursion from reference to reference
goes down in the number of references whose keys have no names; from one reference to the next it
goes down the parts of a schema. The scans for marks that a compilation makes on the way end too,
and come to what their bounded evaluation comes to. -/
theorem compilation_ends (env : Env) :
    (∀ node name mode ctx out ctx', Ends env (schemaPlan env node name mode) ctx out ctx' ↔
      (env.schemaType node name mode).outcome ctx = (out, ctx')) ∧
    (∀ path mode plain ctx out ctx', Ends env (.follow path mode plain) ctx out ctx' ↔
      (env.referenceType path mode plain).outcome ctx = (out, ctx')) ∧
    (∀ around path mode plain ctx other mode' plain' ctx',
      Comes env around (referencePlan env path mode plain) ctx other mode' plain' ctx' →
      env.measure other ctx' < env.measure path ctx) ∧
    (env.options.singleMode = false → ∀ node ctx out ctx',
      (∃ walk, Scans env.snapshot (.node node) { known := ctx.flags } out walk ∧
        ctx' = { ctx with flags := walk.known }) ↔
      (env.nodeMarks node).outcome ctx = (out, ctx')) := by
  refine ⟨fun node name mode ctx out ctx' ↦ ⟨fun h ↦ ?_, fun h ↦ ?_⟩,
    fun path mode plain ctx out ctx' ↦ ⟨fun h ↦ ?_, fun h ↦ ?_⟩,
    fun _ _ _ _ _ _ _ _ _ h ↦ measure_lt_of_comes h,
    fun hmodes node ctx out ctx' ↦ (scans_iff hmodes node ctx out ctx').symm⟩
  · exact (ends_schemaPlan env node name mode ctx).unique h
  · simpa [h] using ends_schemaPlan env node name mode ctx
  · exact (ends_follow env path mode plain ctx).unique h
  · simpa [h] using ends_follow env path mode plain ctx

end Env

end ApiClient
