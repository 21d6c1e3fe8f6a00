import ApiClient.Proofs.Compile.Sessions
import ApiClient.Proofs.Document.Lookup

/-!
# The names of references

Which name a reference gets in a body, compared with the names that its key has in the end. A key
has its first name while it is being declared in the base mode, and the others come later. A
reference that comes back to the key in between, in a mode whose name is still to come, gets the
first name and keeps it. Every other reference gets the name of its mode.
-/

namespace ApiClient

open TypeScript
open Plan (Ensures)

namespace Meeting

/-- Whether a reference came back to a key that was being declared in an earlier mode. -/
def early (meeting : Meeting) : Bool :=
  meeting.within.any fun (key, mode) ↦ key == meeting.key && mode.rank < meeting.mode.rank

theorem early_iff {meeting : Meeting} :
    meeting.early ↔
      ∃ mode, (meeting.key, mode) ∈ meeting.within ∧ mode.rank < meeting.mode.rank := by
  simp only [early, List.any_eq_true, Bool.and_eq_true, beq_iff_eq, decide_eq_true_eq, Prod.exists]
  constructor
  · rintro ⟨key, mode, hmem, rfl, hlt⟩
    exact ⟨mode, hmem, hlt⟩
  · rintro ⟨mode, hmem, hlt⟩
    exact ⟨_, mode, hmem, rfl, hlt⟩

/-- The answer is one of the names that the key has in a context: the first one if the reference
came early, and that of the mode otherwise. -/
def Settled (meeting : Meeting) (ctx : Context) : Prop :=
  ∃ names, Table.get? meeting.key ctx.aliases = some names ∧
    meeting.answer = .named (if meeting.early then names.base else names.get meeting.mode)

theorem Settled.later {meeting : Meeting} {fixed : String → Mode → Prop} {ctx ctx' : Context}
    (h : meeting.Settled ctx) (hlater : ctx.Later fixed ctx') (hbase : fixed meeting.key .base)
    (hmode : ¬meeting.early → fixed meeting.key meeting.mode) : meeting.Settled ctx' := by
  obtain ⟨names, hnames, hanswer⟩ := h
  obtain ⟨names', hnames', hown⟩ := hlater _ _ hnames
  refine ⟨names', hnames', hanswer.trans ?_⟩
  split
  next => rw [Aliases.base_eq_of_own (hown _ hbase)]
  next hearly => rw [Aliases.get_eq_of_own (hown _ hbase) (hown _ (hmode hearly))]

theorem Settled.steady {meeting : Meeting} {ctx ctx' : Context} (h : meeting.Settled ctx)
    (hsteady : ctx.Steady ctx') : meeting.Settled ctx' :=
  h.later hsteady trivial fun _ ↦ trivial

end Meeting

/-- The keys that are being declared have no names yet for the modes that come later. -/
def Making (w : List (String × Mode)) (ctx : Context) : Prop :=
  ∀ entry ∈ w, ∃ names, Table.get? entry.1 ctx.aliases = some names ∧
    ∀ mode, entry.2.rank < mode.rank → names.own mode = none

theorem Making.steady {w : List (String × Mode)} {ctx ctx' : Context} (h : Making w ctx)
    (hsteady : ctx.Steady ctx') : Making w ctx' := by
  intro entry he
  obtain ⟨names, hnames, hnone⟩ := h entry he
  obtain ⟨names', hnames', hown⟩ := hsteady _ _ hnames
  exact ⟨names', hnames', fun mode hmode ↦ (hown mode trivial).trans (hnone mode hmode)⟩

theorem Making.cons {w : List (String × Mode)} {ctx : Context} {key : String} {mode : Mode}
    {names : Aliases} (h : Making w ctx) (hnames : Table.get? key ctx.aliases = some names)
    (hnone : ∀ other : Mode, mode.rank < other.rank → names.own other = none) :
    Making ((key, mode) :: w) ctx := by
  intro entry he
  rcases List.mem_cons.1 he with rfl | he
  · exact ⟨names, hnames, hnone⟩
  · exact h entry he

theorem Making.enter {w : List (String × Mode)} {ctx : Context} {key : String} {mode : Mode}
    {names : Aliases} (h : Making w ctx) (hkey : ∀ entry ∈ w, entry.1 ≠ key)
    (hnone : ∀ other : Mode, mode.rank < other.rank → names.own other = none)
    (counts : Names.Counts) : Making ((key, mode) :: w) (ctx.enter counts key names) := by
  refine .cons (fun entry he ↦ ?_) (ctx.get?_enter_self counts key names) hnone
  obtain ⟨old, hold, hnone⟩ := h entry he
  exact ⟨old, (Context.get?_enter_of_ne (hkey entry he).symm ..).trans hold, hnone⟩

/-- The references of a log were met while the declarations `w` were in the making, and they have
the right names. -/
def AllSettled (w : List (String × Mode)) (log : List Meeting) (ctx : Context) : Prop :=
  ∀ meeting ∈ log, w ⊆ meeting.within ∧ meeting.Settled ctx

namespace AllSettled

variable {w : List (String × Mode)} {log log' : List Meeting} {ctx ctx' : Context}

theorem nil : AllSettled w [] ctx := by
  intro meeting h
  simp at h

theorem append (h : AllSettled w log ctx) (h' : AllSettled w log' ctx) :
    AllSettled w (log ++ log') ctx := by
  intro meeting hmeeting
  exact (List.mem_append.1 hmeeting).elim (h meeting) (h' meeting)

theorem steady (h : AllSettled w log ctx) (hsteady : ctx.Steady ctx') : AllSettled w log ctx' :=
  fun meeting hmeeting ↦ (h meeting hmeeting).imp id fun hs ↦ hs.steady hsteady

/-- New names of a key leave right what was met while the key was being declared in an earlier mode.
-/
theorem later {key : String} {mode mode' : Mode} (h : AllSettled ((key, mode) :: w) log ctx)
    (hrank : mode.rank < mode'.rank)
    (hlater : ctx.Later (fun k m ↦ k = key → m.rank < mode'.rank) ctx') :
    AllSettled ((key, mode) :: w) log ctx' := by
  intro meeting hmeeting
  obtain ⟨hsub, hs⟩ := h meeting hmeeting
  refine ⟨hsub, hs.later hlater (fun _ ↦ ?_) fun hearly hkey ↦ ?_⟩
  · exact Nat.lt_of_le_of_lt (Nat.zero_le _) hrank
  · have hnot : ¬mode.rank < meeting.mode.rank := fun hlt ↦
      hearly (Meeting.early_iff.2 ⟨mode, hkey ▸ hsub List.mem_cons_self, hlt⟩)
    omega

theorem tail {entry : String × Mode} (h : AllSettled (entry :: w) log ctx) :
    AllSettled w log ctx :=
  fun meeting hmeeting ↦
    (h meeting hmeeting).imp (fun hsub ↦ List.Subset.trans (List.subset_cons_self _ _) hsub) id

end AllSettled

/-- A reference that is met while other keys are being declared leaves their names alone, and all
that is met on the way gets the right names. -/
def Env.naming (env : Env) : Contract where
  pre := fun w _ _ _ ctx ↦ Making w ctx
  post := fun w path mode plain ctx t ctx' log ↦ ctx.Steady ctx' ∧
    AllSettled w (log ++ logged ctx' w (env.aliasKey path plain) mode t) ctx'

namespace Env

variable {env : Env} {ctx : Context} {w : List (String × Mode)} {key : String}
  {s : Schema} {mode : Mode}

/-- A node names its references rightly and leaves all names alone. -/
theorem nodeType_ensures_naming (node : RefOr Schema) (name : Option String) (around : Around)
    (hmaking : Making (around mode) ctx) :
    (nodeType env node name mode).Ensures env env.naming around ctx
      fun _ ctx' log ↦ ctx.Steady ctx' ∧ AllSettled (around mode) log ctx' := by
  refine Ensures.of_within
    (I := fun ctx' log ↦ ctx.Steady ctx' ∧ AllSettled (around mode) log ctx') ?_ ?_
    (nodeType_within (M := fun _ m _ ↦ m = mode) (admits_still env) node name fun _ _ _ ↦ rfl)
    [] ⟨.refl ctx, .nil⟩
  · rintro σ b hb ctx₁ x ctx₂ log hout ⟨hsteady, hsettled⟩
    have haliases := hb.aliases hout
    exact ⟨hsteady.trans (.of_eq haliases), hsettled.steady (.of_eq haliases)⟩
  · rintro path m plain rfl ctx₁ log ⟨hsteady, hsettled⟩
    refine ⟨hmaking.steady hsteady, ?_⟩
    rintro t ctx₂ log' ⟨hsteady', hsettled'⟩
    exact ⟨hsteady.trans hsteady', (hsettled.steady hsteady').append hsettled'⟩

/-- One more declaration of a key changes only the name of its mode. -/
theorem variantPlan_ensures_naming (before : Mode) {differs : Bool} {name : String}
    (hrank : mode.rank = before.rank + 1) (hmaking : Making ((key, before) :: w) ctx)
    (hkey : ∀ entry ∈ w, entry.1 ≠ key) :
    (variantPlan env key s name mode differs).Ensures env env.naming (fun m ↦ (key, m) :: w) ctx
      fun _ ctx' log ↦ ctx.Later (fun k m ↦ k = key → m.rank < mode.rank) ctx' ∧
        Making ((key, mode) :: w) ctx' ∧ AllSettled ((key, mode) :: w) log ctx' := by
  obtain ⟨names, hnames, hnone⟩ := hmaking _ List.mem_cons_self
  have hnone : ∀ other : Mode, mode.rank ≤ other.rank → names.own other = none :=
    fun other hother ↦ hnone other (Nat.lt_of_lt_of_le (hrank ▸ Nat.lt_succ_self _) hother)
  have hw : Making w ctx := fun entry he ↦ hmaking entry (List.mem_cons_of_mem _ he)
  have hmode : mode ≠ .base := by
    rintro rfl
    simp [Mode.rank] at hrank
  refine .of_variantPlan hnames (fun _ ↦ ⟨.refl ctx, ?_, .nil⟩) fun _ variant counts _ ↦ ?_
  · exact hw.cons hnames fun other hother ↦ hnone other (Nat.le_of_lt hother)
  · have hlater : ctx.Later (fun k m ↦ k = key → m.rank < mode.rank)
        (ctx.enter counts key (names.set mode variant)) := by
      refine .set hnames counts hmode variant fun other hother ↦ ?_
      rintro rfl
      exact Nat.lt_irrefl _ (hother rfl)
    have hentered : Making ((key, mode) :: w) (ctx.enter counts key (names.set mode variant)) := by
      refine hw.enter hkey (fun other hother ↦ ?_) counts
      rw [Aliases.own_set _ hmode, if_neg, hnone other (Nat.le_of_lt hother)]
      rintro rfl
      exact Nat.lt_irrefl _ hother
    refine (nodeType_ensures_naming (.inline s) none (fun m ↦ (key, m) :: w) hentered).mono ?_
    rintro t ctx₁ log ⟨hsteady, hsettled⟩
    exact ⟨hlater.trans (hsteady.mono fun _ _ _ ↦ trivial), hentered.steady hsteady, hsettled⟩

/-- Declaring a key in its modes settles what is met on the way and fixes the first name. -/
theorem declareModes_ensures_naming {name base : String} (hmaking : Making ((key, .base) :: w) ctx)
    (hkey : ∀ entry ∈ w, entry.1 ≠ key) :
    (declareModes env key s name base).Ensures env env.naming (fun m ↦ (key, m) :: w) ctx
      fun _ ctx' log ↦ ctx.Later (fun k m ↦ k = key → m.rank < 1) ctx' ∧ AllSettled w log ctx' := by
  refine .of_declareModes ((nodeType_ensures_naming (.inline s) none (fun m ↦ (key, m) :: w)
    hmaking).mono ?_)
  rintro t ctx₁ log₁ ⟨hbase, hlog₁⟩ flags ctx₂ hmarks
  have haliases := (Build.aliases_of_closureMarks hmarks).trans (ctx₁.declare_aliases base t)
  have hbase : ctx.Steady ctx₂ := hbase.trans (.of_eq haliases)
  refine (variantPlan_ensures_naming .base rfl (hmaking.steady hbase) hkey).mono ?_
  rintro - ctx₃ log₂ ⟨hread, hmaking₃, hlog₂⟩
  refine (variantPlan_ensures_naming .read rfl hmaking₃ hkey).mono ?_
  rintro - ctx₄ log₃ ⟨hwrite, -, hlog₃⟩
  have hafter : ctx₂.Later (fun k m ↦ k = key → m.rank < 1) ctx₄ :=
    hread.trans (hwrite.mono fun _ _ h hk ↦ Nat.lt_succ_of_lt (h hk))
  refine ⟨(hbase.mono fun _ _ _ ↦ trivial).trans hafter, ?_⟩
  have hlog₁ : AllSettled ((key, .base) :: w) log₁ ctx₄ :=
    (hlog₁.steady (.of_eq haliases)).later (show Mode.base.rank < Mode.read.rank by decide) hafter
  have hlog₂ : AllSettled ((key, .read) :: w) log₂ ctx₄ :=
    hlog₂.later (show Mode.read.rank < Mode.write.rank by decide) hwrite
  exact hlog₁.tail.append (hlog₂.tail.append hlog₃.tail)

theorem naming_kept (env : Env) : env.naming.Kept env := by
  intro w path mode plain ctx hmaking
  refine .of_referencePlan (fun names hnames ↦ ⟨.refl ctx, ?_⟩) ?_ ?_
  · intro meeting hmeeting
    obtain ⟨-, rfl⟩ := mem_logged.1 hmeeting
    refine ⟨List.Subset.refl w, names, hnames, ?_⟩
    split
    next hearly =>
      obtain ⟨m, hm, hlt⟩ := Meeting.early_iff.1 hearly
      obtain ⟨names', hnames', hnone⟩ := hmaking _ hm
      obtain rfl := Option.some.inj (hnames.symm.trans hnames')
      rw [Aliases.get_eq_base (hnone _ hlt)]
    next => rfl
  · intro hnew s name t ctx₁ _ _ hout
    have haliases := (Build.still_declareEnum s name).aliases hout
    refine ⟨.of_eq haliases, fun meeting hmeeting ↦ ?_⟩
    obtain ⟨hhas, -⟩ := mem_logged.1 hmeeting
    rw [haliases, Table.has_eq_isSome, hnew] at hhas
    cases hhas
  · intro hnew s name base counts _ _ _ _
    have hkey : ∀ entry ∈ w, entry.1 ≠ env.aliasKey path plain := by
      rintro entry he hentry
      obtain ⟨names, hnames, -⟩ := hmaking entry he
      rw [hentry, hnew] at hnames
      cases hnames
    have hentered : Making ((env.aliasKey path plain, .base) :: w)
        (ctx.enter counts (env.aliasKey path plain) { base := base }) := by
      refine hmaking.enter hkey (fun m hm ↦ ?_) counts
      cases m with
      | base => exact absurd hm (Nat.lt_irrefl 0)
      | read | write => rfl
    refine (declareModes_ensures_naming hentered hkey).mono ?_
    rintro - ctx₁ log ⟨hlater, hlog⟩
    have hsteady : ctx.Steady ctx₁ := ((Context.Later.enter hnew counts _).trans hlater).of_new hnew
      fun _ _ hother h ↦ absurd h hother
    refine ⟨hsteady, hlog.append fun meeting hmeeting ↦ ?_⟩
    obtain ⟨hhas, rfl⟩ := mem_logged.1 hmeeting
    obtain ⟨names, hnames⟩ := Option.isSome_iff_exists.1
      ((Table.has_eq_isSome _ _).symm.trans hhas)
    refine ⟨List.Subset.refl w, names, hnames, ?_⟩
    rw [hnames, if_neg]
    · rfl
    · intro hearly
      obtain ⟨m, hm, -⟩ := Meeting.early_iff.1 hearly
      exact hkey _ hm rfl

end Env

/-- In a session every reference has got a name that its key has in the end: the first one if the
reference came back to the key while it was being declared in an earlier mode, and that of its mode
otherwise. So the name is that of the mode in the end exactly if the reference did not come early or
its mode has no other name. -/
theorem name_of_meeting {env : Env} {ctx : Context} {log : List Meeting} (h : Session env ctx log)
    {meeting : Meeting} (hmeeting : meeting ∈ log) :
    ∃ names, Table.get? meeting.key ctx.aliases = some names ∧
      meeting.answer = .named (if meeting.early then names.base else names.get meeting.mode) ∧
      (meeting.answer = .named (names.get meeting.mode) ↔
        (meeting.early → names.get meeting.mode = names.base)) := by
  have hsettled : AllSettled [] log ctx := by
    refine h.invariant (I := fun ctx log ↦ AllSettled [] log ctx)
      env.naming_kept .nil
      (fun ctx ctx' log haliases _ hlog ↦ hlog.steady (.of_eq haliases)) ?_
    intro path mode plain ctx log hlog
    refine ⟨fun _ h ↦ by simp at h, ?_⟩
    rintro t ctx' log' ⟨hsteady, hlog'⟩
    exact (hlog.steady hsteady).append hlog'
  obtain ⟨-, names, hnames, hanswer⟩ := hsettled meeting hmeeting
  refine ⟨names, hnames, hanswer, ?_⟩
  rw [hanswer, Ty.named.injEq]
  split
  next hearly => exact ⟨fun h _ ↦ h.symm, fun h ↦ (h hearly).symm⟩
  next hearly => exact ⟨fun _ h ↦ absurd h hearly, fun _ ↦ rfl⟩

namespace Ring

/-- A document in which two read-only schemas hold each other. -/
def env : Env where
  snapshot := { root := .obj [("components", .obj [("schemas", .obj [
    ("A", .obj [("readOnly", .bool true),
      ("prefixItems", .arr [.obj [("$ref", .str "#/components/schemas/B")]])]),
    ("B", .obj [("readOnly", .bool true),
      ("prefixItems", .arr [.obj [("$ref", .str "#/components/schemas/A")]])])])])] }
  discriminating := []
  options := {}

def holder (path : String) : Schema :=
  { readOnly := some true, prefixItems := some [.ref path] }

theorem target_A : env.target "#/components/schemas/A" false =
    .ok (holder "#/components/schemas/B") := by
  refine Env.target_of_lookup rfl ?_
  rw [decode, Schema.ofNode]
  rfl

theorem target_B : env.target "#/components/schemas/B" false =
    .ok (holder "#/components/schemas/A") := by
  refine Env.target_of_lookup rfl ?_
  rw [decode, Schema.ofNode]
  rfl

theorem name_A :
    toIdentifier (Pointer.displayName "#/components/schemas/A") true = "A" := by
  decide +kernel

theorem name_B :
    toIdentifier (Pointer.displayName "#/components/schemas/B") true = "B" := by
  decide +kernel

theorem readName_A :
    toIdentifier (Pointer.displayName "#/components/schemas/A") true .read = "ARead" := by
  decide +kernel

theorem readName_B :
    toIdentifier (Pointer.displayName "#/components/schemas/B") true .read = "BRead" := by
  decide +kernel

theorem runs_body (around : Around) {mode : Mode} {path : String} {ctx ctx₁ : Context} {t : Ty}
    {log : List Meeting} (h : Runs env (fun m ↦ (path, m) :: around mode)
      (referencePlan env path mode false) ctx (.ok t) ctx₁ log) :
    Runs env around (inlineType env (holder path) none mode) ctx (.ok (.tuple [t])) ctx₁
      (log ++ logged ctx₁ (around mode) path mode t) := by
  rw [inlineType, nodeType, plainType_prefixItems _ _ _ rfl rfl rfl rfl rfl,
    ← List.append_nil (log ++ logged ctx₁ _ _ _ _)]
  simp only [nodeTypes, nodeType]
  exact .meet h (.done _)

/-- A schema of the ring is declared twice, and the other one is met both times. -/
theorem runs_holder (around : Around) {mode : Mode} {path other base read : String}
    {names names' : Aliases} {ctx ctx₁ ctx₂ : Context} {counts counts₁ : Names.Counts} {t₁ t₂ : Ty}
    {log₁ log₂ : List Meeting} (htarget : env.target path false = .ok (holder other))
    (hnew : Table.get? path ctx.aliases = none)
    (hbase : toIdentifier (Pointer.displayName path) true = base)
    (hcounts : Names.allocate base ctx.typeNames = (base, counts))
    (h₁ : Runs env (fun m ↦ (other, m) :: (path, .base) :: around mode)
      (referencePlan env other .base false) (ctx.enter counts path { base := base }) (.ok t₁) ctx₁
      log₁)
    (hnames : Table.get? path ctx₁.aliases = some names)
    (hread : toIdentifier (Pointer.displayName path) true .read = read)
    (hcounts₁ : Names.allocate read ctx₁.typeNames = (read, counts₁))
    (h₂ : Runs env (fun m ↦ (other, m) :: (path, .read) :: around mode)
      (referencePlan env other .read false)
      ((ctx₁.declare base (.tuple [t₁])).enter counts₁ path (names.set .read read)) (.ok t₂) ctx₂
      log₂)
    (hnames' : Table.get? path ctx₂.aliases = some names') :
    Runs env (fun m ↦ (path, m) :: around mode) (referencePlan env path mode false) ctx
      (.ok (.named (names'.get mode))) (ctx₂.declare read (.tuple [t₂]))
      (log₁ ++ logged ctx₁ ((path, .base) :: around mode) other .base t₁ ++
        (log₂ ++ logged ctx₂ ((path, .read) :: around mode) other .read t₂)) := by
  subst hbase hread
  have hmodes := Runs.modes (runs_body (fun m ↦ (path, m) :: around mode) h₁)
    (Build.outcome_closureMarks rfl rfl _) (.other hnames hcounts₁ (runs_body _ h₂)) (.same _)
  rw [List.append_nil] at hmodes
  exact .declared hnew htarget rfl hcounts hmodes hnames'

/-- What `B` meets in the read mode while `A` is being declared in the base mode. -/
def comeback : Meeting where
  within := [("#/components/schemas/B", .read), ("#/components/schemas/A", .base)]
  key := "#/components/schemas/A"
  mode := .read
  answer := .named "A"

/-- `A` is declared in both modes, and on the way `B` is. -/
theorem runs (mode : Mode) (counts : Names.Counts) : ∃ t ctx log,
    Runs env (fun _ ↦ []) (.follow "#/components/schemas/A" mode) { functionNames := counts }
      (.ok t) ctx log ∧
    comeback ∈ log ∧
    Table.get? comeback.key ctx.aliases = some { base := "A", read := some "ARead" } := by
  refine ⟨_, _, _, .meet (runs_holder (fun _ ↦ []) target_A rfl name_A rfl
    (runs_holder (fun _ ↦ [("#/components/schemas/A", .base)]) target_B rfl name_B rfl
      (.found rfl) rfl readName_B rfl (.found rfl) rfl)
    rfl readName_A rfl (.found rfl) rfl) (.done _), ?_, rfl⟩
  simp only [List.mem_append, mem_logged]
  exact .inl (.inl (.inl (.inl (.inr (.inr ⟨rfl, rfl⟩)))))

theorem session : ∃ ctx log, Session env ctx log ∧ comeback ∈ log ∧
    Table.get? comeback.key ctx.aliases = some { base := "A", read := some "ARead" } := by
  obtain ⟨t, ctx, log, hrun, hmeeting, hentry⟩ := runs .base []
  exact ⟨ctx, log, .step .start (.reference "#/components/schemas/A" .base false) hrun, hmeeting,
    hentry⟩

end Ring

/-- A session in which a read variant names the first type of a schema that has a read variant. -/
theorem base_name_in_read_variant : ∃ ctx log meeting names, Session Ring.env ctx log ∧
    meeting ∈ log ∧ meeting.within.head? = some ("#/components/schemas/B", .read) ∧
    meeting.mode = .read ∧ Table.get? meeting.key ctx.aliases = some names ∧
    meeting.answer = .named names.base ∧ names.base ≠ names.get .read := by
  obtain ⟨ctx, log, hsession, hmeeting, hentry⟩ := Ring.session
  obtain ⟨names, hnames, hanswer, -⟩ := name_of_meeting hsession hmeeting
  refine ⟨ctx, log, Ring.comeback, names, hsession, hmeeting, rfl, rfl, hnames, hanswer, ?_⟩
  obtain rfl := Option.some.inj (hentry.symm.trans hnames)
  decide

end ApiClient
