import ApiClient.Proofs.Compile.Calls
import ApiClient.Proofs.Compile.Chains
import ApiClient.Proofs.Document.FreeReferences

/-!
# References that point nowhere

A reference into the document at which nothing stands has no type. The keys under which schemas are
entered without their discriminators are such references, and the table of names is asked first. So
a reference that happens to be the key of an entered schema is taken for that schema.
-/

namespace ApiClient

open TypeScript

section

variable {env : Env} {ctx : Context} {r : String}

theorem resolve_of_dangling (hpointer : ['#', '/'] <+: r.toList)
    (hdangling : ¬env.snapshot.contains r) :
    env.snapshot.resolve Schema.ofNode r = .error (.notFound r) := by
  obtain ⟨path, hpath⟩ := hpointer
  obtain ⟨names, hnames⟩ : ∃ names, Pointer.segments r = .ok names := by
    unfold Pointer.segments
    rw [← hpath]
    exact ⟨_, rfl⟩
  have hnone : env.snapshot.root.at? names = none := by
    cases hv : env.snapshot.root.at? names with
    | none => rfl
    | some v => exact absurd (Snapshot.contains_iff.2 ⟨names, v, hnames, hv⟩) hdangling
  simp [Snapshot.resolve, Snapshot.lookup, hnames, hnone, bind, Except.bind, throw, throwThe,
    MonadExceptOf.throw]

theorem outcome_of_dangling (hpointer : ['#', '/'] <+: r.toList)
    (hdangling : ¬env.snapshot.contains r) (hnew : Table.get? r ctx.aliases = none) (mode : Mode) :
    (env.referenceType r mode).outcome ctx = (.error (.reference (.notFound r)), ctx) := by
  have htarget : env.target r false = .error (.notFound r) := by
    rw [Env.target, resolve_of_dangling hpointer hdangling]
    rfl
  have hrun : Runs env (fun m ↦ [(r, m)]) (referencePlan env r mode false) ctx
      (.error (.reference (.notFound r))) ctx [] := by
    refine Runs.act_bind rfl ?_
    simp only [show env.aliasKey r false = r from rfl, hnew]
    have hfails : (Build.ofResolve (env.target r false)).outcome ctx =
        (.error (.reference (.notFound r)), ctx) := by
      rw [Build.outcome_ofResolve, htarget]
      rfl
    exact .fail hfails
  exact (env.ends_follow r mode false ctx).unique ⟨_, .stuck hrun⟩

theorem outcome_of_entered {names : Aliases} (hnames : Table.get? r ctx.aliases = some names)
    (mode : Mode) :
    (env.referenceType r mode).outcome ctx = (.ok (.named (names.get mode)), ctx) := by
  have hrun : Runs env (fun m ↦ [(r, m)]) (referencePlan env r mode false) ctx
      (.ok (.named (names.get mode))) ctx [] := .found hnames
  exact (env.ends_follow r mode false ctx).unique ⟨_, .meet hrun (.done _)⟩

/-- A key at which nothing stands in the document is that of a schema without its discriminator. -/
theorem record_of_dangling {ledger : List Record} (hledger : Recorded env [] ctx ledger)
    (hdangling : ¬env.snapshot.contains r) {mode : Mode} {name : String}
    (hname : ctx.name? r mode = some name) :
    ∃ record ∈ ledger, ∃ path, record.entry = (r, mode) ∧ record.name = name ∧
      r = env.aliasKey path true ∧ env.target path true = .ok record.schema := by
  obtain ⟨record, hrecord, hentry, hown⟩ := hledger.record_of_name hname
  obtain ⟨path, plain, hkey, htarget⟩ := (hledger.stands record hrecord).target
  have hr : r = env.aliasKey path plain := (congrArg Prod.fst hentry).symm.trans hkey
  cases plain with
  | true => exact ⟨record, hrecord, path, hentry, hown, hr, htarget⟩
  | false =>
    cases hr
    exact absurd (Env.contains_of_target htarget) hdangling

theorem plain_of_dangling {ledger : List Record} (hledger : Recorded env [] ctx ledger)
    (hdangling : ¬env.snapshot.contains r) {names : Aliases}
    (hnames : Table.get? r ctx.aliases = some names) :
    ∃ path s, r = env.snapshot.freeReference (path ++ "Base") ∧ env.target path true = .ok s := by
  have hname : ctx.name? r .base = some names.base := Context.name?_of_get? hnames .base
  obtain ⟨record, -, path, -, -, hr, htarget⟩ := record_of_dangling hledger hdangling hname
  exact ⟨path, record.schema, hr, htarget⟩

end

/-- Whatever was compiled before, a reference that points nowhere fails exactly if it has no entry.
It has an entry only if it is the key of a schema that was entered without its discriminator, and
then it gets the name of that schema. -/
theorem dangling_fails_iff {env : Env} {ctx : Context} (h : Calls env {} ctx) {r : String}
    (hpointer : ['#', '/'] <+: r.toList) (hdangling : ¬env.snapshot.contains r)
    (name : Option String) (mode : Mode) :
    (env.schemaType (some (.ref r)) name mode).outcome ctx =
        (env.referenceType r mode).outcome ctx ∧
    ((env.referenceType r mode).outcome ctx = (.error (.reference (.notFound r)), ctx) ↔
      Table.get? r ctx.aliases = none) ∧
    ∀ names, Table.get? r ctx.aliases = some names →
      (env.referenceType r mode).outcome ctx = (.ok (.named (names.get mode)), ctx) ∧
      ∃ path s, r = env.snapshot.freeReference (path ++ "Base") ∧ env.target path true = .ok s := by
  obtain ⟨ledger, hledger⟩ := h.recorded
  refine ⟨env.outcome_schemaType_ref r name mode ctx, ⟨fun hfails ↦ ?_, fun hnew ↦ ?_⟩, ?_⟩
  · cases hnames : Table.get? r ctx.aliases with
    | none => rfl
    | some names =>
      rw [outcome_of_entered hnames] at hfails
      cases hfails
  · exact outcome_of_dangling hpointer hdangling hnew mode
  · exact fun names hnames ↦
      ⟨outcome_of_entered hnames mode, plain_of_dangling hledger hdangling hnames⟩

theorem target_of_blank {env : Env} {path : String}
    (h : env.snapshot.lookup path = .ok (.obj [])) : env.target path true = .ok {} := by
  have hs : env.snapshot.resolve Schema.ofNode path = .ok {} := by
    rw [resolve_of_lookup _ h, decode, Schema.ofNode]
    rfl
  exact Env.target_eq_ok.2 ⟨{}, hs, rfl⟩

namespace Lone

/-- A document with one schema, about which nothing is said. -/
def env : Env where
  snapshot := { root := .obj [("components", .obj [("schemas", .obj [("A", .obj [])])])] }
  discriminating := []
  options := {}

theorem target : env.target "#/components/schemas/A" true = .ok {} :=
  target_of_blank rfl

theorem key : env.aliasKey "#/components/schemas/A" true = "#/components/schemas/ABase" := by
  decide +kernel

end Lone

/-- After a schema was entered without its discriminator, a reference that points nowhere has a
type. -/
theorem dangling_reference_with_type : ∃ (env : Env) (ctx : Context) (r : String),
    Calls env {} ctx ∧ ['#', '/'] <+: r.toList ∧ ¬env.snapshot.contains r ∧
      ∃ name, (env.referenceType r .base).outcome ctx = (.ok (.named name), ctx) := by
  have hnew : Table.get? (Lone.env.aliasKey "#/components/schemas/A" true)
      ({} : Context).aliases = none := rfl
  obtain ⟨base, counts, hout⟩ := outcome_of_blank Lone.target .base hnew
  rw [Lone.key] at hout
  have hcalls : Calls Lone.env {} _ := .single (.reference hout)
  have hpointer : ['#', '/'] <+: "#/components/schemas/ABase".toList := by
    decide +kernel
  have hdangling : ¬Lone.env.snapshot.contains "#/components/schemas/ABase" := by
    decide +kernel
  obtain ⟨-, -, hentered⟩ := dangling_fails_iff hcalls hpointer hdangling none .base
  exact ⟨Lone.env, _, _, hcalls, hpointer, hdangling, _, (hentered _ rfl).1⟩

end ApiClient
