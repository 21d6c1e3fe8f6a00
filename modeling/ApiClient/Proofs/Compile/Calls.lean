import ApiClient.Proofs.Compile.Ledger
import ApiClient.Proofs.Compile.Marking
import ApiClient.Proofs.Compile.Termination
import Mathlib.Logic.Relation

/-!
# Calls of the compiler

The functions of a client module are made by calls that compile schemas and references, scan for
marks and reserve names, in any order. Whatever succeeds leaves all names as they are and keeps the
ledger of declarations and the results of scans right.
-/

namespace ApiClient

open TypeScript
open Plan (Ensures)

/-- A call that succeeds, with the contexts before and after it. -/
inductive Call (env : Env) : Context → Context → Prop where
  | schema {ctx ctx' : Context} {node : Option (RefOr Schema)} {name : Option String} {mode : Mode}
      {t : Ty} (h : (env.schemaType node name mode).outcome ctx = (.ok t, ctx')) : Call env ctx ctx'
  | reference {ctx ctx' : Context} {path : String} {mode : Mode} {plain : Bool} {t : Ty}
      (h : (env.referenceType path mode plain).outcome ctx = (.ok t, ctx')) : Call env ctx ctx'
  | marks {ctx ctx' : Context} {node : RefOr Schema} {flags : Flags}
      (h : (env.nodeMarks node).outcome ctx = (.ok flags, ctx')) : Call env ctx ctx'
  | reserve {ctx ctx' : Context} {wanted name : String}
      (h : (Build.reserve wanted).outcome ctx = (.ok name, ctx')) : Call env ctx ctx'

abbrev Calls (env : Env) : Context → Context → Prop :=
  Relation.ReflTransGen (Call env)

namespace Env

variable {env : Env} {ctx ctx' : Context}

/-- What holds of a plan under a contract that is kept holds of the type of a schema. -/
theorem outcome_schemaType {contract : Contract} (hcontract : contract.Kept env)
    {node : Option (RefOr Schema)} {name : Option String} {mode : Mode} {t : Ty}
    (h : (env.schemaType node name mode).outcome ctx = (.ok t, ctx')) {Q : Ty → Context → Prop}
    (hplan : (schemaPlan env node name mode).Ensures env contract (fun _ ↦ []) ctx
      fun t ctx' _ ↦ Q t ctx') : Q t ctx' := by
  have hends := env.ends_schemaPlan node name mode ctx
  rw [h] at hends
  obtain ⟨log, hrun⟩ := hends
  exact hrun.ensures hcontract rfl hplan

theorem outcome_referenceType {contract : Contract} (hcontract : contract.Kept env)
    {path : String} {mode : Mode} {plain : Bool} {t : Ty}
    (h : (env.referenceType path mode plain).outcome ctx = (.ok t, ctx'))
    (hpre : contract.pre [] path mode plain ctx) :
    ∃ log, contract.post [] path mode plain ctx t ctx' log := by
  have hends := env.ends_follow path mode plain ctx
  rw [h] at hends
  obtain ⟨log, hrun⟩ := hends
  exact hrun.ensures (Q := fun t ctx' _ ↦ ∃ log, contract.post [] path mode plain ctx t ctx' log)
    hcontract rfl ⟨hpre, fun t ctx' log hpost ↦ ⟨log, hpost⟩⟩

theorem outcome_schemaType_ref (env : Env) (path : String) (name : Option String) (mode : Mode)
    (ctx : Context) : (env.schemaType (some (.ref path)) name mode).outcome ctx =
      (env.referenceType path mode).outcome ctx := by
  have hplan : schemaPlan env (some (.ref path)) name mode = .follow path mode := by
    rw [schemaPlan, nodeType]
  have hends := env.ends_schemaPlan (some (.ref path)) name mode ctx
  rw [hplan] at hends
  exact hends.unique (env.ends_follow path mode false ctx)

theorem making_nil (ctx : Context) : Making [] ctx :=
  fun _ h ↦ by cases h

/-- The type of a schema is traced to its site, and the ledger stays right. -/
theorem schemaType_recorded {ledger : List Record} (hctx : Recorded env [] ctx ledger)
    {node : Option (RefOr Schema)} {name : Option String} {mode : Mode} {t : Ty}
    (h : (env.schemaType node name mode).outcome ctx = (.ok t, ctx')) :
    (∃ ledger', Recorded env [] ctx' ledger') ∧ ctx.Steady ctx' ∧ ctx.Below ctx' ∧
      Traces env ctx' mode (node.toList.map RefOr.site) t.words := by
  refine outcome_schemaType env.recording_kept h
    (Q := fun t ctx' ↦ (∃ ledger', Recorded env [] ctx' ledger') ∧ ctx.Steady ctx' ∧
      ctx.Below ctx' ∧ Traces env ctx' mode (node.toList.map RefOr.site) t.words) ?_
  cases node with
  | none => exact ⟨⟨ledger, hctx⟩, .refl ctx, .refl ctx, by simpa [Ty.any] using Traces.nil⟩
  | some node =>
    refine ((nodeType_ensures_naming node name (fun _ ↦ []) (making_nil ctx)).and
      (nodeType_ensures_recording node name (fun _ ↦ []) hctx)).mono ?_
    exact fun _ _ _ hQ ↦ hQ.2

theorem referenceType_recorded {ledger : List Record} (hctx : Recorded env [] ctx ledger)
    {path : String} {mode : Mode} {plain : Bool} {t : Ty}
    (h : (env.referenceType path mode plain).outcome ctx = (.ok t, ctx')) :
    (∃ ledger', Recorded env [] ctx' ledger') ∧ ctx.Steady ctx' ∧ ctx.Below ctx' ∧
      Traces env ctx' mode [.ref path plain] t.words := by
  obtain ⟨log, ⟨hsteady, -⟩, hledger, hbelow, hanswers⟩ :=
    outcome_referenceType env.recording_kept h ⟨making_nil ctx, ledger, hctx⟩
  exact ⟨hledger, hsteady, hbelow, .ref hanswers⟩

theorem keeps_nodeMarks {γ : Type} {part : Context → γ}
    (hflags : ∀ (ctx : Context) flags, part { ctx with flags } = part ctx) (env : Env)
    (node : RefOr Schema) : Build.Keeps part (env.nodeMarks node) := by
  cases node with
  | inline s => exact Build.keeps_closureMarks hflags env s
  | ref path =>
    rw [nodeMarks]
    split
    · exact .pure _
    · exact Build.keeps_scan hflags _

theorem tame_nodeMarks (env : Env) (node : RefOr Schema) : (env.nodeMarks node).Tame :=
  .of_keeps fun _ hpart ↦ keeps_nodeMarks (fun ctx flags ↦ hpart ctx flags _) env node

end Env

theorem Build.tame_reserve (wanted : String) : (Build.reserve wanted).Tame :=
  .of_keeps fun _ hpart ctx ↦ hpart ctx ctx.flags _

namespace Call

variable {env : Env} {ctx ctx' : Context}

theorem recorded (h : Call env ctx ctx') {ledger : List Record}
    (hctx : Recorded env [] ctx ledger) :
    (∃ ledger', Recorded env [] ctx' ledger') ∧ ctx.Steady ctx' ∧ ctx.Below ctx' := by
  have hsame {σ : Type} {b : Build σ} {x : σ} (htame : b.Tame)
      (hout : b.outcome ctx = (.ok x, ctx')) :
      (∃ ledger', Recorded env [] ctx' ledger') ∧ ctx.Steady ctx' ∧ ctx.Below ctx' :=
    ⟨⟨ledger, htame.recorded hout hctx⟩, .of_eq (htame.aliases hout), htame.below hout hctx.enums⟩
  cases h with
  | schema h =>
    obtain ⟨hledger, hsteady, hbelow, -⟩ := Env.schemaType_recorded hctx h
    exact ⟨hledger, hsteady, hbelow⟩
  | reference h =>
    obtain ⟨hledger, hsteady, hbelow, -⟩ := Env.referenceType_recorded hctx h
    exact ⟨hledger, hsteady, hbelow⟩
  | marks h => exact hsame (Env.tame_nodeMarks env _) h
  | reserve h => exact hsame (Build.tame_reserve _) h

theorem marked (hmodes : env.options.singleMode = false) (h : Call env ctx ctx')
    (hctx : Marked env [] ctx) : Marked env [] ctx' := by
  cases h with
  | @schema node name mode t h =>
    refine Env.outcome_schemaType (Q := fun _ ctx' ↦ Marked env [] ctx') (Env.marking_kept hmodes)
      h ?_
    cases node with
    | none => exact hctx
    | some node =>
      refine ((Env.nodeType_ensures_naming node name (fun _ ↦ []) (Env.making_nil ctx)).and
        (Env.nodeType_ensures_marking node name (fun _ ↦ []) hctx)).mono ?_
      exact fun _ _ _ hQ ↦ hQ.2.1
  | reference h =>
    obtain ⟨log, -, hmarked⟩ :=
      Env.outcome_referenceType (Env.marking_kept hmodes) h ⟨Env.making_nil ctx, hctx⟩
    exact hmarked
  | @marks node flags h =>
    have hkeeps : Build.Keeps Context.aliases (env.nodeMarks node) :=
      Env.keeps_nodeMarks (fun _ _ ↦ rfl) env node
    have haliases := hkeeps ctx
    rw [h] at haliases
    exact hctx.of_eq haliases (Env.nodeMarks_exact hmodes hctx.flags h).1
  | reserve h =>
    cases h
    exact hctx.of_eq rfl hctx.flags

end Call

namespace Calls

variable {env : Env} {ctx ctx' : Context}

/-- From a context with a right ledger, calls lead to one with a right ledger in which all names
are the same. -/
theorem recorded_from (h : Calls env ctx ctx') {ledger : List Record}
    (hctx : Recorded env [] ctx ledger) :
    (∃ ledger', Recorded env [] ctx' ledger') ∧ ctx.Steady ctx' ∧ ctx.Below ctx' := by
  induction h with
  | refl => exact ⟨⟨ledger, hctx⟩, .refl ctx, .refl ctx⟩
  | tail _ hcall ih =>
    obtain ⟨⟨ledger₁, hledger₁⟩, hsteady, hbelow⟩ := ih
    obtain ⟨hledger', hsteady', hbelow'⟩ := hcall.recorded hledger₁
    exact ⟨hledger', hsteady.trans hsteady', hbelow.trans hbelow'⟩

theorem recorded (h : Calls env {} ctx) : ∃ ledger, Recorded env [] ctx ledger :=
  (h.recorded_from (.start env)).1

theorem marked (hmodes : env.options.singleMode = false) (h : Calls env {} ctx) :
    Marked env [] ctx := by
  induction h with
  | refl => exact .start env
  | tail _ hcall hctx => exact hcall.marked hmodes hctx

theorem below (hstart : Calls env {} ctx) (h : Calls env ctx ctx') : ctx.Below ctx' := by
  obtain ⟨ledger, hledger⟩ := recorded hstart
  exact (h.recorded_from hledger).2.2

end Calls

theorem Session.calls {env : Env} {ctx : Context} {log : List Meeting} (h : Session env ctx log) :
    Calls env {} ctx := by
  induction h with
  | start => exact .refl
  | @step ctx ctx' _ log' _ t _ hx hrun ih =>
    cases hx with
    | schema node name mode =>
      have hout := (env.ends_schemaPlan node name mode ctx).unique ⟨log', hrun⟩
      exact ih.tail (.schema hout)
    | reference path mode plain =>
      have hout := (env.ends_follow path mode plain ctx).unique ⟨log', hrun⟩
      exact ih.tail (.reference hout)

end ApiClient
