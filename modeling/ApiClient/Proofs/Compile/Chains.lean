import ApiClient.Proofs.Compile.Termination

/-!
# References to references

A reference may point to another reference, and so on until an object stands there. Looking up a
reference goes one step: what stands there is read as an object, even if it is a reference. Where
all fields may be missing, a reference reads as the object without fields. A parameter needs a name,
so there a reference is not what is expected.
-/

namespace ApiClient

open TypeScript

/-- So many references, each pointing to the next one, the last of them to a value that is none. -/
inductive Chain (snapshot : Snapshot) : String → Json.Value → Nat → Prop where
  | last {path : String} {v : Json.Value} (h : snapshot.lookup path = .ok v)
      (hv : ∀ next, v ≠ referenceValue next) : Chain snapshot path v 1
  | next {path next : String} {v : Json.Value} {n : Nat}
      (h : snapshot.lookup path = .ok (referenceValue next)) (hnext : Chain snapshot next v n) :
      Chain snapshot path v (n + 1)

namespace Chain

variable {snapshot : Snapshot} {path : String} {v v' : Json.Value} {n n' : Nat}

theorem pos (h : Chain snapshot path v n) : 0 < n := by
  cases h <;> exact Nat.succ_pos _

theorem unique (h : Chain snapshot path v n) (h' : Chain snapshot path v' n') :
    v = v' ∧ n = n' := by
  induction h generalizing n' with
  | last h hv =>
    cases h' with
    | last h' _ => exact ⟨Except.ok.inj (h.symm.trans h'), rfl⟩
    | next h' _ => exact absurd (Except.ok.inj (h.symm.trans h')) (hv _)
  | next h _ ih =>
    cases h' with
    | last h' hv => exact absurd (Except.ok.inj (h'.symm.trans h)) (hv _)
    | next h' hnext' =>
      have href := Except.ok.inj (h.symm.trans h')
      simp only [referenceValue, Json.Value.obj.injEq, List.cons.injEq, Prod.mk.injEq,
        Json.Value.str.injEq, true_and, and_true] at href
      subst href
      obtain ⟨rfl, rfl⟩ := ih hnext'
      exact ⟨rfl, rfl⟩

theorem lookup_eq (h : Chain snapshot path v n) :
    ∃ w, snapshot.lookup path = .ok w ∧
      (n = 1 ∧ w = v ∨ 1 < n ∧ ∃ next, w = referenceValue next) := by
  cases h with
  | last h _ => exact ⟨v, h, .inl ⟨rfl, rfl⟩⟩
  | next h hnext => exact ⟨_, h, .inr ⟨Nat.succ_lt_succ hnext.pos, _, rfl⟩⟩

end Chain

/-- The kinds of objects that a reference may stand for. -/
inductive Kind where
  | schema
  | parameter
  | requestBody
  | response

namespace Kind

def Object : Kind → Type
  | schema => Schema
  | parameter => Parameter
  | requestBody => RequestBody
  | response => Response

def read : (kind : Kind) → Node → Read kind.Object
  | schema => Schema.ofNode
  | parameter => Parameter.ofNode
  | requestBody => RequestBody.ofNode
  | response => Response.ofNode

/-- The object without fields, if a kind has one. -/
def blank? : (kind : Kind) → Option kind.Object
  | schema => some ({} : Schema)
  | parameter => none
  | requestBody => some ({} : RequestBody)
  | response => some ({} : Response)

/-- A reference has no field of an object, so it reads as the object without fields. -/
theorem decode_reference (kind : Kind) (next : String) :
    decode kind.read (referenceValue next) = kind.blank?.elim (.error .mismatch) .ok := by
  cases kind with
  | schema =>
    show Read.result (Schema.ofNode _) = _
    rw [Schema.ofNode]
    rfl
  | parameter | requestBody | response => rfl

end Kind

section

variable {snapshot : Snapshot} {path : String} {v : Json.Value} {n : Nat}

/-- A longer chain is resolved to the object without fields. -/
theorem resolve_of_long (h : Chain snapshot path v n) (hn : 1 < n) (kind : Kind) :
    snapshot.resolve kind.read path = kind.blank?.elim (.error (.unexpected path)) .ok := by
  obtain ⟨w, hw, ⟨rfl, -⟩ | ⟨-, next, rfl⟩⟩ := h.lookup_eq
  · exact absurd hn (Nat.lt_irrefl 1)
  · rw [resolve_of_lookup kind.read hw, kind.decode_reference]
    cases kind.blank? <;> rfl

/-- The end of a chain is found if the chain has one reference, or if the end has no fields. -/
theorem resolve_eq_end_iff (h : Chain snapshot path v n) {kind : Kind} {a : kind.Object}
    (ha : decode kind.read v = .ok a) :
    snapshot.resolve kind.read path = .ok a ↔ n = 1 ∨ kind.blank? = some a := by
  obtain ⟨w, hw, ⟨rfl, rfl⟩ | ⟨hn, -⟩⟩ := h.lookup_eq
  · rw [resolve_of_lookup kind.read hw, ha]
    simp [expected]
  · rw [resolve_of_long h hn]
    have hne : n ≠ 1 := Nat.ne_of_gt hn
    cases kind.blank? <;> simp [hne]

theorem runs_blank (env : Env) (around : Around) (ctx : Context) :
    Runs env around (inlineType env {} none .base) ctx (.ok .any) ctx [] := by
  have hmapping : env.mapping? {} = none := by
    simp [Env.mapping?, Env.isDiscriminating]
  have hshape : ({} : Schema).hasObjectShape = false := by
    decide
  rw [inlineType, nodeType, plainType_simple _ _ _ rfl rfl hmapping rfl rfl rfl (by simp [hshape])]
  exact .act rfl (.done _)

/-- The alias of a schema without fields is declared as any type. -/
theorem outcome_of_blank {env : Env} {plain : Bool} (htarget : env.target path plain = .ok {})
    (mode : Mode) {ctx : Context}
    (hnew : Table.get? (env.aliasKey path plain) ctx.aliases = none) :
    ∃ base counts, (env.referenceType path mode plain).outcome ctx =
      (.ok (.named base),
        (ctx.enter counts (env.aliasKey path plain) { base := base }).declare base .any) := by
  have hmarks : ∀ ctx, (env.closureMarks {}).outcome ctx = (.ok .none, ctx) := by
    intro ctx
    cases hmodes : env.options.singleMode with
    | true =>
      rw [Env.closureMarks, if_pos hmodes]
      rfl
    | false => exact Build.outcome_closureMarks hmodes rfl ctx
  rcases hbase : Names.allocate (toIdentifier (Pointer.displayName (env.aliasKey path plain)) true)
    ctx.typeNames with ⟨base, counts⟩
  have henum : ∀ name, env.options.declaresEnum {} name = false := by
    simp [Options.declaresEnum, Schema.enumValues]
  have hget : ({ base := base } : Aliases).get mode = base := by
    cases mode <;> rfl
  have hrun : Runs env (fun m ↦ [(env.aliasKey path plain, m)]) (referencePlan env path mode plain)
      ctx _ _ _ :=
    .declared hnew htarget (henum _) hbase
      (.modes (runs_blank env _ _) (hmarks _) (.same _) (.same _))
      (ctx.get?_enter_self counts _ _)
  rw [hget] at hrun
  exact ⟨base, counts, (env.ends_follow path mode plain ctx).unique ⟨_, .meet hrun (.done _)⟩⟩

theorem outcome_of_long {env : Env} (h : Chain env.snapshot path v n) (hn : 1 < n) (mode : Mode)
    (plain : Bool) {ctx : Context}
    (hnew : Table.get? (env.aliasKey path plain) ctx.aliases = none) :
    ∃ base counts, (env.referenceType path mode plain).outcome ctx =
      (.ok (.named base),
        (ctx.enter counts (env.aliasKey path plain) { base := base }).declare base .any) := by
  have htarget : env.target path plain = .ok {} := by
    have hs : env.snapshot.resolve Schema.ofNode path = .ok {} := resolve_of_long h hn .schema
    rw [Env.target, hs]
    cases plain <;> rfl
  exact outcome_of_blank htarget mode hnew

end

/-- A reference at the beginning of a chain is resolved to the end of the chain exactly if the chain
has no other reference or the end has no fields. A longer chain is resolved to the object without
fields, or not at all if the kind has none, and the alias of its first reference is declared as any
type. -/
theorem resolve_chain_iff {snapshot : Snapshot} {path : String} {v : Json.Value} {n : Nat}
    (h : Chain snapshot path v n) :
    (∀ (kind : Kind) (a : kind.Object), decode kind.read v = .ok a →
      (snapshot.get kind.read (.ref path) = .ok a ↔ n = 1 ∨ kind.blank? = some a)) ∧
    (1 < n → ∀ kind : Kind, snapshot.get kind.read (.ref path) =
      kind.blank?.elim (.error (.unexpected path)) .ok) ∧
    (1 < n → ∀ env : Env, env.snapshot = snapshot → ∀ mode plain ctx,
      Table.get? (env.aliasKey path plain) ctx.aliases = none →
      ∃ base counts, (env.referenceType path mode plain).outcome ctx =
        (.ok (.named base),
          (ctx.enter counts (env.aliasKey path plain) { base := base }).declare base .any)) := by
  refine ⟨fun kind a ha ↦ resolve_eq_end_iff h ha, fun hn kind ↦ resolve_of_long h hn kind, ?_⟩
  rintro hn env rfl mode plain ctx hnew
  exact outcome_of_long h hn mode plain hnew

namespace Relay

/-- A document in which an alias stands for a schema. -/
def snapshot : Snapshot where
  root := .obj [("components", .obj [("schemas", .obj [
    ("Pet", .obj [("title", .str "pet")]),
    ("Alias", referenceValue "#/components/schemas/Pet")])])]

theorem chain :
    Chain snapshot "#/components/schemas/Alias" (.obj [("title", .str "pet")]) 2 := by
  have halias : snapshot.lookup "#/components/schemas/Alias" =
      .ok (referenceValue "#/components/schemas/Pet") :=
    rfl
  have hpet : snapshot.lookup "#/components/schemas/Pet" = .ok (.obj [("title", .str "pet")]) :=
    rfl
  refine .next halias (.last hpet fun next h ↦ ?_)
  simp [referenceValue] at h

end Relay

/-- An alias that is not resolved to the schema that it stands for. -/
theorem alias_not_resolved : ∃ (snapshot : Snapshot) (path : String) (v : Json.Value) (s : Schema),
    Chain snapshot path v 2 ∧ decode Schema.ofNode v = .ok s ∧
      snapshot.get Schema.ofNode (.ref path) = .ok {} ∧
      snapshot.get Schema.ofNode (.ref path) ≠ .ok s := by
  obtain ⟨hend, hlong, -⟩ := resolve_chain_iff Relay.chain
  have hpet : decode Schema.ofNode (.obj [("title", .str "pet")]) =
      .ok { title := some "pet" } := by
    rw [decode, Schema.ofNode]
    rfl
  refine ⟨_, _, _, _, Relay.chain, hpet, hlong (by decide) .schema, fun h ↦ ?_⟩
  rcases (hend .schema _ hpet).1 h with h | h
  · cases h
  · cases h

end ApiClient
