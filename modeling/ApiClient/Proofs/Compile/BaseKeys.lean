import ApiClient.Proofs.Compile.Dangling

/-!
# Keys of base schemas

The type of a schema without its discriminator is entered under a key of its own, which is the
reference with the ending `Base` and, if something stands there, the first number from two on that
leads to nothing. The search for it ends, because the numbered references name different members of
one object. A key belongs to one reference only: without the number it ends in `Base`, and before
that it is the reference. So what is entered under a key was made for that reference.
-/

namespace ApiClient

open TypeScript

namespace Snapshot

/-- The references that are tried one after the other: the reference itself, then the same with the
numbers from two on. -/
def candidate (reference : String) : Nat → String
  | 0 => reference
  | k + 1 => reference ++ toString (k + 2)

/-- The candidate leads to nothing, and all before it lead to something. -/
structure FirstFree (snapshot : Snapshot) (reference : String) (k : Nat) : Prop where
  free : ¬snapshot.contains (candidate reference k)
  taken : ∀ j < k, snapshot.contains (candidate reference j)

variable {snapshot : Snapshot} {reference : String}

theorem freeNumber?_eq_some {steps n m : Nat}
    (h : snapshot.freeNumber? reference steps n = some m) : ∃ k < steps, m = n + k ∧
      ∀ j < k, snapshot.contains (reference ++ toString (n + j)) := by
  induction steps generalizing n with
  | zero => cases h
  | succ steps ih =>
    rw [freeNumber?] at h
    split at h
    next hcontains =>
      obtain ⟨k, hk, hm, htaken⟩ := ih h
      refine ⟨k + 1, by omega, by omega, fun j hj ↦ ?_⟩
      cases j with
      | zero => exact hcontains
      | succ j =>
        have hnext := htaken j (by omega)
        rwa [Nat.add_assoc, Nat.add_comm 1 j] at hnext
    next => exact ⟨0, by omega, (Option.some.inj h).symm, by omega⟩

/-- The search ends within as many steps as there are values in the document. -/
theorem exists_firstFree (snapshot : Snapshot) (path : String) : ∃ k ≤ snapshot.size + 1,
    snapshot.FirstFree (path ++ "Base") k ∧
      snapshot.freeReference (path ++ "Base") = candidate (path ++ "Base") k := by
  have hfree := not_contains_freeReference snapshot path
  by_cases hcontains : snapshot.contains (path ++ "Base")
  · obtain ⟨m, hm⟩ := Option.isSome_iff_exists.1 (freeNumber?_isSome snapshot path)
    obtain ⟨k, hk, rfl, htaken⟩ := freeNumber?_eq_some hm
    have hkey : snapshot.freeReference (path ++ "Base") = candidate (path ++ "Base") (k + 1) := by
      rw [freeReference, if_pos hcontains, hm, candidate, Nat.add_comm]
    refine ⟨k + 1, by omega, ⟨hkey ▸ hfree, fun j hj ↦ ?_⟩, hkey⟩
    cases j with
    | zero => exact hcontains
    | succ j =>
      rw [candidate, Nat.add_comm]
      exact htaken j (by omega)
  · have hkey : snapshot.freeReference (path ++ "Base") = candidate (path ++ "Base") 0 := by
      rw [freeReference, if_neg hcontains, candidate]
    exact ⟨0, by omega, ⟨hkey ▸ hfree, by omega⟩, hkey⟩

end Snapshot

section

variable {env : Env}

theorem aliasKey_base_eq_iff {path other : String} :
    env.aliasKey path true = env.aliasKey other true ↔ path = other :=
  ⟨Snapshot.freeReference_injective, fun h ↦ by rw [h]⟩

/-- What is entered under the key of a base schema was made for its reference. -/
theorem record_of_base_key {ctx : Context} {ledger : List Record}
    (hledger : Recorded env [] ctx ledger) {path name : String} {mode : Mode}
    (hname : ctx.name? (env.aliasKey path true) mode = some name) :
    ∃ record ∈ ledger, record.entry = (env.aliasKey path true, mode) ∧ record.name = name ∧
      env.target path true = .ok record.schema := by
  have hdangling := env.snapshot.not_contains_freeReference path
  obtain ⟨record, hrecord, other, hentry, hown, hkey, htarget⟩ :=
    record_of_dangling hledger hdangling hname
  obtain rfl := aliasKey_base_eq_iff.1 hkey
  exact ⟨record, hrecord, hentry, hown, htarget⟩

end

/-- The key of a base schema is the first candidate that leads to nothing, which is found after a
bounded number of steps. No two references have one key. Whatever has been compiled, a name under
such a key is that of a declared type, and that type was made from the schema at the reference,
without its discriminator. -/
theorem base_keys_fresh (env : Env) (path : String) :
    (∃ k ≤ env.snapshot.size + 1, env.snapshot.FirstFree (path ++ "Base") k ∧
      env.aliasKey path true = Snapshot.candidate (path ++ "Base") k) ∧
    (∀ other, env.aliasKey path true = env.aliasKey other true ↔ path = other) ∧
    ∀ ctx, Calls env {} ctx → ∀ mode name,
      ctx.name? (env.aliasKey path true) mode = some name →
        ∃ record : Record, record.entry = (env.aliasKey path true, mode) ∧ record.name = name ∧
          env.target path true = .ok record.schema ∧ record.Stands env ctx ∧
          record.declaration ∈ ctx.typeDeclarations := by
  refine ⟨env.snapshot.exists_firstFree path, fun other ↦ aliasKey_base_eq_iff, ?_⟩
  intro ctx h mode name hname
  obtain ⟨ledger, hledger⟩ := h.recorded
  obtain ⟨record, hrecord, hentry, hown, htarget⟩ := record_of_base_key hledger hname
  exact ⟨record, hentry, hown, htarget, hledger.stands record hrecord,
    hledger.declarations ▸ List.mem_map_of_mem hrecord⟩

namespace Shadowed

/-- A document in which the first two candidates for the key of a base schema are taken. -/
def env : Env where
  snapshot := { root := .obj [("components", .obj [("schemas", .obj [("A", .obj []),
    ("ABase", .obj []), ("ABase2", .obj [])])])] }
  discriminating := []
  options := {}

theorem target : env.target "#/components/schemas/A" true = .ok {} :=
  target_of_blank rfl

theorem key : env.aliasKey "#/components/schemas/A" true = "#/components/schemas/ABase3" := by
  decide +kernel

end Shadowed

/-- With two candidates taken the third is the key, and no other reference has it. After the schema
was compiled, its name is that of a declared type. -/
theorem third_candidate_entered :
    Shadowed.env.aliasKey "#/components/schemas/A" true = "#/components/schemas/ABase3" ∧
    (∀ other, "#/components/schemas/ABase3" = Shadowed.env.aliasKey other true ↔
      "#/components/schemas/A" = other) ∧
    ∃ ctx, Calls Shadowed.env {} ctx ∧ ∃ name,
      ctx.name? "#/components/schemas/ABase3" .base = some name ∧
      ∃ record : Record, record.entry = ("#/components/schemas/ABase3", .base) ∧
        record.name = name ∧
        Shadowed.env.target "#/components/schemas/A" true = .ok record.schema ∧
        record.declaration ∈ ctx.typeDeclarations := by
  have hnew : Table.get? (Shadowed.env.aliasKey "#/components/schemas/A" true)
      ({} : Context).aliases = none := rfl
  obtain ⟨base, counts, hout⟩ := outcome_of_blank Shadowed.target .base hnew
  obtain ⟨-, hdistinct, hentered⟩ := base_keys_fresh Shadowed.env "#/components/schemas/A"
  rw [Shadowed.key] at hout hdistinct hentered
  have hcalls : Calls Shadowed.env {} _ := .single (.reference hout)
  obtain ⟨record, hentry, hname, htarget, -, hdeclared⟩ := hentered _ hcalls .base base rfl
  exact ⟨Shadowed.key, hdistinct, _, hcalls, base, rfl, record, hentry, hname, htarget, hdeclared⟩

end ApiClient
