import ApiClient.Operation.Synthesis
import ApiClient.Proofs.Compile.Steps
import Mathlib.Data.List.TakeDrop

/-!
# What the references of an operation lead to

The parameters, the body and the responses of an operation stand in place or are referred to.
What holds of all the objects that are found holds of the parameters that an operation takes: those
of its path, replaced and continued by its own, and folded into objects if need be.
-/

namespace ApiClient

theorem exists_of_mem_mapM {ε α β : Type} {f : α → Except ε β} {xs : List α} {ys : List β}
    (h : xs.mapM f = .ok ys) {y : β} (hy : y ∈ ys) : ∃ x ∈ xs, f x = .ok y := by
  induction xs generalizing ys with
  | nil =>
    cases h
    simp at hy
  | cons x xs ih =>
    rw [List.mapM_cons] at h
    obtain ⟨z, hz, h⟩ := bind_eq_ok.1 h
    obtain ⟨zs, hzs, h⟩ := bind_eq_ok.1 h
    cases h
    rcases List.mem_cons.1 hy with rfl | hy
    · exact ⟨x, List.mem_cons_self, hz⟩
    · obtain ⟨x', hx', heq⟩ := ih hzs hy
      exact ⟨x', List.mem_cons_of_mem _ hx', heq⟩

theorem mapM_congr {m : Type → Type} [Monad m] [LawfulMonad m] {α β : Type} {f g : α → m β}
    {xs : List α} (h : ∀ x ∈ xs, f x = g x) : xs.mapM f = xs.mapM g := by
  induction xs with
  | nil => simp
  | cons x xs ih =>
    rw [List.mapM_cons, List.mapM_cons, h x List.mem_cons_self,
      ih fun y hy ↦ h y (List.mem_cons_of_mem _ hy)]

namespace Parameters

theorem mem_of_mem_override {params : List Parameter} {p q : Parameter}
    (h : q ∈ override params p) : q ∈ params ∨ q = p := by
  induction params with
  | nil => exact .inr (List.mem_singleton.1 h)
  | cons r rest ih =>
    rw [override] at h
    split at h
    · rcases List.mem_cons.1 h with rfl | h
      · exact .inr rfl
      · exact .inl (List.mem_cons_of_mem _ h)
    · rcases List.mem_cons.1 h with rfl | h
      · exact .inl List.mem_cons_self
      · exact (ih h).imp_left (List.mem_cons_of_mem _)

theorem mem_of_mem_merge {ofPath ofOperation : List Parameter} {q : Parameter}
    (h : q ∈ merge ofPath ofOperation) : q ∈ ofPath ∨ q ∈ ofOperation := by
  unfold merge at h
  induction ofOperation generalizing ofPath with
  | nil => exact .inl h
  | cons p rest ih =>
    rcases ih h with h | h
    · rcases mem_of_mem_override h with h | rfl
      · exact .inl h
      · exact .inr List.mem_cons_self
    · exact .inr (List.mem_cons_of_mem _ h)

/-- What parameters that are folded into objects hand on: an object without members has it, and
keeps it with one more member that has the schema of such a parameter. -/
structure HandedOn (P : Parameter → Prop) : Prop where
  empty : ∀ p object member, P p → memberOf? p.name = some (object, member) →
    P (emptyObject object p.location)
  add : ∀ p object member, P p → memberOf? p.name = some (object, member) →
    ∀ q, P q → P (addMember q member (schemaOrAny p))

section

variable {P : Parameter → Prop}

theorem forall_mem_modify {params : List Parameter} (hparams : ∀ q ∈ params, P q)
    {f : Parameter → Parameter} (hf : ∀ q, P q → P (f q)) (i : Nat) :
    ∀ q ∈ params.modify i f, P q := by
  intro q hq
  obtain ⟨j, hj⟩ := List.mem_iff_getElem?.1 hq
  rw [List.getElem?_modify] at hj
  obtain ⟨r, hr, rfl⟩ := Option.map_eq_some_iff.1 hj
  have hr := hparams r (List.mem_of_getElem? hr)
  split
  · exact hf r hr
  · exact hr

variable (hP : HandedOn P)

include hP

theorem HandedOn.of_add {folded : Folded} (hfolded : ∀ q ∈ folded.params, P q) {p : Parameter}
    (hp : P p) : ∀ q ∈ (folded.add p).params, P q := by
  unfold Folded.add
  split
  next =>
    rw [List.forall_mem_append]
    exact ⟨hfolded, by simpa using hp⟩
  next object member hmember =>
    have hadd := hP.add p object member hp hmember
    have hempty := hP.empty p object member hp hmember
    cases hobjects : Table.get? object folded.objects with
    | some i =>
      dsimp only
      rw [hobjects]
      exact forall_mem_modify hfolded hadd i
    | none =>
      dsimp only
      rw [Table.get?_put, if_pos rfl]
      refine forall_mem_modify (List.forall_mem_append.2 ⟨hfolded, ?_⟩) hadd _
      simpa using hempty

theorem HandedOn.of_fold {params : List Parameter} (h : ∀ p ∈ params, P p) :
    ∀ q ∈ fold params, P q := by
  have hfoldl : ∀ folded : Folded, (∀ q ∈ folded.params, P q) →
      ∀ q ∈ (params.foldl Folded.add folded).params, P q := by
    induction params with
    | nil => exact fun _ hfolded ↦ hfolded
    | cons p rest ih =>
      rw [List.forall_mem_cons] at h
      exact fun folded hfolded ↦ ih h.2 _ (hP.of_add hfolded h.1)
  exact hfoldl {} (by simp)

end

end Parameters

namespace Operation

variable {env : Env} {upgraded : Bool} {item : PathItem} {op : Operation}

/-- What is handed on holds of the parameters that an operation takes if it holds of those that its
path and the operation itself name. -/
theorem forall_mem_resolvedParameters {P : Parameter → Prop} (hP : Parameters.HandedOn P)
    (hnamed : ∀ c ∈ item.parameters ++ op.parameters, ∀ p,
      env.snapshot.get Parameter.ofNode c = .ok p → P p)
    {params : List Parameter} (h : resolvedParameters env upgraded item op = .ok params) :
    ∀ p ∈ params, P p := by
  obtain ⟨ofPath, hpath, h⟩ := bind_eq_ok.1 h
  obtain ⟨ofOperation, hoperation, h⟩ := bind_eq_ok.1 h
  have hmerge : ∀ p ∈ Parameters.merge ofPath ofOperation, P p := by
    intro p hp
    rcases Parameters.mem_of_mem_merge hp with hp | hp
    · obtain ⟨c, hc, hget⟩ := exists_of_mem_mapM hpath hp
      exact hnamed c (List.mem_append_left _ hc) p hget
    · obtain ⟨c, hc, hget⟩ := exists_of_mem_mapM hoperation hp
      exact hnamed c (List.mem_append_right _ hc) p hget
  cases h
  cases upgraded with
  | true => exact hP.of_fold hmerge
  | false => exact hmerge

theorem exists_of_body {b : RequestBody}
    (h : op.body.mapM (env.snapshot.get RequestBody.ofNode) = .ok (some b)) :
    ∃ c ∈ op.body, env.snapshot.get RequestBody.ofNode c = .ok b := by
  cases hbody : op.body with
  | none =>
    rw [hbody] at h
    cases h
  | some c =>
    rw [hbody, Option.mapM_some] at h
    obtain ⟨b, hget, h⟩ := bind_eq_ok.1 h
    cases h
    exact ⟨c, rfl, hget⟩

theorem exists_of_mem_resolvedResponses {responses : List (String × Response)}
    (h : resolvedResponses env op = .ok responses) {entry : String × Response}
    (hentry : entry ∈ responses) : ∃ rs ∈ op.responses, ∃ e ∈ rs,
      env.snapshot.get Response.ofNode e.2 = .ok entry.2 := by
  obtain ⟨⟨code, c⟩, hc, hread⟩ := exists_of_mem_mapM h hentry
  obtain ⟨r, hget, hr⟩ := bind_eq_ok.1 hread
  cases hr
  obtain ⟨rs, hrs, hc⟩ := Schema.mem_getD_nil hc
  exact ⟨rs, hrs, (code, c), hc, hget⟩

end Operation

end ApiClient
