import ApiClient.Proofs.Operation.ArgumentNames
import Mathlib.Data.List.OfFn
import Mathlib.Logic.Equiv.Fin.Rotate

/-!
# Argument names of parameters in another order

A parameter gets the name that those before it in the order by length leave to it. Parameters that
are put in another order, but not those with names of one length among themselves, come in the same
order by length, so each keeps its name. And the identifier of the shortest name with it can only
have been given away as another identifier with its location.
-/

namespace ApiClient

open TypeScript

namespace Parameters

/-! ## Rearranging -/

/-- A list with the entry at `σ k` in the place `k`. -/
def rearrange {α : Type} {n : Nat} (σ : Equiv.Perm (Fin n)) (l : List α) (h : l.length = n) :
    List α :=
  List.ofFn fun k ↦ l.get ((σ k).cast h.symm)

section

variable {α : Type} {n : Nat} {σ : Equiv.Perm (Fin n)} {l : List α} {h : l.length = n}

theorem length_rearrange : (rearrange σ l h).length = n :=
  List.length_ofFn

theorem getElem?_rearrange (k : Fin n) : (rearrange σ l h)[k.val]? = l[(σ k).val]? := by
  have hk : (σ k).val < l.length := h ▸ (σ k).isLt
  rw [rearrange, List.getElem?_ofFn, dif_pos k.isLt, List.getElem?_eq_getElem hk]
  rfl

end

section

variable {params : List Parameter} {σ : Equiv.Perm (Fin params.length)}

/-- Whether parameters that have names of one length stay in their order. -/
def KeepsOrder (params : List Parameter) (σ : Equiv.Perm (Fin params.length)) : Prop :=
  ∀ j k, j < k → byteLength params[σ j].name = byteLength params[σ k].name → σ j < σ k

theorem getElem?_rearranged (k : Fin params.length) :
    (rearrange σ params rfl)[k.val]? = some params[σ k] := by
  rw [getElem?_rearrange]
  exact List.getElem?_eq_getElem (σ k).isLt

theorem exists_place {j : Nat} {q : Parameter} (hq : (rearrange σ params rfl)[j]? = some q) :
    ∃ k : Fin params.length, k.val = j ∧ params[σ k] = q := by
  have hj : j < params.length := by
    rw [← length_rearrange (σ := σ) (h := rfl)]
    exact (List.getElem?_eq_some_iff.1 hq).1
  refine ⟨⟨j, hj⟩, rfl, ?_⟩
  have hplace := getElem?_rearranged (σ := σ) ⟨j, hj⟩
  exact Option.some_inj.1 (hplace.symm.trans hq)

/-- In another order the same parameters come earlier. -/
theorem earlier_rearrange_iff (hσ : KeepsOrder params σ) (j k : Fin params.length) :
    Earlier (j, params[σ j]) (k, params[σ k]) ↔ Earlier (σ j, params[σ j]) (σ k, params[σ k]) := by
  apply or_congr_right
  apply and_congr_right
  intro hlength
  constructor
  · intro hjk
    exact hσ j k hjk hlength
  · intro hplaces
    rcases lt_trichotomy j k with hjk | rfl | hkj
    · exact hjk
    · exact absurd hplaces (lt_irrefl _)
    · exact absurd hplaces (lt_asymm (hσ k j hkj hlength.symm))

theorem wellFounded_earlier : WellFounded Earlier := by
  have hlex : Subrelation Earlier (InvImage (Prod.Lex Nat.lt Nat.lt) fun a : Nat × Parameter ↦
      (byteLength a.2.name, a.1)) := fun h ↦ Prod.lex_def.2 h
  exact hlex.wf (InvImage.wf _ (WellFounded.prod_lex Nat.lt_wfRel.wf Nat.lt_wfRel.wf))

/-! ## The names after rearranging -/

/-- If all earlier parameters keep their names, the same names are given before a parameter. -/
theorem givenBefore_rearrange_iff (hσ : KeepsOrder params σ) {k : Fin params.length}
    (ih : ∀ j : Fin params.length, Earlier (j, params[σ j]) (k, params[σ k]) →
      (argumentNames (rearrange σ params rfl))[j.val]? = (argumentNames params)[(σ j).val]?)
    (x : String) : GivenBefore (rearrange σ params rfl) (k, params[σ k]) x ↔
      GivenBefore params (σ k, params[σ k]) x := by
  constructor
  · rintro ⟨j, q, hq, hearlier, hname⟩
    obtain ⟨j, rfl, rfl⟩ := exists_place hq
    refine ⟨σ j, params[σ j], List.getElem?_eq_getElem (σ j).isLt, ?_, ?_⟩
    · exact (earlier_rearrange_iff hσ j k).1 hearlier
    · exact (ih j hearlier).symm.trans hname
  · rintro ⟨i, q, hq, hearlier, hname⟩
    obtain ⟨hi, rfl⟩ := List.getElem?_eq_some_iff.1 hq
    obtain ⟨j, hj⟩ := σ.surjective ⟨i, hi⟩
    obtain rfl : (σ j).val = i := congrArg Fin.val hj
    have hbefore := (earlier_rearrange_iff hσ j k).2 hearlier
    exact ⟨j, params[σ j], getElem?_rearranged j, hbefore, (ih j hbefore).trans hname⟩

theorem argumentName_congr {taken taken' : List String} {p : Parameter}
    (h : toIdentifier p.name ∈ taken ↔ toIdentifier p.name ∈ taken') :
    argumentName taken p = argumentName taken' p := by
  by_cases htaken : toIdentifier p.name ∈ taken
  · rw [argumentName_of_mem htaken, argumentName_of_mem (h.1 htaken)]
  · rw [argumentName_of_not_mem htaken, argumentName_of_not_mem (mt h.2 htaken)]

theorem getElem?_argumentNames_rearrange (hσ : KeepsOrder params σ) (k : Fin params.length) :
    (argumentNames (rearrange σ params rfl))[k.val]? = (argumentNames params)[(σ k).val]? := by
  -- Along the order by length, in which a name depends only on those that were given before.
  induction h : (k.val, params[σ k]) using wellFounded_earlier.induction generalizing k with
  | _ entry ih =>
    subst h
    obtain ⟨taken, htaken, hname⟩ := exists_argumentName (getElem?_rearranged (σ := σ) k)
    obtain ⟨taken', htaken', hname'⟩ := exists_argumentName
      (List.getElem?_eq_getElem (σ k).isLt)
    rw [hname, hname']
    refine congrArg some (argumentName_congr ?_)
    rw [htaken, htaken']
    exact givenBefore_rearrange_iff hσ (fun j hearlier ↦ ih _ hearlier j rfl) _

theorem argumentNames_rearrange (hσ : KeepsOrder params σ) :
    argumentNames (rearrange σ params rfl) =
      rearrange σ (argumentNames params) (Operation.Parts.length_argumentNames params) := by
  apply List.ext_getElem?
  intro i
  by_cases hi : i < params.length
  · exact (getElem?_argumentNames_rearrange hσ ⟨i, hi⟩).trans (getElem?_rearrange ⟨i, hi⟩).symm
  · rw [List.getElem?_eq_none, List.getElem?_eq_none]
    · rw [length_rearrange]
      exact Nat.le_of_not_lt hi
    · rw [Operation.Parts.length_argumentNames, length_rearrange]
      exact Nat.le_of_not_lt hi

/-! ## The shortest name with an identifier -/

/-- Whether the name of the parameter at a position is shorter than that of every other parameter
with its identifier. -/
def Shortest (params : List Parameter) (i : Nat) (p : Parameter) : Prop :=
  ∀ j q, params[j]? = some q → j ≠ i → toIdentifier q.name = toIdentifier p.name →
    byteLength p.name < byteLength q.name

/-- Only the identifier of another parameter with its location can be given away before the shortest
name with an identifier comes. -/
theorem suffixed_of_givenBefore {i : Nat} {p : Parameter} (hp : params[i]? = some p)
    (hshortest : Shortest params i p) (h : GivenBefore params (i, p) (toIdentifier p.name)) :
    ∃ q ∈ params, byteLength q.name ≤ byteLength p.name ∧ suffixedName q = toIdentifier p.name := by
  obtain ⟨j, q, hq, hearlier, hname⟩ := h
  have hlength : byteLength q.name ≤ byteLength p.name :=
    hearlier.elim Nat.le_of_lt fun hsame ↦ Nat.le_of_eq hsame.1
  rcases eq_of_getElem?_argumentNames hq hname with hplain | hsuffixed
  · have hne : j ≠ i := by
      rintro rfl
      obtain rfl : p = q := Option.some_inj.1 (hp.symm.trans hq)
      exact Earlier.irrefl _ hearlier
    have hlonger := hshortest j q hq hne hplain.symm
    omega
  · exact ⟨q, List.mem_of_getElem? hq, hlength, hsuffixed.symm⟩

theorem argumentName_of_shortest {i : Nat} {p : Parameter} (hp : params[i]? = some p)
    (hshortest : Shortest params i p)
    (hfree : ∀ q ∈ params, byteLength q.name ≤ byteLength p.name →
      suffixedName q ≠ toIdentifier p.name) :
    (argumentNames params)[i]? = some (toIdentifier p.name) := by
  obtain ⟨taken, htaken, hname⟩ := exists_argumentName hp
  have hnew : toIdentifier p.name ∉ taken := by
    intro hmem
    obtain ⟨q, hq, hlength, hsame⟩ := suffixed_of_givenBefore hp hshortest ((htaken _).1 hmem)
    exact hfree q hq hlength hsame
  rw [hname, argumentName_of_not_mem hnew]

end

/-- What the names of arguments do not depend on. -/
structure StableNames (params : List Parameter) : Prop where
  /-- Parameters keep their names in every order in which those with names of one length follow one
  another as before. -/
  rearranged : ∀ σ : Equiv.Perm (Fin params.length), KeepsOrder params σ →
    argumentNames (rearrange σ params rfl) =
      rearrange σ (argumentNames params) (Operation.Parts.length_argumentNames params)
  /-- The shortest name with an identifier gets it, unless it is the identifier of a name that is no
  longer with its location. -/
  shortest : ∀ i p, params[i]? = some p → Shortest params i p →
    (∀ q ∈ params, byteLength q.name ≤ byteLength p.name → suffixedName q ≠ toIdentifier p.name) →
      (argumentNames params)[i]? = some (toIdentifier p.name)

/-- The names of arguments go with their parameters into any order that leaves those with names of
one length as they are, and the shortest name with an identifier has it in each of them. -/
theorem argument_names_stable (params : List Parameter) : StableNames params where
  rearranged _ hσ := argumentNames_rearrange hσ
  shortest _ _ hp hshortest hfree := argumentName_of_shortest hp hshortest hfree

namespace PetParameters

def petId : Parameter where
  name := "petId"
  location := .path

def params : List Parameter :=
  [{ name := "pet_id", location := .query }, petId, { name := "id", location := .path },
    { name := "id", location := .query }]

/-- The first parameter comes last. -/
def order : Equiv.Perm (Fin params.length) :=
  finRotate 4

theorem shortest_petId : Shortest params 1 petId := by
  rintro (_ | _ | _ | _ | j) q hq hne hsame
  · obtain rfl := Option.some_inj.1 hq
    decide
  · exact absurd rfl hne
  · obtain rfl := Option.some_inj.1 hq
    exact absurd hsame (by decide +kernel)
  · obtain rfl := Option.some_inj.1 hq
    exact absurd hsame (by decide +kernel)
  · cases hq

end PetParameters

open PetParameters in
/-- Whether it comes after `pet_id` or before it, `petId` is the name of the shorter one. -/
theorem pet_names_stable : KeepsOrder params order ∧ Shortest params 1 petId ∧
    argumentNames params = ["petIdQuery", "petId", "id", "idQuery"] ∧
    argumentNames (rearrange order params rfl) = ["petId", "id", "idQuery", "petIdQuery"] ∧
    (argumentNames params)[1]? = some (toIdentifier petId.name) := by
  have hnames : argumentNames params = ["petIdQuery", "petId", "id", "idQuery"] := by
    decide +kernel
  have horder : KeepsOrder params order := by
    unfold KeepsOrder
    decide +kernel
  have hfree : ∀ q ∈ params, byteLength q.name ≤ byteLength petId.name →
      suffixedName q ≠ toIdentifier petId.name := by
    decide +kernel
  have hstable := argument_names_stable params
  have hpetId := hstable.shortest 1 petId rfl shortest_petId hfree
  refine ⟨horder, shortest_petId, hnames, ?_, hpetId⟩
  rw [hstable.rearranged order horder]
  simp only [hnames]
  rfl

end Parameters

end ApiClient
