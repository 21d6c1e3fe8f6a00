import ApiClient.Proofs.Operation.Closed
import Mathlib.Data.List.Induction
import Mathlib.Data.List.Nodup

/-!
# Which functions bind each name once

The arguments of the parameters get their names one after the other, the shorter parameters first. A
parameter whose identifier was given out before gets its location as an ending, once, and the name
of the body and that of the options are chosen without a look at the arguments. So two names of a
function are the same where a name with an ending was given out before as well, or where an argument
has the name of the body, of the options, or of something that the body of the function uses.
-/

namespace ApiClient

open TypeScript

namespace Parameters

/-- The name of the argument for a parameter whose identifier was given out before. -/
def suffixedName (p : Parameter) : String :=
  toIdentifier p.name ++ Text.upperFirst p.location.word

/-- The names that parameters get, in their order. -/
def given (entries : List (Nat × Parameter)) : List String :=
  (nameEach [] entries).map (·.2)

theorem perm_insertByLength (entry : Nat × Parameter) (sorted : List (Nat × Parameter)) :
    (insertByLength entry sorted).Perm (entry :: sorted) := by
  induction sorted with
  | nil => exact .refl _
  | cons e rest ih =>
    rw [insertByLength]
    split
    · exact (ih.cons e).trans (.swap _ _ _)
    · exact .refl _

theorem perm_byLength (params : List Parameter) :
    (byLength params).Perm (params.zipIdx.map Prod.swap) := by
  have hfold : ∀ (entries : List (Parameter × Nat)) (sorted : List (Nat × Parameter)),
      (entries.foldl (fun sorted entry ↦ insertByLength (entry.2, entry.1) sorted) sorted).Perm
        (entries.map Prod.swap ++ sorted) := by
    intro entries
    induction entries with
    | nil => exact fun sorted ↦ .refl _
    | cons entry rest ih =>
      intro sorted
      apply (ih _).trans
      exact ((perm_insertByLength _ sorted).append_left _).trans List.perm_middle
  have hperm := hfold params.zipIdx []
  rwa [List.append_nil] at hperm

theorem keys_byLength (params : List Parameter) :
    ((byLength params).map (·.1)).Perm (List.range params.length) := by
  have hkeys : (params.zipIdx.map Prod.swap).map (·.1) = List.range params.length := by
    rw [List.map_map]
    exact (List.zipIdx_map_snd 0 params).trans List.range_eq_range'.symm
  have hperm := (perm_byLength params).map (·.1)
  rwa [hkeys] at hperm

theorem exists_mem_byLength {params : List Parameter} {p : Parameter} :
    (∃ entry ∈ byLength params, entry.2 = p) ↔ p ∈ params := by
  have hvalues : (params.zipIdx.map Prod.swap).map (·.2) = params := by
    rw [List.map_map]
    exact List.zipIdx_map_fst 0 params
  have hperm := (perm_byLength params).map (·.2)
  rw [hvalues] at hperm
  rw [← hperm.mem_iff, List.mem_map]

theorem keys_nameEach (taken : List String) (entries : List (Nat × Parameter)) :
    (nameEach taken entries).map (·.1) = entries.map (·.1) := by
  induction entries generalizing taken with
  | nil => rfl
  | cons entry rest ih =>
    obtain ⟨i, p⟩ := entry
    rw [nameEach, List.map_cons, List.map_cons, ih]

theorem map_lookup {β : Type} {entries : List (Nat × β)}
    (h : (entries.map (·.1)).Nodup) (fallback : β) :
    (entries.map (·.1)).map (fun i ↦ (entries.lookup i).getD fallback) = entries.map (·.2) := by
  induction entries with
  | nil => rfl
  | cons entry rest ih =>
    obtain ⟨i, b⟩ := entry
    obtain ⟨hi, hrest⟩ := List.nodup_cons.1 h
    rw [List.map_cons, List.map_cons, List.map_cons, ← ih hrest]
    congr 1
    · rw [List.lookup_cons_self]
      rfl
    · refine List.map_congr_left fun j hj ↦ ?_
      have hne : (j == i) = false := beq_false_of_ne fun hji ↦ hi (hji ▸ hj)
      rw [List.lookup_cons, hne]

/-- The names of the arguments are those that are given in the order of the lengths. -/
theorem perm_argumentNames (params : List Parameter) :
    (argumentNames params).Perm (given (byLength params)) := by
  have hkeys : ((nameEach [] (byLength params)).map (·.1)).Perm (List.range params.length) := by
    rw [keys_nameEach]
    exact keys_byLength params
  have hnodup := hkeys.nodup_iff.2 List.nodup_range
  have hmap := hkeys.map fun i ↦ ((nameEach [] (byLength params)).lookup i).getD ""
  rw [map_lookup hnodup] at hmap
  exact hmap.symm

/-- Each name is the one that a parameter gets when some names are taken. -/
theorem exists_argumentName_of_mem {params : List Parameter} {x : String}
    (hx : x ∈ argumentNames params) : ∃ taken, ∃ p ∈ params, x = argumentName taken p := by
  have hnamed (taken : List String) (entries : List (Nat × Parameter)) :
      ∀ x ∈ (nameEach taken entries).map (·.2),
        ∃ taken, ∃ entry ∈ entries, x = argumentName taken entry.2 := by
    induction entries generalizing taken with
    | nil => simp [nameEach]
    | cons entry rest ih =>
      rw [nameEach, List.map_cons, List.forall_mem_cons]
      refine ⟨⟨taken, entry, List.mem_cons_self, rfl⟩, fun x hx ↦ ?_⟩
      obtain ⟨taken, entry, hentry, rfl⟩ := ih _ x hx
      exact ⟨taken, entry, List.mem_cons_of_mem _ hentry, rfl⟩
  obtain ⟨taken, entry, hentry, rfl⟩ := hnamed [] _ x ((perm_argumentNames params).mem_iff.1 hx)
  exact ⟨taken, entry.2, exists_mem_byLength.1 ⟨entry, hentry, rfl⟩, rfl⟩

theorem nameEach_concat (taken : List String) (entries : List (Nat × Parameter)) (i : Nat)
    (p : Parameter) : nameEach taken (entries ++ [(i, p)]) = nameEach taken entries ++
      [(i, argumentName (((nameEach taken entries).map (·.2)).reverse ++ taken) p)] := by
  induction entries generalizing taken with
  | nil => rfl
  | cons entry rest ih =>
    obtain ⟨j, q⟩ := entry
    simp [nameEach, ih]

theorem given_concat (entries : List (Nat × Parameter)) (i : Nat) (p : Parameter) :
    given (entries ++ [(i, p)]) =
      given entries ++ [argumentName (given entries).reverse p] := by
  rw [given, nameEach_concat, List.map_append, List.append_nil]
  rfl

theorem argumentName_of_mem {taken : List String} {p : Parameter}
    (h : toIdentifier p.name ∈ taken) : argumentName taken p = suffixedName p := by
  rw [argumentName, if_pos (by simpa using h)]
  rfl

theorem argumentName_of_not_mem {taken : List String} {p : Parameter}
    (h : toIdentifier p.name ∉ taken) : argumentName taken p = toIdentifier p.name := by
  rw [argumentName, if_neg (by simpa using h)]

/-- A parameter gets a name that was given before if both its identifier and its identifier with the
ending were. -/
theorem argumentName_mem_iff {entries : List (Nat × Parameter)} {p : Parameter} :
    argumentName (given entries).reverse p ∈ given entries ↔
      toIdentifier p.name ∈ given entries ∧ suffixedName p ∈ given entries := by
  by_cases htaken : toIdentifier p.name ∈ given entries
  · rw [argumentName_of_mem (List.mem_reverse.2 htaken)]
    exact ⟨fun h ↦ ⟨htaken, h⟩, And.right⟩
  · rw [argumentName_of_not_mem (mt List.mem_reverse.1 htaken)]
    exact ⟨fun h ↦ absurd h htaken, fun h ↦ absurd h.1 htaken⟩

/-- No parameter finds its identifier and its identifier with the ending among the names that were
given before. -/
def Apart (entries : List (Nat × Parameter)) : Prop :=
  ∀ before i p after, entries = before ++ (i, p) :: after →
    ¬(toIdentifier p.name ∈ given before ∧ suffixedName p ∈ given before)

theorem apart_concat {entries : List (Nat × Parameter)} {i : Nat} {p : Parameter} :
    Apart (entries ++ [(i, p)]) ↔ Apart entries ∧
      ¬(toIdentifier p.name ∈ given entries ∧ suffixedName p ∈ given entries) := by
  constructor
  · intro h
    refine ⟨fun before j q after hentries ↦ ?_, h entries i p [] rfl⟩
    exact h before j q (after ++ [(i, p)]) (by simp [hentries])
  · rintro ⟨hentries, hlast⟩ before j q after heq
    rcases List.eq_nil_or_concat after with rfl | ⟨after, last, rfl⟩
    · obtain ⟨rfl, hentry⟩ := List.append_inj' heq rfl
      cases hentry
      exact hlast
    · rw [List.concat_eq_append, ← List.cons_append, ← List.append_assoc] at heq
      exact hentries before j q after (List.append_inj_left' heq rfl)

theorem nodup_given_iff {entries : List (Nat × Parameter)} :
    (given entries).Nodup ↔ Apart entries := by
  induction entries using List.reverseRecOn with
  | nil =>
    refine ⟨fun _ before i p after h ↦ ?_, fun _ ↦ List.nodup_nil⟩
    cases before <;> cases h
  | append_singleton entries entry ih =>
    obtain ⟨i, p⟩ := entry
    rw [given_concat, apart_concat, ← argumentName_mem_iff, ← ih]
    exact ((List.perm_append_singleton _ _).nodup_iff.trans List.nodup_cons).trans and_comm

/-- A name that does not end in a location is given exactly to the first parameter with it. -/
theorem mem_nameEach_iff {taken : List String} {entries : List (Nat × Parameter)} {x : String}
    (hx : ∀ location : Location, ¬(Text.upperFirst location.word).toList <:+ x.toList) :
    x ∈ (nameEach taken entries).map (·.2) ∨ x ∈ taken ↔
      (∃ entry ∈ entries, toIdentifier entry.2.name = x) ∨ x ∈ taken := by
  induction entries generalizing taken with
  | nil => simp [nameEach]
  | cons entry rest ih =>
    obtain ⟨i, p⟩ := entry
    have hname : x = argumentName taken p ∨ x ∈ taken ↔ toIdentifier p.name = x ∨ x ∈ taken := by
      by_cases htaken : toIdentifier p.name ∈ taken
      · have hne : x ≠ argumentName taken p := by
          rintro rfl
          refine hx p.location ⟨(toIdentifier p.name).toList, ?_⟩
          rw [argumentName_of_mem htaken, suffixedName, String.toList_append]
        refine ⟨fun h ↦ .inr (h.resolve_left hne), fun h ↦ .inr ?_⟩
        exact h.elim (fun hx ↦ hx ▸ htaken) id
      · rw [argumentName_of_not_mem htaken, eq_comm]
    have hrest := @ih (argumentName taken p :: taken)
    rw [List.mem_cons] at hrest
    rw [nameEach, List.map_cons, List.mem_cons]
    simp only [List.mem_cons, exists_eq_or_imp]
    rw [or_assoc, or_left_comm, hrest, hname, or_left_comm, ← or_assoc]

theorem mem_argumentNames_iff {params : List Parameter} {x : String}
    (hx : ∀ location : Location, ¬(Text.upperFirst location.word).toList <:+ x.toList) :
    x ∈ argumentNames params ↔ ∃ p ∈ params, toIdentifier p.name = x := by
  have hgiven := @mem_nameEach_iff [] (byLength params) x hx
  simp only [List.not_mem_nil, or_false] at hgiven
  rw [(perm_argumentNames params).mem_iff, given, hgiven]
  constructor
  · rintro ⟨entry, hentry, hname⟩
    exact ⟨entry.2, exists_mem_byLength.1 ⟨entry, hentry, rfl⟩, hname⟩
  · rintro ⟨p, hp, hname⟩
    obtain ⟨entry, hentry, rfl⟩ := exists_mem_byLength.2 hp
    exact ⟨entry, hentry, hname⟩

end Parameters

namespace Operation

open Parameters (Apart byLength argumentNames)

/-- The names that no argument may have: that of the options, and those that bodies use. -/
def fixedNames : List String := "opts" :: moduleNames

theorem mem_argumentNames_of_fixed {params : List Parameter} {x : String} (hx : x ∈ fixedNames) :
    x ∈ argumentNames params ↔ ∃ p ∈ params, toIdentifier p.name = x := by
  have hends : ∀ x ∈ fixedNames, ∀ location : Location,
      ¬(Text.upperFirst location.word).toList <:+ x.toList := by
    intro x hx location
    simp only [fixedNames, moduleNames, List.mem_cons, List.not_mem_nil, or_false] at hx
    rcases hx with rfl | rfl | rfl | rfl <;> cases location <;> decide +kernel
  exact Parameters.mem_argumentNames_iff (hends x hx)

theorem notMem_fixedNames_iff {params : List Parameter} :
    (∀ x ∈ argumentNames params, x ∉ fixedNames) ↔
      ∀ p ∈ params, toIdentifier p.name ∉ fixedNames := by
  constructor
  · intro hx p hp hfixed
    exact hx _ ((mem_argumentNames_of_fixed hfixed).2 ⟨p, hp, rfl⟩) hfixed
  · intro hp x hx hfixed
    obtain ⟨p, hmem, rfl⟩ := (mem_argumentNames_of_fixed hfixed).1 hx
    exact hp p hmem hfixed

namespace Parts

variable {parts : Parts}

theorem args_named (parts : Parts) : parts.named.map (·.2) = argumentNames parts.params :=
  List.map_snd_zip (Nat.le_of_eq (length_argumentNames _))

theorem perm_bound (parts : Parts) :
    parts.bound.Perm ("opts" :: (parts.bodyArg.toList ++ argumentNames parts.params)) := by
  have hargs : (parts.required.map (·.2) ++ parts.optional.map (·.2)).Perm
      (argumentNames parts.params) := by
    rw [← args_named, ← List.map_append]
    exact (List.filter_append_perm _ parts.named).map _
  apply (List.perm_append_singleton _ _).trans
  apply List.Perm.cons
  rw [List.append_assoc]
  exact (List.perm_append_comm_assoc _ _ _).trans (hargs.append_left _)

end Parts

variable {env : Env} {upgraded : Bool} {path : String} {item : PathItem} {method : Method}
  {op : Operation} {f : Function} {ctx ctx' : Context}

/-- A function binds each of its names once, and none that its body takes from the module, if and
only if no parameter and no body is named like the options or like a name of the module, the body is
not named like a parameter, and no parameter finds both of its names given out. -/
theorem bound_once_iff
    (h : (op.synthesize env upgraded path item method).outcome ctx = (.ok (some f), ctx')) :
    ∃ parts, op.Resolves env upgraded item parts ∧
      ((f.bound.Nodup ∧ ∀ x ∈ f.bound, x ∉ moduleNames) ↔
        (∀ p ∈ parts.params, toIdentifier p.name ∉ fixedNames) ∧
        (∀ arg ∈ parts.bodyArg, arg ∉ fixedNames ∧ arg ∉ argumentNames parts.params) ∧
        Apart (byLength parts.params)) := by
  obtain ⟨-, parts, hparts, hf⟩ := assembled_of_synthesize h
  refine ⟨parts, hparts, ?_⟩
  have hapart : (argumentNames parts.params).Nodup ↔ Apart (byLength parts.params) :=
    (Parameters.perm_argumentNames _).nodup_iff.trans Parameters.nodup_given_iff
  have hshadow : (∀ x ∈ f.bound, x ∉ moduleNames) ↔
      ∀ x ∈ parts.bodyArg.toList ++ argumentNames parts.params, x ∉ moduleNames := by
    have hopts : "opts" ∉ moduleNames := by
      decide
    simp only [hf.bound, parts.perm_bound.mem_iff, List.forall_mem_cons, hopts, not_false_iff,
      true_and]
  rw [hshadow, hf.bound, parts.perm_bound.nodup_iff, List.nodup_cons, List.nodup_append,
    ← notMem_fixedNames_iff, ← hapart]
  constructor
  · rintro ⟨⟨hopts, -, hnodup, hdisjoint⟩, hmodule⟩
    have hfixed : ∀ x ∈ parts.bodyArg.toList ++ argumentNames parts.params, x ∉ fixedNames :=
      fun x hx ↦ List.not_mem_cons_of_ne_of_not_mem (fun heq ↦ hopts (heq ▸ hx)) (hmodule x hx)
    refine ⟨fun x hx ↦ hfixed x (List.mem_append_right _ hx), fun arg harg ↦ ⟨?_, ?_⟩, hnodup⟩
    · exact hfixed arg (List.mem_append_left _ (Option.mem_toList.2 harg))
    · exact fun hmem ↦ hdisjoint arg (Option.mem_toList.2 harg) arg hmem rfl
  · rintro ⟨hfixed, hbody, hnodup⟩
    have hall : ∀ x ∈ parts.bodyArg.toList ++ argumentNames parts.params, x ∉ fixedNames := by
      intro x hx
      rcases List.mem_append.1 hx with hx | hx
      · exact (hbody x (Option.mem_toList.1 hx)).1
      · exact hfixed x hx
    refine ⟨⟨fun hopts ↦ hall _ hopts List.mem_cons_self, ?_, hnodup, ?_⟩,
      fun x hx hmodule ↦ hall x hx (List.mem_cons_of_mem _ hmodule)⟩
    · cases parts.bodyArg <;> simp
    · rintro arg harg _ hmem rfl
      exact (hbody arg (Option.mem_toList.1 harg)).2 hmem

end Operation

namespace OptionsParameter

def parameter : Parameter where
  name := "opts"
  location := .query

def operation : Operation where
  parameters := [.inline parameter]

def item : PathItem where
  operation := fun m ↦ if m = .get then some operation else none

def spec : Spec where
  version := "3.0.3"
  info := { title := "t", version := "1" }
  paths := [("/", item)]

def env : Env := spec.prepare.env {}

theorem resolves : operation.Resolves env false item ⟨[parameter], none⟩ :=
  ⟨rfl, rfl⟩

theorem outcome_synthesize : ∃ f ctx,
    (operation.synthesize env false "/" item .get).outcome {} = (.ok (some f), ctx) := by
  refine Operation.synthesize_of_types rfl resolves rfl ?_
  rw [List.forall_mem_singleton]
  exact fun ctx ↦ ⟨.any, rfl⟩

end OptionsParameter

/-- A parameter named like the options of the call is bound twice. -/
theorem options_bound_twice : ∃ f ctx,
    (OptionsParameter.operation.synthesize OptionsParameter.env false "/" OptionsParameter.item
        .get).outcome {} = (.ok (some f), ctx) ∧
      ¬(f.bound.Nodup ∧ ∀ x ∈ f.bound, x ∉ moduleNames) := by
  obtain ⟨f, ctx, hout⟩ := OptionsParameter.outcome_synthesize
  refine ⟨f, ctx, hout, fun honce ↦ ?_⟩
  obtain ⟨parts, hparts, hiff⟩ := Operation.bound_once_iff hout
  obtain rfl := hparts.eq OptionsParameter.resolves
  have hname : toIdentifier "opts" ∈ Operation.fixedNames := by
    decide +kernel
  exact (hiff.1 honce).1 OptionsParameter.parameter List.mem_cons_self hname

end ApiClient
