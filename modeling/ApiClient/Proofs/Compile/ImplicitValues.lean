import ApiClient.Proofs.Compile.TaggedUnions
import ApiClient.Proofs.Document.Completing

/-!
# Implicit values of a discriminator

A component that no entry of a mapping leads to is told apart by its name. Preparing takes the name
that a reference leads to, but a union takes the last part of a reference as it stands. So the two
say the same exactly if the reference spells the name without an escape.
-/

namespace ApiClient

open Pointer (Escaped baseName componentName? decodeSegment ofComponent)

/-- The value that a union has for a variant that its mapping does not cover. -/
def ImpliesValue (reference value : String) : Prop :=
  ∃ property mapped variants others,
    unmapped property mapped variants = .ok others ∧ (value, reference) ∈ others

/-- Preparing gives a mapping an entry for a component that it did not have. -/
def Spec.AddsEntry (spec : Spec) (name key : String) : Prop :=
  ∃ parent p p' d d', Table.get? parent spec.schemas = some (.inline p) ∧
    p.discriminator = some d ∧ Table.get? parent spec.prepare.spec.schemas = some (.inline p') ∧
    p'.discriminator = some d' ∧
    (key, ofComponent name) ∈ d'.mapping ∧ (key, ofComponent name) ∉ d.mapping

theorem impliesValue_iff {reference value : String} :
    ImpliesValue reference value ↔ value = baseName reference := by
  constructor
  · rintro ⟨property, mapped, variants, others, hothers, hmem⟩
    rw [(unmapped_eq_ok.1 hothers).2] at hmem
    exact (mem_implicitEntries.1 hmem).2.2
  · rintro rfl
    exact ⟨"", [], [.ref reference], _, rfl, List.mem_singleton_self _⟩

/-- The value is the name that the reference leads to exactly if it is spelled without an escape. -/
theorem baseName_eq_iff {reference name : String} (h : componentName? reference = some name) :
    baseName reference = name ↔ ¬Escaped (baseName reference).toList := by
  have hlast := Pointer.getLast?_segments (Pointer.componentName?_eq_some.1 h)
  have hname : name = String.ofList (decodeSegment (baseName reference).toList) :=
    Option.some.inj hlast
  rw [← Pointer.decodeSegment_eq_self_iff, ← String.toList_inj, hname, String.toList_ofList]
  exact eq_comm

/-- An entry that preparing adds has the name of the component that it leads to. -/
theorem Spec.AddsEntry.key_eq {spec : Spec} (hkeys : spec.schemas.keys.Nodup) {name key : String}
    (h : spec.AddsEntry name key) : key = name := by
  obtain ⟨parent, p, p', d, d', hp, hd, hp', hd', hmem, hnew⟩ := h
  rw [spec_prepare hkeys, schemas_complete, completeSchemas, Table.get?_mapEntries, hp] at hp'
  cases hp'
  have hcomplete : d' = d ∨ d' = d.complete (extensions spec.schemas parent) := by
    rw [Schema.complete, hd] at hd'
    split at hd'
    · exact .inr (Option.some.inj hd').symm
    · exact .inl (Option.some.inj hd').symm
  rcases hcomplete with rfl | rfl
  · exact absurd hmem hnew
  · obtain ⟨child, -, heq⟩ := List.mem_map.1 ((List.mem_append.1 hmem).resolve_left hnew)
    obtain ⟨rfl, htarget⟩ := Prod.mk.inj heq
    exact Pointer.ofComponent_injective htarget

/-- A reference that leads to a component has an implicit value in unions, and the component has an
implicit value in the mappings of the components that it extends. The latter is the name of the
component, and the former is as well exactly if the reference spells it without an escape. -/
theorem implicit_values_agree_iff {reference name : String}
    (hname : componentName? reference = some name) :
    (∀ spec : Spec, spec.schemas.keys.Nodup → ∀ key, spec.AddsEntry name key → key = name) ∧
    ∀ value, ImpliesValue reference value →
      (value = name ↔ ¬Escaped (baseName reference).toList) := by
  refine ⟨fun spec hkeys key h ↦ h.key_eq hkeys, fun value hvalue ↦ ?_⟩
  rw [impliesValue_iff.1 hvalue]
  exact baseName_eq_iff hname

/-- A component that a union and a mapping have different values for. -/
theorem escaped_value_differs :
    componentName? "#/components/schemas/P%6Fint" = some "Point" ∧
    Shapes.spec.AddsEntry "Point" "Point" ∧
    ImpliesValue "#/components/schemas/P%6Fint" "P%6Fint" ∧ "P%6Fint" ≠ "Point" := by
  have hname : componentName? "#/components/schemas/P%6Fint" = some "Point" := by
    decide +kernel
  have hvalue : ImpliesValue "#/components/schemas/P%6Fint" "P%6Fint" := by
    rw [impliesValue_iff]
    decide +kernel
  have hescaped : Escaped (baseName "#/components/schemas/P%6Fint").toList := by
    rw [← impliesValue_iff.1 hvalue]
    exact .inr (.inr (.later (.here rfl)))
  refine ⟨hname, ?_, hvalue, fun heq ↦ ?_⟩
  · refine ⟨"Shape", _, _, _, _, rfl, rfl, rfl, rfl, ?_, ?_⟩
    · decide +kernel
    · decide +kernel
  · exact ((implicit_values_agree_iff hname).2 _ hvalue).1 heq hescaped

end ApiClient
