import ApiClient.Proofs.Document.Escapes
import ApiClient.Proofs.Document.GivenBack

/-!
# References to components

Names are escaped so that slashes and tildes stand for themselves, but not so that percent signs do.
So a reference made from names leads back to them, and the reference that a component gets leads to
the component, exactly if no percent sign in the names begins an escape.
-/

namespace ApiClient

open Json (Value)
open Pointer (HasEscape ofComponent percentDecode segments)
open Schema (nodeValue)

/-- A reference read as a schema says nothing. -/
theorem Schema.ofNode_reference (path : String) :
    ofNode (Node.ofValue (referenceValue path)) = pure {} := by
  rw [ofNode]
  rfl

namespace Spec

variable {spec : Spec} {name : String}

/-- Where a document has components, the names of their place lead to what is written for them. -/
theorem at?_schemas {c : RefOr Schema} (h : Table.get? name spec.schemas = some c)
    (other : String) : spec.toValue.at? ["components", "schemas", other] =
      (Table.get? other spec.schemas).map nodeValue := by
  cases hcs : spec.components with
  | none =>
    rw [schemas, hcs] at h
    cases h
  | some cs =>
    have hschemas : spec.schemas = cs.schemas := by rw [schemas, hcs]; rfl
    rw [hschemas] at h ⊢
    rw [at?_components hcs, Components.toValue_eq_record]
    refine (Json.Value.at?_member 0 (of_decide_eq_true rfl) rfl (tableValue_of_get? h) _).trans ?_
    show (Table.get? other (Table.mapEntries (fun _ ↦ nodeValue) cs.schemas)).bind _ = _
    rw [Table.get?_mapEntries]
    cases Table.get? other cs.schemas <;> rfl

/-- The reference of a component leads to the component with its name percent decoded. -/
theorem lookup_ofComponent {c : RefOr Schema} (h : Table.get? name spec.schemas = some c)
    {other : String} {v : Value} : (Snapshot.ofSpec spec).lookup (ofComponent other) = .ok v ↔
      ∃ d, Table.get? (String.ofList (percentDecode other.toList)) spec.schemas = some d ∧
        nodeValue d = v := by
  rw [lookup_eq_ok, Pointer.segments_ofComponent]
  simp only [Except.ok.injEq, exists_eq_left', Snapshot.ofSpec]
  rw [at?_schemas h, Option.map_eq_some_iff]

variable {s : Schema} (h : spec.toValue.Distinct)
  (hs : Table.get? name spec.prepare.spec.schemas = some (.inline s))

include h hs

theorem component_of_prepare : s.component = some (ofComponent name) := by
  obtain ⟨t, -, rfl⟩ := (get?_schemas_prepare h).1 hs
  rfl

theorem distinct_of_prepare : s.toValue.Distinct := by
  have hdistinct := Json.Value.distinct_of_at? (distinct_prepare h) (schemaAt_component hs).at?
  rwa [nodeValue] at hdistinct

/-- A reference that names a component leads to it, however it is spelled. -/
theorem resolve_of_componentName? {path : String}
    (hpath : Pointer.componentName? path = some name) :
    (Snapshot.ofSpec spec.prepare.spec).resolve Schema.ofNode path = .ok s.reread := by
  have hsegments := Pointer.componentName?_eq_some.1 hpath
  refine resolve_eq_ok.2 ⟨s.toValue, lookup_eq_ok.2 ⟨_, hsegments, ?_⟩,
    congrArg Read.result (Schema.ofNode_toValue (distinct_of_prepare h hs))⟩
  refine (at?_schemas hs name).trans ?_
  rw [hs, Option.map_some, nodeValue]

/-- If the reference of a component leads to a schema, then this is declared under the name that the
reference leads along. -/
theorem component_of_resolve {other : String} {t : Schema}
    (ht : (Snapshot.ofSpec spec.prepare.spec).resolve Schema.ofNode (ofComponent other) = .ok t)
    {reference : String} (hcomponent : t.component = some reference) :
    reference = ofComponent (String.ofList (percentDecode other.toList)) := by
  obtain ⟨v, hv, hdecode⟩ := resolve_eq_ok.1 ht
  obtain ⟨d, hd, rfl⟩ := (lookup_ofComponent hs).1 hv
  cases d with
  | ref path =>
    rw [nodeValue, decode, Schema.ofNode_reference] at hdecode
    cases hdecode
    cases hcomponent
  | inline u =>
    rw [nodeValue, decode, Schema.ofNode_toValue (distinct_of_prepare h hd)] at hdecode
    cases hdecode
    rw [Schema.reread_eq, component_of_prepare h hd] at hcomponent
    exact (Option.some.inj hcomponent).symm

theorem lookup_component_iff : (Snapshot.ofSpec spec.prepare.spec).lookup (ofComponent name) =
    .ok s.toValue ↔ ¬HasEscape name.toList := by
  rw [← Pointer.percentDecode_eq_iff]
  constructor
  · intro hlookup
    have hresolve := resolve_eq_ok.2 ⟨_, hlookup,
      congrArg Read.result (Schema.ofNode_toValue (distinct_of_prepare h hs))⟩
    have hcomponent : s.reread.component = some (ofComponent name) := by
      rw [Schema.reread_eq, component_of_prepare h hs]
    have heq := Pointer.ofComponent_injective (component_of_resolve h hs hresolve hcomponent)
    rw [← String.toList_ofList (l := percentDecode name.toList), ← heq]
  · intro hname
    refine (lookup_ofComponent hs).2 ⟨.inline s, ?_, by rw [nodeValue]⟩
    rw [hname, String.ofList_toList, hs]

theorem resolve_component_iff : (Snapshot.ofSpec spec.prepare.spec).resolve Schema.ofNode
    (ofComponent name) = .ok s ↔ ¬HasEscape name.toList ∧ (RefOr.inline s).NoNull := by
  have hback := Schema.givenBack_iff (distinct_of_prepare h hs)
  constructor
  · intro hresolve
    have heq := Pointer.ofComponent_injective
      (component_of_resolve h hs hresolve (component_of_prepare h hs))
    have hescape : ¬HasEscape name.toList := by
      rw [← Pointer.percentDecode_eq_iff, ← String.toList_ofList (l := percentDecode name.toList),
        ← heq]
    obtain ⟨v, hv, hdecode⟩ := resolve_eq_ok.1 hresolve
    cases hv.symm.trans ((lookup_component_iff h hs).2 hescape)
    exact ⟨hescape, hback.1 hdecode⟩
  · rintro ⟨hescape, hnull⟩
    exact resolve_eq_ok.2 ⟨_, (lookup_component_iff h hs).2 hescape, hback.2 hnull⟩

end Spec

/-- A pointer made of names leads back to the names, and the reference that a component gets leads
to the component, exactly if no percent sign in a name begins an escape. The component is read there
as it is unless a default or a constant in it is null. -/
theorem pointers_inverse_iff {spec : Spec} (h : spec.toValue.Distinct) :
    (∀ names, names ≠ [] → (segments (Pointer.along names) = .ok names ↔
      ∀ name ∈ names, ¬HasEscape name.toList)) ∧
    ∀ name s, Table.get? name spec.prepare.spec.schemas = some (.inline s) →
      s.component = some (ofComponent name) ∧
      ((Snapshot.ofSpec spec.prepare.spec).lookup (ofComponent name) = .ok s.toValue ↔
        ¬HasEscape name.toList) ∧
      ((Snapshot.ofSpec spec.prepare.spec).resolve Schema.ofNode (ofComponent name) = .ok s ↔
        ¬HasEscape name.toList ∧ (RefOr.inline s).NoNull) :=
  ⟨fun _ ↦ Pointer.segments_along_eq_iff, fun _ _ hs ↦ ⟨Spec.component_of_prepare h hs,
    Spec.lookup_component_iff h hs, Spec.resolve_component_iff h hs⟩⟩

/-! ## A name with a percent sign -/

namespace PercentName

def spec : Spec where
  version := "3.0.0"
  info := { title := "t", version := "1" }
  components := some { schemas := [("a%41", .inline {})] }

theorem distinct : spec.toValue.Distinct := by
  refine Spec.distinct_toValue.2
    ⟨List.forall_mem_nil _, ⟨List.nodup_nil, List.forall_mem_nil _⟩, ?_⟩
  rintro c ⟨⟩
  refine Components.distinct_toValue.2 ⟨⟨by decide, ?_⟩, by simp [Table.keys]⟩
  refine List.forall_mem_singleton.2 (Schema.distinct_nodeValue_inline.2 .empty)

theorem hasEscape : HasEscape "a%41".toList :=
  .later (.here rfl)

end PercentName

/-- A name with a percent sign is read from its pointer as another name, and the component of that
name is not found. -/
theorem percent_name_not_found :
    segments (Pointer.along ["a%41"]) ≠ .ok ["a%41"] ∧
    (Snapshot.ofSpec PercentName.spec.prepare.spec).lookup (ofComponent "a%41") ≠
      .ok (Schema.toValue { component := some (ofComponent "a%41") }) := by
  obtain ⟨hsegments, hcomponents⟩ := pointers_inverse_iff PercentName.distinct
  refine ⟨fun h ↦ ?_, fun h ↦ ?_⟩
  · exact (hsegments _ (List.cons_ne_nil _ _)).1 h _ List.mem_cons_self PercentName.hasEscape
  · exact (hcomponents "a%41" _ rfl).2.1.1 h PercentName.hasEscape

end ApiClient
