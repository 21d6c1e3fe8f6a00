import ApiClient.Proofs.Document.Lookup
import ApiClient.Proofs.Document.Records

/-!
# Schemas written and read back

A default or a constant that is null is written like any other, but it is read as if nothing was
there. All else comes back as it was, whatever depth it stands at, so a schema survives being
written exactly if no default and no constant in it is null.
-/

namespace ApiClient

open Json (Value)
open Node (Reads optional ofValue fill)

namespace Schema

/-! ## What comes back -/

mutual

/-- The schema without the defaults and constants that are null, at any depth. -/
def reread (s : Schema) : Schema :=
  { s with
    default := s.default.filter fun v ↦ !v.isNull
    const := s.const.filter fun v ↦ !v.isNull
    properties := match _ : s.properties with
      | some ps => some (rereadMembers ps)
      | none => none
    additional := match _ : s.additional with
      | some (.schema c) => some (.schema (rereadNode c))
      | some (.allowed b) => some (.allowed b)
      | none => none
    items := match _ : s.items with
      | some c => some (rereadNode c)
      | none => none
    prefixItems := match _ : s.prefixItems with
      | some cs => some (rereadNodes cs)
      | none => none
    allOf := match _ : s.allOf with
      | some cs => some (rereadNodes cs)
      | none => none
    oneOf := match _ : s.oneOf with
      | some cs => some (rereadNodes cs)
      | none => none
    anyOf := match _ : s.anyOf with
      | some cs => some (rereadNodes cs)
      | none => none }
termination_by sizeOf s
decreasing_by
  · exact sizeOf_properties (by assumption)
  · exact sizeOf_additional_schema (by assumption)
  · exact sizeOf_items (by assumption)
  · exact sizeOf_prefixItems (by assumption)
  · exact sizeOf_allOf (by assumption)
  · exact sizeOf_oneOf (by assumption)
  · exact sizeOf_anyOf (by assumption)

def rereadNode : RefOr Schema → RefOr Schema
  | .ref path => .ref path
  | .inline s => .inline (reread s)
termination_by c => sizeOf c

def rereadNodes : List (RefOr Schema) → List (RefOr Schema)
  | [] => []
  | c :: cs => rereadNode c :: rereadNodes cs
termination_by cs => sizeOf cs

def rereadMembers : List (String × RefOr Schema) → List (String × RefOr Schema)
  | [] => []
  | (name, c) :: rest => (name, rereadNode c) :: rereadMembers rest
termination_by ps => sizeOf ps

end

theorem rereadNodes_eq (cs : List (RefOr Schema)) : rereadNodes cs = cs.map rereadNode := by
  induction cs with
  | nil => rw [rereadNodes, List.map_nil]
  | cons c cs ih => rw [rereadNodes, ih, List.map_cons]

theorem rereadMembers_eq (ps : List (String × RefOr Schema)) :
    rereadMembers ps = Table.mapValues rereadNode ps := by
  unfold Table.mapValues
  induction ps with
  | nil => rw [rereadMembers, List.map_nil]
  | cons p ps ih => rw [rereadMembers, ih, List.map_cons]

theorem rereadNode_ref (path : String) : rereadNode (.ref path) = .ref path := by
  rw [rereadNode]

theorem rereadNode_inline (s : Schema) : rereadNode (.inline s) = .inline s.reread := by
  rw [rereadNode]

def rereadAdditional : Additional Schema → Additional Schema
  | .schema c => .schema (rereadNode c)
  | .allowed b => .allowed b

theorem reread_eq (s : Schema) : s.reread =
    { s with
      default := s.default.filter fun v ↦ !v.isNull
      const := s.const.filter fun v ↦ !v.isNull
      properties := s.properties.map (Table.mapValues rereadNode)
      additional := s.additional.map rereadAdditional
      items := s.items.map rereadNode
      prefixItems := s.prefixItems.map (List.map rereadNode)
      allOf := s.allOf.map (List.map rereadNode)
      oneOf := s.oneOf.map (List.map rereadNode)
      anyOf := s.anyOf.map (List.map rereadNode) } := by
  rw [reread]
  congr 1
  all_goals split <;> simp [*, rereadAdditional, rereadMembers_eq, rereadNodes_eq]

end Schema

theorem Schema.sizeOf_part {s : Schema} {c : RefOr Schema} (h : s.Part c) :
    sizeOf c < sizeOf s := by
  cases h with
  | property h hc =>
    have := sizeOf_properties h
    have := List.sizeOf_lt_of_mem hc
    simp only [Prod.mk.sizeOf_spec] at this
    omega
  | additional h => exact sizeOf_additional_schema h
  | items h => exact sizeOf_items h
  | prefixItem h hc => exact Nat.lt_trans (List.sizeOf_lt_of_mem hc) (sizeOf_prefixItems h)
  | allOf h hc => exact Nat.lt_trans (List.sizeOf_lt_of_mem hc) (sizeOf_allOf h)
  | oneOf h hc => exact Nat.lt_trans (List.sizeOf_lt_of_mem hc) (sizeOf_oneOf h)
  | anyOf h hc => exact Nat.lt_trans (List.sizeOf_lt_of_mem hc) (sizeOf_anyOf h)

/-- What holds of references, and of schemas if it holds of their parts, holds throughout. -/
theorem RefOr.of_parts {P : RefOr Schema → Prop} (href : ∀ path, P (.ref path))
    (hinline : ∀ s : Schema, (∀ c, s.Part c → P c) → P (.inline s)) (c : RefOr Schema) : P c := by
  induction hsize : sizeOf c using Nat.strongRecOn generalizing c with
  | ind size ih =>
    subst hsize
    cases c with
    | ref path => exact href path
    | inline s =>
      refine hinline s fun c hc ↦ ih _ ?_ c rfl
      have := Schema.sizeOf_part hc
      simp only [inline.sizeOf_spec]
      omega

/-- No default and no constant in a schema is null, at any depth. -/
inductive RefOr.NoNull : RefOr Schema → Prop where
  | ref (path : String) : NoNull (.ref path)
  | inline {s : Schema} (hdefault : s.default ≠ some .null) (hconst : s.const ≠ some .null)
      (hparts : ∀ c, s.Part c → c.NoNull) : NoNull (.inline s)

theorem RefOr.noNull_inline_iff {s : Schema} : (RefOr.inline s).NoNull ↔
    s.default ≠ some .null ∧ s.const ≠ some .null ∧ ∀ c, s.Part c → c.NoNull := by
  constructor
  · rintro (_ | ⟨hdefault, hconst, hparts⟩)
    exact ⟨hdefault, hconst, hparts⟩
  · rintro ⟨hdefault, hconst, hparts⟩
    exact .inline hdefault hconst hparts

namespace Schema

theorem filter_isNull_eq_self {v? : Option Value} :
    (v?.filter fun v ↦ !v.isNull) = v? ↔ v? ≠ some .null := by
  cases v? with
  | none => simp
  | some v => cases v <;> simp [Option.filter, Json.Value.isNull]

theorem rereadAdditional_eq_self_iff {a? : Option (Additional Schema)} :
    (∀ a ∈ a?, rereadAdditional a = a) ↔ ∀ c, a? = some (.schema c) → rereadNode c = c := by
  cases a? with
  | none => simp
  | some a => cases a <;> simp [rereadAdditional]

theorem reread_eq_self_iff {s : Schema} : s.reread = s ↔
    s.default ≠ some .null ∧ s.const ≠ some .null ∧ ∀ c, s.Part c → rereadNode c = c := by
  rw [reread_eq, forall_part]
  cases s
  simp only [mk.injEq, true_and, and_true, filter_isNull_eq_self, option_map_eq_self_iff,
    list_map_eq_self_iff, Table.mapValues_eq_self_iff, rereadAdditional_eq_self_iff]
  constructor
  · rintro ⟨hdefault, hproperties, hadditional, hitems, hprefixItems, hallOf, honeOf, hanyOf,
      hconst⟩
    exact ⟨hdefault, hconst, hproperties, hadditional, hitems, hprefixItems, hallOf, honeOf, hanyOf⟩
  · rintro ⟨hdefault, hconst, hproperties, hadditional, hitems, hprefixItems, hallOf, honeOf,
      hanyOf⟩
    exact ⟨hdefault, hproperties, hadditional, hitems, hprefixItems, hallOf, honeOf, hanyOf, hconst⟩

theorem rereadNode_eq_self_iff {c : RefOr Schema} : rereadNode c = c ↔ c.NoNull := by
  induction c using RefOr.of_parts with
  | href path => simp [rereadNode_ref, RefOr.NoNull.ref]
  | hinline s ih =>
    rw [rereadNode_inline, RefOr.inline.injEq, reread_eq_self_iff, RefOr.noNull_inline_iff]
    exact and_congr_right fun _ ↦ and_congr_right fun _ ↦ forall₂_congr ih

/-! ## Reading -/

theorem nodeValue_eq (c : RefOr Schema) : nodeValue c = c.toValue toValue := by
  cases c <;> rw [nodeValue] <;> rfl

theorem inlines_toValue (s : Schema) : RefOr.Inlines s.toValue := ⟨_, s.toValue_eq_record, rfl⟩

theorem nodeValue_ne_null (c : RefOr Schema) : nodeValue c ≠ .null := by
  intro h
  cases c <;> rw [nodeValue] at h
  · cases h
  · rw [toValue] at h
    cases h

theorem reads_typeSet (types : TypeSet) : Reads TypeSet.ofNode types.toValue types where
  present := by cases types <;> exact nofun
  result := by
    have hname : ∀ name : TypeName, TypeName.ofNode (ofValue (.str name.word)) = pure name := by
      intro name
      cases name <;> rfl
    cases types with
    | one name =>
      rw [TypeSet.toValue, TypeSet.ofNode, hname]
      rfl
    | many names =>
      have hlist := (Node.reads_list (f := id) fun name (_ : name ∈ names) ↦ hname name).result
      rw [TypeSet.toValue, TypeSet.ofNode]
      show (do return TypeSet.many (← _)) = _
      rw [hlist, List.map_id]
      rfl

theorem reads_discriminator {d : Discriminator} (h : (Table.keys d.mapping).Nodup) :
    Reads Discriminator.ofNode d.toValue d where
  present := nofun
  result := by
    rw [Discriminator.toValue_eq_record, Discriminator.ofNode,
      Node.record_ofValue rfl (by decide) rfl rfl]
    refine Node.fill_text (fun _ ↦ rfl) rfl ?_
    exact Node.fill_sameTable (fun _ ↦ rfl) h (fun e _ ↦ Node.text_ofValue e.2) rfl rfl

/-- What is read where the schema `c` was written. -/
def Survives (c : RefOr Schema) : Prop :=
  nodeOf (ofValue (nodeValue c)) = pure (rereadNode c)

theorem Survives.reads {c : RefOr Schema} (h : Survives c) :
    Reads (fun n ↦ RefOr.ofNode n (ofNode n)) (nodeValue c) (rereadNode c) :=
  ⟨nodeValue_ne_null c, h⟩

theorem reads_additional {a : Additional Schema} (h : ∀ c, a = .schema c → Survives c) :
    Reads (fun n ↦ match Read.result n.flag with
      | .ok b => pure (.allowed b)
      | .error _ => do return .schema (← RefOr.ofNode n (ofNode n)))
      (additionalValue a) (rereadAdditional a) where
  present := by
    cases a with
    | allowed b => exact nofun
    | schema c => exact nodeValue_ne_null c
  result := by
    cases a with
    | allowed b => rfl
    | schema c =>
      have hflag : ∃ fault, Read.result (ofValue (nodeValue c)).flag = .error fault := by
        cases c <;> rw [nodeValue]
        · exact ⟨_, rfl⟩
        · rw [toValue]
          exact ⟨_, rfl⟩
      obtain ⟨fault, hfault⟩ := hflag
      rw [additionalValue, hfault]
      show (do return Additional.schema (← nodeOf (ofValue (nodeValue c)))) = _
      rw [h c rfl]
      rfl

theorem reads_nodeList {cs : List (RefOr Schema)} (h : ∀ c ∈ cs, Survives c) :
    Reads (fun n ↦ n.list fun m _ ↦ RefOr.ofNode m (ofNode m)) (nodeList cs)
      (cs.map rereadNode) :=
  Node.reads_list h

theorem ofNode_toValue_of_parts {s : Schema} (h : s.Distinct)
    (hparts : ∀ c, s.Part c → Survives c) : ofNode (ofValue s.toValue) = pure s.reread := by
  obtain ⟨hproperties, hadditional, hitems, hprefixItems, hallOf, honeOf, hanyOf⟩ :=
    forall_part.1 hparts
  rw [toValue_eq_record, ofNode, Node.record_ofValue rfl (by decide) rfl rfl]
  refine Node.fill_same (fun _ ↦ rfl) (fun types _ ↦ reads_typeSet types) rfl ?_
  refine Node.fill_text (fun _ ↦ rfl) rfl ?_
  refine Node.fill_text (fun _ ↦ rfl) rfl ?_
  refine Node.fill_text (fun _ ↦ rfl) rfl ?_
  refine Node.fill_value (fun _ ↦ rfl) h.default rfl ?_
  refine Node.fill_flag (fun _ ↦ rfl) rfl ?_
  refine Node.fill_optional (fun _ ↦ rfl)
    (fun ps hps ↦ Node.reads_table (h.properties ps hps) (hproperties ps hps)) rfl ?_
  refine Node.fill_same (fun _ ↦ rfl) (fun ts _ ↦ Node.reads_texts ts) rfl ?_
  refine Node.fill_optional (fun _ ↦ rfl)
    (fun a ha ↦ reads_additional fun c hc ↦ hadditional c (hc ▸ ha)) rfl ?_
  refine Node.fill_optional (fun _ ↦ rfl) (fun c hc ↦ (hitems c hc).reads) rfl ?_
  refine Node.fill_optional (fun _ ↦ rfl) (fun cs hcs ↦ reads_nodeList (hprefixItems cs hcs)) rfl ?_
  refine Node.fill_optional (fun _ ↦ rfl) (fun cs hcs ↦ reads_nodeList (hallOf cs hcs)) rfl ?_
  refine Node.fill_optional (fun _ ↦ rfl) (fun cs hcs ↦ reads_nodeList (honeOf cs hcs)) rfl ?_
  refine Node.fill_optional (fun _ ↦ rfl) (fun cs hcs ↦ reads_nodeList (hanyOf cs hcs)) rfl ?_
  refine Node.fill_same (fun _ ↦ rfl) (fun d hd ↦ reads_discriminator (h.mapping d hd)) rfl ?_
  refine Node.fill_same (fun _ ↦ rfl) (fun vs hvs ↦ Node.reads_values (h.enum vs hvs)) rfl ?_
  refine Node.fill_same (fun _ ↦ rfl) (fun ts _ ↦ Node.reads_texts ts) rfl ?_
  refine Node.fill_same (fun _ ↦ rfl) (fun ts _ ↦ Node.reads_texts ts) rfl ?_
  refine Node.fill_flag (fun _ ↦ rfl) rfl ?_
  refine Node.fill_flag (fun _ ↦ rfl) rfl ?_
  refine Node.fill_value (fun _ ↦ rfl) h.const rfl ?_
  refine Node.fill_text (fun _ ↦ rfl) rfl ?_
  exact congrArg pure (reread_eq s).symm

/-- A schema or reference that has no key twice survives, save for what is null in it. -/
theorem survives {c : RefOr Schema} (h : (nodeValue c).Distinct) : Survives c := by
  induction c using RefOr.of_parts with
  | href path =>
    rw [Survives, rereadNode_ref, nodeValue]
    exact RefOr.ofNode_reference path _
  | hinline s ih =>
    have hs := distinct_nodeValue_inline.1 h
    rw [Survives, rereadNode_inline, nodeValue]
    exact RefOr.ofNode_inline (inlines_toValue s)
      (ofNode_toValue_of_parts hs fun c hc ↦ ih c hc (hs.parts c hc))

theorem ofNode_toValue {s : Schema} (h : s.toValue.Distinct) :
    ofNode (ofValue s.toValue) = pure s.reread :=
  ofNode_toValue_of_parts (distinct_toValue.1 h) fun c hc ↦
    survives ((distinct_toValue.1 h).parts c hc)

end Schema

end ApiClient
