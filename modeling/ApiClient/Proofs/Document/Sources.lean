import ApiClient.Document.Source
import ApiClient.Proofs.Document.Finite
import ApiClient.Proofs.Document.Rewriting

/-!
# Documents that were read

Reading puts a key into a table once and an object into a value with each key once, whatever the
text. A default or a constant that is null can only come from an infinity or from what is no number,
so a document that is read from a tree without them has none.
-/

namespace ApiClient

open Json (Value)
open Schema (nodeValue)

/-! ## Values -/

namespace Node

theorem distinct_of_scalarValue {s : Scalar} {v : Value} (h : scalarValue s = .ok v) :
    v.Distinct := by
  cases s with
  | null | nonFinite =>
    cases h
    exact .null
  | bool b =>
    cases h
    exact .bool b
  | num n =>
    cases h
    exact .num n
  | negativeZero =>
    cases h
    exact .num _
  | str t =>
    cases h
    exact .str t
  | _ => cases h

mutual

/-- Every object that is read as a value has each key once. -/
theorem distinct_of_value : (n : Node) → (v : Value) → n.value.Gives v → v.Distinct
  | .scalar s, v, h => by
    obtain ⟨t, -, h⟩ := h.of_bind
    exact distinct_of_scalarValue h.of_lift
  | .seq items stop positional, v, h => by
    obtain ⟨vs, hvs, h⟩ := h.of_bind
    obtain ⟨-, -, h⟩ := h.of_bind
    cases h.of_pure
    exact .arr (distinct_of_valueItems items vs hvs)
  | .map members stop, v, h => by
    obtain ⟨vs, hvs, h⟩ := h.of_bind
    obtain ⟨-, -, h⟩ := h.of_bind
    cases h.of_pure
    exact .obj (Table.nodup_ofPairs vs) fun m hm ↦
      distinct_of_valueMembers members vs hvs m (Table.mem_of_mem_ofPairs hm)
  | .labelled node, v, h => h.of_throw.elim
  | .shared node, v, h => by
    obtain ⟨-, -, h⟩ := h.of_bind
    exact distinct_of_value node v h
  | .bad fault skipped, v, h => h.of_throw.elim

theorem distinct_of_valueItems : (items : List Node) → (vs : List Value) →
    (valueItems items).Gives vs → ∀ v ∈ vs, v.Distinct
  | [], vs, h => by
    cases h.of_pure
    simp
  | n :: rest, vs, h => by
    obtain ⟨v, hv, h⟩ := h.of_bind
    obtain ⟨others, hothers, h⟩ := h.of_bind
    cases h.of_pure
    exact List.forall_mem_cons.2
      ⟨distinct_of_value n v hv, distinct_of_valueItems rest others hothers⟩

theorem distinct_of_valueMembers : (members : List (Node × Node)) → (vs : List (String × Value)) →
    (valueMembers members).Gives vs → ∀ m ∈ vs, m.2.Distinct
  | [], vs, h => by
    cases h.of_pure
    simp
  | (k, n) :: rest, vs, h => by
    obtain ⟨key, -, h⟩ := h.of_bind
    obtain ⟨v, hv, h⟩ := h.of_bind
    obtain ⟨others, hothers, h⟩ := h.of_bind
    cases h.of_pure
    exact List.forall_mem_cons.2
      ⟨distinct_of_value n v hv, distinct_of_valueMembers rest others hothers⟩

end

end Node

namespace Node

variable {α : Type}

theorem not_absent_of_optional {node : Node} {reading : Read α} {a : α}
    (h : (node.optional reading).Gives (some a)) : node.isAbsent = .ok false := by
  obtain ⟨absent, habsent, h⟩ := h.of_bind
  cases absent with
  | false => exact habsent.of_lift
  | true =>
    obtain ⟨-, -, h⟩ := h.of_bind
    cases h.of_pure

theorem nodup_of_table {node : Node} {read : (n : Node) → sizeOf n < sizeOf node → Read α}
    {table : Table α} (h : (node.table read).Gives table) : table.keys.Nodup := by
  obtain ⟨-, -, h⟩ := h.of_bind
  split at h
  · obtain ⟨as, -, h⟩ := h.of_bind
    obtain ⟨-, -, h⟩ := h.of_bind
    cases h.of_pure
    exact Table.nodup_ofPairs as
  · cases h.of_pure
    exact List.nodup_nil
  · exact h.of_throw.elim
  · exact h.of_throw.elim

/-- What is known of a schema or reference that was read below a node. -/
structure Yields (n : Node) (c : RefOr Schema) : Prop where
  distinct : (nodeValue c).Distinct
  noNull : n.InJson → c.NoNull

/-- What is known of a value that was read as a default or constant below a node. -/
structure YieldsValue (n : Node) (v : Value) : Prop where
  distinct : v.Distinct
  ne_null : n.InJson → v ≠ .null

theorem distinct_of_values {n : Node} {vs : List Value} (h : n.values.Gives vs) :
    ∀ v ∈ vs, v.Distinct := by
  intro v hv
  obtain ⟨m, _, -, hread⟩ := mem_of_list h hv
  exact distinct_of_value m v hread

variable {node n : Node} (hn : node.Child n)

include hn

theorem Yields.below {c : RefOr Schema} (h : n.Yields c) : node.Yields c where
  distinct := h.distinct
  noNull hjson := h.noNull (hjson.child hn)

theorem yields_value {v? : Option Value} (h : (n.optional n.value).Gives v?) :
    ∀ v ∈ v?, node.YieldsValue v := by
  rintro v rfl
  have hv := gives_of_optional h
  exact ⟨distinct_of_value n v hv,
    fun hjson ↦ (hjson.child hn).ne_null (not_absent_of_optional h) hv⟩

end Node

/-! ## Schemas -/

namespace Schema

open Node (optional Yields YieldsValue)

/-- What is known of the parts of a schema that was read from a node, keyword by keyword. -/
structure Sound (n : Node) (s : Schema) : Prop where
  default : ∀ v ∈ s.default, n.YieldsValue v
  properties : ∀ ps ∈ s.properties, (Table.keys ps).Nodup ∧ ∀ p ∈ ps, n.Yields p.2
  additional : ∀ c, s.additional = some (.schema c) → n.Yields c
  items : ∀ c ∈ s.items, n.Yields c
  prefixItems : ∀ cs ∈ s.prefixItems, ∀ c ∈ cs, n.Yields c
  allOf : ∀ cs ∈ s.allOf, ∀ c ∈ cs, n.Yields c
  oneOf : ∀ cs ∈ s.oneOf, ∀ c ∈ cs, n.Yields c
  anyOf : ∀ cs ∈ s.anyOf, ∀ c ∈ cs, n.Yields c
  mapping : ∀ d ∈ s.discriminator, (Table.keys d.mapping).Nodup
  enum : ∀ vs ∈ s.enum, ∀ v ∈ vs, v.Distinct
  const : ∀ v ∈ s.const, n.YieldsValue v

theorem Sound.yields {n : Node} {s : Schema} (h : s.Sound n) : n.Yields (.inline s) := by
  have hparts : ∀ c, s.Part c → n.Yields c := forall_part.2
    ⟨fun ps hps ↦ (h.properties ps hps).2, h.additional, h.items, h.prefixItems, h.allOf, h.oneOf,
      h.anyOf⟩
  constructor
  · exact distinct_nodeValue_inline.2 ⟨fun v hv ↦ (h.default v hv).distinct,
      fun ps hps ↦ (h.properties ps hps).1, h.mapping, h.enum, fun v hv ↦ (h.const v hv).distinct,
      fun c hc ↦ (hparts c hc).distinct⟩
  · exact fun hjson ↦ .inline (fun heq ↦ (h.default _ heq).ne_null hjson rfl)
      (fun heq ↦ (h.const _ heq).ne_null hjson rfl) fun c hc ↦ (hparts c hc).noNull hjson

section

variable {node n : Node}

theorem yields_refOr {c : RefOr Schema} (ih : ∀ s, (ofNode n).Gives s → n.Yields (.inline s))
    (h : (RefOr.ofNode n (ofNode n)).Gives c) : n.Yields c := by
  unfold RefOr.ofNode at h
  split at h
  · cases h.of_pure
    exact ⟨distinct_nodeValue_ref _, fun _ ↦ .ref _⟩
  next s _ hs =>
    cases h.of_pure
    exact ih s (.of_result hs)
  · exact h.of_throw.elim

variable (hn : node.Child n)

include hn

theorem yields_optional {c? : Option (RefOr Schema)}
    (ih : ∀ s, (ofNode n).Gives s → n.Yields (.inline s))
    (h : (optional n (RefOr.ofNode n (ofNode n))).Gives c?) : ∀ c ∈ c?, node.Yields c := by
  rintro c rfl
  exact (yields_refOr ih (Node.gives_of_optional h)).below hn

theorem yields_list {cs? : Option (List (RefOr Schema))}
    (ih : ∀ m, sizeOf m < sizeOf n → ∀ s, (ofNode m).Gives s → m.Yields (.inline s))
    (h : (optional n (n.list fun c _ ↦ RefOr.ofNode c (ofNode c))).Gives cs?) :
    ∀ cs ∈ cs?, ∀ c ∈ cs, node.Yields c := by
  rintro cs rfl c hc
  obtain ⟨m, hm, hchild, hread⟩ := Node.mem_of_list (Node.gives_of_optional h) hc
  exact ((yields_refOr (ih m hm) hread).below hchild).below hn

theorem yields_table {ps? : Option (List (String × RefOr Schema))}
    (ih : ∀ m, sizeOf m < sizeOf n → ∀ s, (ofNode m).Gives s → m.Yields (.inline s))
    (h : (optional n (n.table fun c _ ↦ RefOr.ofNode c (ofNode c))).Gives ps?) :
    ∀ ps ∈ ps?, (Table.keys ps).Nodup ∧ ∀ p ∈ ps, node.Yields p.2 := by
  rintro ps rfl
  have hps := Node.gives_of_optional h
  refine ⟨Node.nodup_of_table hps, fun p hp ↦ ?_⟩
  obtain ⟨m, hm, hchild, -, hread⟩ := Node.mem_of_table hps hp
  exact ((yields_refOr (ih m hm) hread).below hchild).below hn

end

theorem nodup_of_discriminator {node : Node} {d : Discriminator}
    (h : (Discriminator.ofNode node).Gives d) : (Table.keys d.mapping).Nodup := by
  refine Node.record_of (fun d : Discriminator ↦ (Table.keys d.mapping).Nodup) ?_
    (by simp [Table.keys]) h
  intro key n hn d d' hchild hd h
  split at h
  · obtain ⟨property, -, h⟩ := h.of_bind
    cases h.of_pure
    exact hd
  · obtain ⟨mapping, hmapping, h⟩ := h.of_bind
    cases h.of_pure
    exact Node.nodup_of_table hmapping
  · cases h.of_pure
    exact hd

theorem yields_of_ofNode {node : Node} {s : Schema} (h : (ofNode node).Gives s) :
    node.Yields (.inline s) := by
  induction hsize : sizeOf node using Nat.strongRecOn generalizing node s with
  | ind size ih =>
  subst hsize
  have hsmall : ∀ m : Node, sizeOf m < sizeOf node → ∀ s, (ofNode m).Gives s →
      m.Yields (.inline s) := fun m hm s hs ↦ ih _ hm hs rfl
  rw [ofNode] at h
  refine Sound.yields (Node.record_of (Sound node) ?_ (by constructor <;> simp) h)
  intro key n hn s s' hchild hs h
  have hbelow := fun m (hm : sizeOf m < sizeOf n) ↦ hsmall m (Nat.lt_trans hm hn)
  split at h
  case h_23 =>
    cases h.of_pure
    exact hs
  all_goals
    obtain ⟨x, hx, h⟩ := h.of_bind
    cases h.of_pure
  case h_5 => exact { hs with default := Node.yields_value hchild hx }
  case h_7 => exact { hs with properties := yields_table hchild hbelow hx }
  case h_9 =>
    refine { hs with additional := ?_ }
    rintro c rfl
    have ha := Node.gives_of_optional hx
    split at ha
    · cases ha.of_pure
    · obtain ⟨c', hc', ha⟩ := ha.of_bind
      cases ha.of_pure
      exact (yields_refOr (hsmall n hn) hc').below hchild
  case h_10 => exact { hs with items := yields_optional hchild (hsmall n hn) hx }
  case h_11 => exact { hs with prefixItems := yields_list hchild hbelow hx }
  case h_12 => exact { hs with allOf := yields_list hchild hbelow hx }
  case h_13 => exact { hs with oneOf := yields_list hchild hbelow hx }
  case h_14 => exact { hs with anyOf := yields_list hchild hbelow hx }
  case h_15 =>
    refine { hs with mapping := ?_ }
    rintro d rfl
    exact nodup_of_discriminator (Node.gives_of_optional hx)
  case h_16 =>
    refine { hs with enum := ?_ }
    rintro vs rfl
    exact Node.distinct_of_values (Node.gives_of_optional hx)
  case h_21 => exact { hs with const := Node.yields_value hchild hx }
  all_goals exact { hs with }

end Schema

/-! ## Operations and documents -/

/-- What is known of an object that was read, by its value and the schemas in it: it has every key
once, and no default and no constant is null if it was read from what is as it should be. -/
structure SoundIf (fine : Prop) (v : Value) (cs : List (RefOr Schema)) : Prop where
  distinct : v.Distinct
  noNull : fine → ∀ c ∈ cs, c.NoNull

theorem SoundIf.mono {fine finer : Prop} {v : Value} {cs : List (RefOr Schema)}
    (h : SoundIf fine v cs) (himp : finer → fine) : SoundIf finer v cs :=
  ⟨h.distinct, fun hfiner ↦ h.noNull (himp hfiner)⟩

/-- What is known of the media types that were read from a node. -/
abbrev Node.SoundMedia (n : Node) (content : Table MediaType) : Prop :=
  SoundIf n.InJson (tableOfValues MediaType.toValue content) (Media.nodes content)

theorem Node.soundMedia_nil (n : Node) : n.SoundMedia [] where
  distinct := .obj List.nodup_nil nofun
  noNull _ := by simp [Media.nodes]

theorem Media.distinct_iff {content : Table MediaType} :
    (tableOfValues MediaType.toValue content).Distinct ↔ Media.Distinct content := by
  simp [Media.Distinct]

section

variable {node : Node}

theorem Schema.yields_of_nodeOf {c : RefOr Schema} (h : (nodeOf node).Gives c) : node.Yields c :=
  yields_refOr (fun _ ↦ yields_of_ofNode) h

theorem MediaType.yields_of_ofNode {m : MediaType} (h : (ofNode node).Gives m) :
    ∀ c ∈ m.schema, node.Yields c := by
  refine Node.record_of (fun m : MediaType ↦ ∀ c ∈ m.schema, node.Yields c) ?_ (by simp) h
  intro key n hn m m' hchild hm h
  split at h
  · obtain ⟨schema, hschema, h⟩ := h.of_bind
    cases h.of_pure
    rintro c rfl
    exact (Schema.yields_of_nodeOf (Node.gives_of_optional hschema)).below hchild
  · cases h.of_pure
    exact hm

theorem MediaType.sound_of_tableOf {content : Table MediaType} (h : (tableOf node).Gives content) :
    node.SoundMedia content := by
  have hyields : ∀ e ∈ content, ∀ c ∈ e.2.schema, node.Yields c := by
    intro e he c hc
    obtain ⟨m, _, hchild, -, hread⟩ := Node.mem_of_table h he
    exact (yields_of_ofNode hread c hc).below hchild
  constructor
  · exact Media.distinct_iff.2
      ⟨Node.nodup_of_table h, fun e he c hc ↦ (hyields e he c hc).distinct⟩
  · intro hjson c hc
    obtain ⟨e, he, hc⟩ := List.mem_flatMap.1 hc
    exact (hyields e he c (Option.mem_toList.1 hc)).noNull hjson

theorem Parameter.sound_of_ofNode {p : Parameter} (h : (ofNode node).Gives p) :
    SoundIf node.InJson p.toValue p.nodes := by
  have hparts : (∀ c ∈ p.schema, node.Yields c) ∧ node.SoundMedia p.content := by
    refine Node.record_of (fun p : Parameter ↦
      (∀ c ∈ p.schema, node.Yields c) ∧ node.SoundMedia p.content) ?_
      ⟨by simp, node.soundMedia_nil⟩ h
    rintro key n hn p p' hchild ⟨hschema, hcontent⟩ h
    split at h
    case h_9 =>
      cases h.of_pure
      exact ⟨hschema, hcontent⟩
    all_goals
      obtain ⟨x, hx, h⟩ := h.of_bind
      cases h.of_pure
    case h_5 =>
      refine ⟨?_, hcontent⟩
      rintro c rfl
      exact (Schema.yields_of_nodeOf (Node.gives_of_optional hx)).below hchild
    case h_6 => exact ⟨hschema, (MediaType.sound_of_tableOf hx).mono (·.child hchild)⟩
    all_goals exact ⟨hschema, hcontent⟩
  constructor
  · exact distinct_toValue.2
      ⟨fun c hc ↦ (hparts.1 c hc).distinct, Media.distinct_iff.1 hparts.2.distinct⟩
  · exact fun hjson ↦ List.forall_mem_append.2
      ⟨fun c hc ↦ (hparts.1 c (Option.mem_toList.1 hc)).noNull hjson, hparts.2.noNull hjson⟩

theorem RequestBody.sound_of_ofNode {b : RequestBody} (h : (ofNode node).Gives b) :
    SoundIf node.InJson b.toValue b.nodes := by
  have hcontent : node.SoundMedia b.content := by
    refine Node.record_of (fun b : RequestBody ↦ node.SoundMedia b.content) ?_
      node.soundMedia_nil h
    intro key n hn b b' hchild hb h
    split at h
    case h_4 =>
      cases h.of_pure
      exact hb
    all_goals
      obtain ⟨x, hx, h⟩ := h.of_bind
      cases h.of_pure
    case h_2 => exact (MediaType.sound_of_tableOf hx).mono (·.child hchild)
    all_goals exact hb
  exact ⟨distinct_toValue.2 (Media.distinct_iff.1 hcontent.distinct), hcontent.noNull⟩

theorem Response.sound_of_ofNode {r : Response} (h : (ofNode node).Gives r) :
    SoundIf node.InJson r.toValue r.nodes := by
  have hcontent : node.SoundMedia r.content := by
    refine Node.record_of (fun r : Response ↦ node.SoundMedia r.content) ?_
      node.soundMedia_nil h
    intro key n hn r r' hchild hr h
    split at h
    · obtain ⟨x, hx, h⟩ := h.of_bind
      cases h.of_pure
      exact hr
    · obtain ⟨x, hx, h⟩ := h.of_bind
      cases h.of_pure
      exact (MediaType.sound_of_tableOf hx).mono (·.child hchild)
    · cases h.of_pure
      exact hr
  exact ⟨distinct_toValue.2 (Media.distinct_iff.1 hcontent.distinct), hcontent.noNull⟩

theorem RefOr.sound_of_read {α : Type} {reading : Node → Read α} {write : α → Value}
    {inner : α → List (RefOr Schema)}
    (hread : ∀ n a, (reading n).Gives a → SoundIf n.InJson (write a) (inner a)) {c : RefOr α}
    (h : (read reading node).Gives c) : SoundIf node.Finite (c.toValue write) (c.nodes inner) := by
  obtain ⟨m, hm, h⟩ := h.of_bind
  unfold ofNode at h
  split at h
  · cases h.of_pure
    exact ⟨distinct_referenceValue _, by simp [nodes]⟩
  next a _ ha =>
    cases h.of_pure
    have hsound := hread m a (.of_result ha)
    exact ⟨hsound.distinct, fun hjson ↦ hsound.noNull (Node.Finite.settled node hjson m hm)⟩
  · exact h.of_throw.elim

theorem RefOr.sound_of_readNode {c : RefOr Schema} (h : (read Schema.ofNode node).Gives c) :
    SoundIf node.Finite (Schema.nodeValue c) [c] := by
  obtain ⟨m, hm, h⟩ := h.of_bind
  have hyields := Schema.yields_of_nodeOf h
  refine ⟨hyields.distinct, fun hfinite ↦ List.forall_mem_singleton.2 ?_⟩
  exact hyields.noNull (Node.Finite.settled node hfinite m hm)

theorem Parameter.sound_of_listOf {ps : List (RefOr Parameter)} (h : (listOf node).Gives ps) :
    ∀ p ∈ ps, SoundIf node.Finite (p.toValue toValue) (p.nodes nodes) := by
  intro p hp
  obtain ⟨m, _, hchild, hread⟩ := Node.mem_of_list h hp
  exact (RefOr.sound_of_read (fun _ _ ↦ sound_of_ofNode) hread).mono (·.child hchild)

/-- What stands directly in an operation is sound, if the node that it is read from is finite. -/
structure Operation.SoundParts (node : Node) (op : Operation) : Prop where
  parameters : ∀ p ∈ op.parameters,
    SoundIf node.Finite (p.toValue Parameter.toValue) (p.nodes Parameter.nodes)
  body : ∀ b ∈ op.body,
    SoundIf node.Finite (b.toValue RequestBody.toValue) (b.nodes RequestBody.nodes)
  responses : ∀ rs ∈ op.responses, rs.keys.Nodup ∧ ∀ e ∈ rs,
    SoundIf node.Finite (e.2.toValue Response.toValue) (e.2.nodes Response.nodes)

theorem Operation.sound_of_ofNode {op : Operation} (h : (ofNode node).Gives op) :
    SoundIf node.Finite op.toValue op.nodes := by
  have hparts : op.SoundParts node := by
    refine Node.record_of (SoundParts node) ?_ (by constructor <;> simp) h
    rintro key n hn op op' hchild ⟨hparameters, hbody, hresponses⟩ h
    split at h
    case h_9 =>
      cases h.of_pure
      exact ⟨hparameters, hbody, hresponses⟩
    all_goals
      obtain ⟨x, hx, h⟩ := h.of_bind
      cases h.of_pure
    case h_5 =>
      refine ⟨fun p hp ↦ ?_, hbody, hresponses⟩
      exact (Parameter.sound_of_listOf hx p hp).mono (·.child hchild)
    case h_6 =>
      refine ⟨hparameters, ?_, hresponses⟩
      rintro b rfl
      have hb := Node.gives_of_optional hx
      exact (RefOr.sound_of_read (fun _ _ ↦ RequestBody.sound_of_ofNode) hb).mono (·.child hchild)
    case h_7 =>
      refine ⟨hparameters, hbody, ?_⟩
      rintro rs rfl
      have hrs := Node.gives_of_optional hx
      refine ⟨Node.nodup_of_table hrs, fun e he ↦ ?_⟩
      obtain ⟨m, _, hm, -, hread⟩ := Node.mem_of_table hrs he
      have he := RefOr.sound_of_read (fun _ _ ↦ Response.sound_of_ofNode) hread
      exact (he.mono (·.child hm)).mono (·.child hchild)
    all_goals exact ⟨hparameters, hbody, hresponses⟩
  obtain ⟨hparameters, hbody, hresponses⟩ := hparts
  constructor
  · exact distinct_toValue.2 ⟨fun p hp ↦ (hparameters p hp).distinct,
      fun b hb ↦ (hbody b hb).distinct,
      fun rs hrs ↦ ⟨(hresponses rs hrs).1, fun e he ↦ ((hresponses rs hrs).2 e he).distinct⟩⟩
  · intro hjson
    simp only [nodes, Parameter.nodesOfList, List.forall_mem_append, List.forall_mem_flatMap,
      Option.mem_toList, and_assoc]
    exact ⟨fun p hp ↦ (hparameters p hp).noNull hjson, fun b hb ↦ (hbody b hb).noNull hjson,
      fun rs hrs e he ↦ ((hresponses rs hrs).2 e he).noNull hjson⟩

theorem PathItem.sound_of_ofNode {item : PathItem} (h : (ofNode node).Gives item) :
    SoundIf node.Finite item.toValue item.nodes := by
  have hparts : (∀ p ∈ item.parameters, SoundIf node.Finite (p.toValue Parameter.toValue)
        (p.nodes Parameter.nodes)) ∧
      ∀ m, ∀ op ∈ item.operation m, SoundIf node.Finite op.toValue op.nodes := by
    refine Node.record_of (fun item : PathItem ↦
      (∀ p ∈ item.parameters, SoundIf node.Finite (p.toValue Parameter.toValue)
          (p.nodes Parameter.nodes)) ∧
        ∀ m, ∀ op ∈ item.operation m, SoundIf node.Finite op.toValue op.nodes)
      ?_ (by simp) h
    rintro key n hn item item' hchild ⟨hparameters, hoperations⟩ h
    split at h
    case h_5 =>
      cases h.of_pure
      exact ⟨hparameters, hoperations⟩
    all_goals
      obtain ⟨x, hx, h⟩ := h.of_bind
      cases h.of_pure
    case h_3 =>
      exact ⟨fun p hp ↦ (Parameter.sound_of_listOf hx p hp).mono (·.child hchild), hoperations⟩
    case h_4 method _ _ _ _ =>
      refine ⟨hparameters, fun m op hop ↦ ?_⟩
      dsimp only at hop
      split at hop
      · obtain rfl := hop
        exact (Operation.sound_of_ofNode (Node.gives_of_optional hx)).mono (·.child hchild)
      · exact hoperations m op hop
    all_goals exact ⟨hparameters, hoperations⟩
  obtain ⟨hparameters, hoperations⟩ := hparts
  constructor
  · exact distinct_toValue.2 ⟨fun p hp ↦ (hparameters p hp).distinct,
      fun m _ op hop ↦ (hoperations m op hop).distinct⟩
  · intro hjson
    simp only [nodes, Parameter.nodesOfList, List.forall_mem_append, List.forall_mem_flatMap,
      Option.mem_toList]
    exact ⟨fun p hp ↦ (hparameters p hp).noNull hjson,
      fun m _ op hop ↦ (hoperations m op hop).noNull hjson⟩

theorem ServerVariable.distinct_of_ofNode {v : ServerVariable} (h : (ofNode node).Gives v) :
    v.toValue.Distinct := by
  refine distinct_toValue.2 ?_
  refine Node.record_of (fun v : ServerVariable ↦
    v.default.Distinct ∧ ∀ w ∈ v.values, w.Distinct) ?_ ⟨.null, by simp⟩ h
  rintro key n hn v v' hchild ⟨hdefault, hvalues⟩ h
  split at h
  case h_4 =>
    cases h.of_pure
    exact ⟨hdefault, hvalues⟩
  all_goals
    obtain ⟨x, hx, h⟩ := h.of_bind
    cases h.of_pure
  case h_1 => exact ⟨Node.distinct_of_value n x hx, hvalues⟩
  case h_3 => exact ⟨hdefault, Node.distinct_of_values hx⟩
  all_goals exact ⟨hdefault, hvalues⟩

theorem Server.distinct_of_ofNode {server : Server} (h : (ofNode node).Gives server) :
    server.toValue.Distinct := by
  refine distinct_toValue.2 ?_
  refine Node.record_of (fun server : Server ↦
    server.vars.keys.Nodup ∧ ∀ e ∈ server.vars, e.2.toValue.Distinct) ?_
    (by simp [Table.keys]) h
  rintro key n hn server server' hchild hvars h
  split at h
  case h_4 =>
    cases h.of_pure
    exact hvars
  all_goals
    obtain ⟨x, hx, h⟩ := h.of_bind
    cases h.of_pure
  case h_3 =>
    refine ⟨Node.nodup_of_table hx, fun e he ↦ ?_⟩
    obtain ⟨m, _, -, -, hread⟩ := Node.mem_of_table hx he
    exact ServerVariable.distinct_of_ofNode hread
  all_goals exact hvars

/-- What is known of the components of one kind that were read from a node. -/
theorem RefOr.sound_of_table {α : Type} {reading : Node → Read α} {write : α → Value}
    {inner : α → List (RefOr Schema)}
    (hread : ∀ n a, (reading n).Gives a → SoundIf n.InJson (write a) (inner a))
    {table : Table (RefOr α)} (h : (node.table fun n _ ↦ read reading n).Gives table) :
    table.keys.Nodup ∧ ∀ e ∈ table, SoundIf node.Finite (e.2.toValue write) (e.2.nodes inner) := by
  refine ⟨Node.nodup_of_table h, fun e he ↦ ?_⟩
  obtain ⟨m, _, hchild, -, hm⟩ := Node.mem_of_table h he
  exact (sound_of_read hread hm).mono (·.child hchild)

/-- What is known of the parts of components that were read from a node, kind by kind. -/
structure Components.Sound (n : Node) (c : Components) : Prop where
  schemas : c.schemas.keys.Nodup ∧ ∀ e ∈ c.schemas, SoundIf n.Finite (Schema.nodeValue e.2) [e.2]
  responses : c.responses.keys.Nodup ∧
    ∀ e ∈ c.responses, SoundIf n.Finite (e.2.toValue Response.toValue) (e.2.nodes Response.nodes)
  parameters : c.parameters.keys.Nodup ∧
    ∀ e ∈ c.parameters, SoundIf n.Finite (e.2.toValue Parameter.toValue) (e.2.nodes Parameter.nodes)
  bodies : c.bodies.keys.Nodup ∧
    ∀ e ∈ c.bodies, SoundIf n.Finite (e.2.toValue RequestBody.toValue) (e.2.nodes RequestBody.nodes)

theorem Components.sound_of_ofNode {c : Components} (h : (ofNode node).Gives c) :
    SoundIf node.Finite c.toValue c.nodes := by
  have hparts : c.Sound node := by
    refine Node.record_of (Sound node) ?_ (by constructor <;> simp [Table.keys]) h
    rintro key n hn c c' hchild hc h
    split at h
    case h_5 =>
      cases h.of_pure
      exact hc
    all_goals
      obtain ⟨x, hx, h⟩ := h.of_bind
      cases h.of_pure
    case h_1 =>
      refine { hc with schemas := ⟨Node.nodup_of_table hx, fun e he ↦ ?_⟩ }
      obtain ⟨m, _, hm, -, hread⟩ := Node.mem_of_table hx he
      exact ((RefOr.sound_of_readNode hread).mono (·.child hm)).mono (·.child hchild)
    case h_2 =>
      obtain ⟨hkeys, hx⟩ := RefOr.sound_of_table (fun _ _ ↦ Response.sound_of_ofNode) hx
      exact { hc with responses := ⟨hkeys, fun e he ↦ (hx e he).mono (·.child hchild)⟩ }
    case h_3 =>
      obtain ⟨hkeys, hx⟩ := RefOr.sound_of_table (fun _ _ ↦ Parameter.sound_of_ofNode) hx
      exact { hc with parameters := ⟨hkeys, fun e he ↦ (hx e he).mono (·.child hchild)⟩ }
    case h_4 =>
      obtain ⟨hkeys, hx⟩ := RefOr.sound_of_table (fun _ _ ↦ RequestBody.sound_of_ofNode) hx
      exact { hc with bodies := ⟨hkeys, fun e he ↦ (hx e he).mono (·.child hchild)⟩ }
  constructor
  · exact distinct_toValue.2 ⟨
      ⟨hparts.schemas.1, fun e he ↦ (hparts.schemas.2 e he).distinct⟩,
      ⟨hparts.responses.1, fun e he ↦ (hparts.responses.2 e he).distinct⟩,
      ⟨hparts.parameters.1, fun e he ↦ (hparts.parameters.2 e he).distinct⟩,
      ⟨hparts.bodies.1, fun e he ↦ (hparts.bodies.2 e he).distinct⟩⟩
  · intro hjson
    simp only [nodes, Table.values, List.forall_mem_append, List.forall_mem_map,
      List.forall_mem_flatMap, and_assoc]
    exact ⟨fun e he ↦ List.forall_mem_singleton.1 ((hparts.schemas.2 e he).noNull hjson),
      fun e he ↦ (hparts.responses.2 e he).noNull hjson,
      fun e he ↦ (hparts.parameters.2 e he).noNull hjson,
      fun e he ↦ (hparts.bodies.2 e he).noNull hjson⟩

/-- A document that is read has every key once, and if it is read from JSON, then no default and no
constant in it is null. -/
theorem Spec.sound_of_ofNode {spec : Spec} (h : (ofNode node).Gives spec) :
    SoundIf node.Finite spec.toValue spec.nodes := by
  have hparts : (∀ s ∈ spec.servers, s.toValue.Distinct) ∧
      (spec.paths.keys.Nodup ∧ ∀ e ∈ spec.paths, SoundIf node.Finite e.2.toValue e.2.nodes) ∧
      ∀ c ∈ spec.components, SoundIf node.Finite c.toValue c.nodes := by
    refine Node.record_of (fun spec : Spec ↦ (∀ s ∈ spec.servers, s.toValue.Distinct) ∧
      (spec.paths.keys.Nodup ∧ ∀ e ∈ spec.paths, SoundIf node.Finite e.2.toValue e.2.nodes) ∧
      ∀ c ∈ spec.components, SoundIf node.Finite c.toValue c.nodes) ?_ (by simp [Table.keys]) h
    rintro key n hn spec spec' hchild ⟨hservers, hpaths, hcomponents⟩ h
    split at h
    case h_7 =>
      cases h.of_pure
      exact ⟨hservers, hpaths, hcomponents⟩
    all_goals
      obtain ⟨x, hx, h⟩ := h.of_bind
      cases h.of_pure
    case h_3 =>
      refine ⟨fun s hs ↦ ?_, hpaths, hcomponents⟩
      obtain ⟨m, _, -, hread⟩ := Node.mem_of_list hx hs
      exact Server.distinct_of_ofNode hread
    case h_4 =>
      refine ⟨hservers, ⟨Node.nodup_of_table hx, fun e he ↦ ?_⟩, hcomponents⟩
      obtain ⟨m, _, hm, -, hread⟩ := Node.mem_of_table hx he
      exact ((PathItem.sound_of_ofNode hread).mono (·.child hm)).mono (·.child hchild)
    case h_5 =>
      refine ⟨hservers, hpaths, ?_⟩
      rintro c rfl
      exact (Components.sound_of_ofNode (Node.gives_of_optional hx)).mono (·.child hchild)
    all_goals exact ⟨hservers, hpaths, hcomponents⟩
  obtain ⟨hservers, hpaths, hcomponents⟩ := hparts
  constructor
  · exact distinct_toValue.2 ⟨hservers, ⟨hpaths.1, fun e he ↦ (hpaths.2 e he).distinct⟩,
      fun c hc ↦ (hcomponents c hc).distinct⟩
  · intro hjson
    simp only [nodes, List.forall_mem_append, List.forall_mem_flatMap, Option.mem_toList]
    exact ⟨fun e he ↦ (hpaths.2 e he).noNull hjson, fun c hc ↦ (hcomponents c hc).noNull hjson⟩

end

/-! ## Documents in JSON and in YAML -/

namespace Spec

variable {text : String} {spec : Spec}

theorem eq_of_checkVersion {read : Spec} (h : read.checkVersion = .ok spec) : read = spec := by
  unfold checkVersion at h
  split at h
  · cases h
    rfl
  · cases h

theorem ofNode_of_ofJson (h : ofJson text = .ok spec) :
    (ofNode (Json.document text).1).Gives spec := by
  unfold ofJson at h
  split at h
  next node after hdocument =>
    rw [hdocument]
    split at h
    · cases h
    · cases h
    next read hread =>
      cases eq_of_checkVersion h
      exact .of_result hread

theorem ofNode_of_ofYaml (h : ofYaml text = .ok spec) :
    ∃ doc, Yaml.Document.ofText text = some doc ∧ (ofNode doc.node).Gives spec := by
  unfold ofYaml at h
  split at h
  next read hread =>
    cases eq_of_checkVersion h
    obtain ⟨doc, hdoc, hread⟩ := Option.bind_eq_some_iff.1 hread
    exact ⟨doc, hdoc, .of_toOption hread⟩
  · cases h

theorem sound_of_ofJson (h : ofJson text = .ok spec) : SoundIf True spec.toValue spec.nodes :=
  (sound_of_ofNode (ofNode_of_ofJson h)).mono fun _ ↦ (Json.inJson_document text).finite

theorem sound_of_ofYaml {doc : Yaml.Document} (hdoc : Yaml.Document.ofText text = some doc)
    (h : ofYaml text = .ok spec) : SoundIf doc.node.Finite spec.toValue spec.nodes := by
  obtain ⟨doc', hdoc', hread⟩ := ofNode_of_ofYaml h
  obtain rfl := Option.some.inj (hdoc'.symm.trans hdoc)
  exact sound_of_ofNode hread

/-- No object in a document has a key twice. -/
theorem distinct_of_ofText (h : ofText text = .ok spec) : spec.toValue.Distinct := by
  unfold ofText at h
  split at h
  · exact (sound_of_ofJson h).distinct
  · obtain ⟨doc, hdoc, -⟩ := ofNode_of_ofYaml h
    exact (sound_of_ofYaml hdoc h).distinct

end Spec

end ApiClient
