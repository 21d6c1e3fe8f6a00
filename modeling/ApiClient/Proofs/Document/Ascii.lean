import ApiClient.Proofs.Document.Texts
import ApiClient.Proofs.Text.Ascii

/-!
# ASCII documents

A value is ASCII if all keys and texts in it are. What is read from an ASCII value and written again
is ASCII, so all that the references of an ASCII document lead to is.
-/

namespace ApiClient

open Text (isAscii)

namespace Json

mutual

/-- Whether all keys and texts in a value are ASCII, at any depth. -/
def Value.isAscii : Value → Bool
  | .str s => Text.isAscii s
  | .arr items => itemsAscii items
  | .obj members => membersAscii members
  | .null | .bool _ | .num _ => true

def itemsAscii : List Value → Bool
  | [] => true
  | v :: rest => v.isAscii && itemsAscii rest

def membersAscii : List (String × Value) → Bool
  | [] => true
  | (k, v) :: rest => Text.isAscii k && v.isAscii && membersAscii rest

end

namespace Value

@[simp] theorem isAscii_str {s : String} : (str s).isAscii = Text.isAscii s :=
  rfl

@[simp] theorem isAscii_num {n : Number} : (num n).isAscii :=
  rfl

@[simp] theorem isAscii_bool {b : Bool} : (bool b).isAscii :=
  rfl

@[simp] theorem isAscii_null : null.isAscii :=
  rfl

theorem isAscii_arr {items : List Value} : (arr items).isAscii ↔ ∀ v ∈ items, v.isAscii := by
  rw [isAscii]
  induction items with
  | nil => simp [itemsAscii]
  | cons v rest ih => rw [itemsAscii, Bool.and_eq_true, ih, List.forall_mem_cons]

theorem isAscii_obj {members : List (String × Value)} :
    (obj members).isAscii ↔ ∀ m ∈ members, Text.isAscii m.1 ∧ m.2.isAscii := by
  rw [isAscii]
  induction members with
  | nil => simp [membersAscii]
  | cons m rest ih =>
    rw [membersAscii, Bool.and_eq_true, Bool.and_eq_true, ih, List.forall_mem_cons]

theorem isAscii_of_at? {root v : Value} {names : List String} (h : root.at? names = some v)
    (hroot : root.isAscii) : v.isAscii := by
  induction names generalizing root with
  | nil =>
    cases h
    exact hroot
  | cons name names ih =>
    cases root with
    | obj members =>
      obtain ⟨w, hw, h⟩ := Option.bind_eq_some_iff.1 h
      exact ih h (isAscii_obj.1 hroot _ (Table.mem_of_get? hw)).2
    | arr items =>
      obtain ⟨w, hw, h⟩ := Option.bind_eq_some_iff.1 h
      obtain ⟨i, -, hi⟩ := Option.bind_eq_some_iff.1 hw
      exact ih h (isAscii_arr.1 hroot _ (List.mem_of_getElem? hi))
    | _ => cases h

end Value

end Json

namespace Node

open Json (Value)

/-- A node that stands for an ASCII value. -/
def IsAscii (n : Node) : Prop :=
  ∃ v : Value, n = ofValue v ∧ v.isAscii

namespace IsAscii

variable {n m : Node} {s : String}

theorem child (hn : n.IsAscii) (h : n.Child m) : m.IsAscii := by
  obtain ⟨v, rfl, hv⟩ := hn
  cases v with
  | arr items =>
    cases h with
    | item hbare hm =>
      cases hbare
      obtain ⟨w, hw, rfl⟩ := mem_of_ofItems hm
      exact ⟨w, rfl, Value.isAscii_arr.1 hv w hw⟩
    | member hbare _ => cases hbare
  | obj members =>
    cases h with
    | item hbare _ => cases hbare
    | member hbare hm =>
      cases hbare
      obtain ⟨w, hw, -, heq⟩ := mem_of_ofMembers hm
      exact ⟨w.2, heq, (Value.isAscii_obj.1 hv w hw).2⟩
  | _ =>
    cases h with
    | item hbare _ => cases hbare
    | member hbare _ => cases hbare

theorem text (hn : n.IsAscii) (h : n.text.Gives s) : isAscii s := by
  obtain ⟨v, rfl, hv⟩ := hn
  obtain rfl := eq_of_gives_text h
  rwa [Value.isAscii_str] at hv

theorem holds (hn : n.IsAscii) (h : n.Holds s) : isAscii s := by
  induction h with
  | text h => exact hn.text h
  | child h _ ih => exact ih (hn.child h)

theorem keyed (hn : n.IsAscii) (h : n.Keyed s) : isAscii s := by
  induction h with
  | key hbare hm hk =>
    obtain ⟨v, rfl, hv⟩ := hn
    cases v with
    | obj members =>
      cases hbare
      obtain ⟨w, hw, hkey, -⟩ := mem_of_ofMembers hm
      rw [hkey] at hk
      cases eq_of_gives_text hk
      exact (Value.isAscii_obj.1 hv w hw).1
    | _ => cases hbare
  | child h _ ih => exact ih (hn.child h)

end IsAscii

mutual

theorem ascii_of_value : (v : Value) → v.isAscii → ∀ w, (value (ofValue v)).Gives w → w.isAscii
  | .null, _, w, h => by
    obtain ⟨left, left', h⟩ := h
    cases h
    exact Value.isAscii_null
  | .bool b, _, w, h => by
    obtain ⟨left, left', h⟩ := h
    cases h
    exact Value.isAscii_bool
  | .num n, _, w, h => by
    obtain ⟨left, left', h⟩ := h
    cases h
    exact Value.isAscii_num
  | .str s, hs, w, h => by
    obtain ⟨left, left', h⟩ := h
    cases h
    exact hs
  | .arr items, hitems, w, h => by
    obtain ⟨ws, hws, h⟩ := h.of_bind
    obtain ⟨-, -, h⟩ := h.of_bind
    cases h.of_pure
    exact Value.isAscii_arr.2 (ascii_of_valueItems items (Value.isAscii_arr.1 hitems) ws hws)
  | .obj members, hmembers, w, h => by
    obtain ⟨ws, hws, h⟩ := h.of_bind
    obtain ⟨-, -, h⟩ := h.of_bind
    cases h.of_pure
    refine Value.isAscii_obj.2 fun m hm ↦ ?_
    exact ascii_of_valueMembers members (Value.isAscii_obj.1 hmembers) ws hws m
      (Table.mem_of_mem_ofPairs hm)

theorem ascii_of_valueItems : (items : List Value) → (∀ v ∈ items, v.isAscii) →
    ∀ ws, (valueItems (ofItems items)).Gives ws → ∀ w ∈ ws, w.isAscii
  | [], _, ws, h => by
    cases h.of_pure
    simp
  | v :: rest, hitems, ws, h => by
    obtain ⟨w, hw, h⟩ := h.of_bind
    obtain ⟨others, hothers, h⟩ := h.of_bind
    cases h.of_pure
    rw [List.forall_mem_cons] at hitems ⊢
    exact ⟨ascii_of_value v hitems.1 w hw, ascii_of_valueItems rest hitems.2 others hothers⟩

theorem ascii_of_valueMembers : (members : List (String × Value)) →
    (∀ m ∈ members, isAscii m.1 ∧ m.2.isAscii) →
    ∀ ws, (valueMembers (ofMembers members)).Gives ws → ∀ w ∈ ws, isAscii w.1 ∧ w.2.isAscii
  | [], _, ws, h => by
    cases h.of_pure
    simp
  | (k, v) :: rest, hmembers, ws, h => by
    obtain ⟨key, hkey, h⟩ := h.of_bind
    obtain ⟨w, hw, h⟩ := h.of_bind
    obtain ⟨others, hothers, h⟩ := h.of_bind
    cases h.of_pure
    cases eq_of_gives_text (v := .str k) hkey
    rw [List.forall_mem_cons] at hmembers ⊢
    exact ⟨⟨hmembers.1.1, ascii_of_value v hmembers.1.2 w hw⟩,
      ascii_of_valueMembers rest hmembers.2 others hothers⟩

end

theorem IsAscii.value {n : Node} (hn : n.IsAscii) {v : Value} (h : n.value.Gives v) :
    v.isAscii := by
  obtain ⟨w, rfl, hw⟩ := hn
  exact ascii_of_value w hw v h

end Node

/-! ## Written schemas -/

section

open Json (Value)

theorem ascii_member {key : String} (hkey : isAscii key) {value : Option Value} :
    (∀ m ∈ member key value, isAscii m.1 ∧ m.2.isAscii) ↔ ∀ v ∈ value, v.isAscii := by
  cases value <;> simp [member, hkey]

theorem forall_mem_map {α : Type} {x : Option α} {f : α → Value} :
    (∀ v ∈ x.map f, v.isAscii) ↔ ∀ a ∈ x, (f a).isAscii := by
  cases x <;> simp

theorem ascii_textValue {t? : Option String} :
    (∀ v ∈ textValue t?, v.isAscii) ↔ ∀ t ∈ t?, isAscii t := by
  cases t? <;> simp [textValue]

theorem ascii_flagValue {b? : Option Bool} : ∀ v ∈ flagValue b?, v.isAscii := by
  cases b? <;> simp [flagValue]

theorem ascii_textsValue {ts : List String} : (textsValue ts).isAscii ↔ ∀ t ∈ ts, isAscii t := by
  simp [textsValue, Value.isAscii_arr]

theorem ascii_tableOfValues {α : Type} {write : α → Value} {table : Table α} :
    (tableOfValues write table).isAscii ↔ ∀ e ∈ table, isAscii e.1 ∧ (write e.2).isAscii := by
  rw [tableOfValues, Value.isAscii_obj, List.forall_mem_map]

theorem ascii_tableValue {α : Type} {write : α → Value} {table : Table α} :
    (∀ v ∈ tableValue write table, v.isAscii) ↔
      ∀ e ∈ table, isAscii e.1 ∧ (write e.2).isAscii := by
  rw [tableValue]
  cases table with
  | nil => simp
  | cons e table =>
    rw [List.isEmpty_cons, ← ascii_tableOfValues]
    simp

theorem ascii_typeSet (types : TypeSet) : types.toValue.isAscii := by
  have hword : ∀ name : TypeName, isAscii name.word := by
    intro name
    cases name <;> decide
  cases types with
  | one name => simp [TypeSet.toValue, hword]
  | many names => simp [TypeSet.toValue, Value.isAscii_arr, hword]

theorem ascii_discriminator {d : Discriminator} : d.toValue.isAscii ↔
    (∀ t ∈ d.property, isAscii t) ∧ ∀ e ∈ d.mapping, isAscii e.1 ∧ isAscii e.2 := by
  rw [Discriminator.toValue, Value.isAscii_obj, List.forall_mem_append, ascii_member (by decide),
    ascii_member (by decide), ascii_textValue, ascii_tableValue]
  simp

end

namespace Schema

theorem nodeValues_eq (cs : List (RefOr Schema)) : nodeValues cs = cs.map nodeValue := by
  induction cs with
  | nil => rw [nodeValues, List.map_nil]
  | cons c cs ih => rw [nodeValues, ih, List.map_cons]

theorem membersValue_eq (ps : List (String × RefOr Schema)) :
    .obj (membersValue ps) = tableOfValues nodeValue ps := by
  refine congrArg Json.Value.obj ?_
  induction ps with
  | nil => rw [membersValue, List.map_nil]
  | cons p ps ih => rw [membersValue, ih, List.map_cons]

def additionalValue : Additional Schema → Json.Value
  | .schema c => nodeValue c
  | .allowed b => .bool b

def nodeList (cs : List (RefOr Schema)) : Json.Value := .arr (cs.map nodeValue)

theorem toValue_eq (s : Schema) : s.toValue =
    .obj (member "type" (s.types.map TypeSet.toValue)
      ++ member "format" (textValue s.format)
      ++ member "title" (textValue s.title)
      ++ member "description" (textValue s.description)
      ++ member "default" s.default
      ++ member "nullable" (flagValue s.nullable)
      ++ member "properties" (s.properties.map (tableOfValues nodeValue))
      ++ member "required" (s.required.map textsValue)
      ++ member "additionalProperties" (s.additional.map additionalValue)
      ++ member "items" (s.items.map nodeValue)
      ++ member "prefixItems" (s.prefixItems.map nodeList)
      ++ member "allOf" (s.allOf.map nodeList)
      ++ member "oneOf" (s.oneOf.map nodeList)
      ++ member "anyOf" (s.anyOf.map nodeList)
      ++ member "discriminator" (s.discriminator.map Discriminator.toValue)
      ++ member "enum" (s.enum.map .arr)
      ++ member "x-enumNames" (s.enumNames.map textsValue)
      ++ member "x-enum-varnames" (s.enumVarNames.map textsValue)
      ++ member "readOnly" (flagValue s.readOnly)
      ++ member "writeOnly" (flagValue s.writeOnly)
      ++ member "const" s.const
      ++ member "x-component-ref-path" (textValue s.component)) := by
  rw [toValue]
  refine congrArg Json.Value.obj ?_
  repeat' refine congr (congrArg HAppend.hAppend ?_) ?_
  all_goals try rfl
  all_goals
    refine congrArg (member _) ?_
    split <;> simp [*, nodeList, membersValue_eq, nodeValues_eq, additionalValue]

/-- All texts, keys and values in a schema are ASCII. -/
def IsAscii (s : Schema) : Prop :=
  s.Keywords (fun t ↦ isAscii t) (fun k ↦ isAscii k) (fun c ↦ (nodeValue c).isAscii)
    fun v ↦ v.isAscii

theorem ascii_nodeList {cs : List (RefOr Schema)} :
    (nodeList cs).isAscii ↔ ∀ c ∈ cs, (nodeValue c).isAscii := by
  simp [nodeList, Json.Value.isAscii_arr]

theorem ascii_additional {a? : Option (Additional Schema)} :
    (∀ a ∈ a?, (additionalValue a).isAscii) ↔
      ∀ c, a? = some (.schema c) → (nodeValue c).isAscii := by
  cases a? with
  | none => simp
  | some a => cases a <;> simp [additionalValue]

theorem ascii_discriminators {d? : Option Discriminator} :
    (∀ d ∈ d?, d.toValue.isAscii) ↔ (∀ d ∈ d?, ∀ t ∈ d.property, isAscii t) ∧
      ∀ d ∈ d?, ∀ e ∈ d.mapping, isAscii e.1 ∧ isAscii e.2 := by
  simp only [ascii_discriminator]
  constructor
  · intro h
    exact ⟨fun d hd ↦ (h d hd).1, fun d hd ↦ (h d hd).2⟩
  · rintro ⟨hproperty, hmapping⟩ d hd
    exact ⟨hproperty d hd, hmapping d hd⟩

/-- The written form of a schema is ASCII exactly if all that stands in it is. -/
theorem ascii_toValue {s : Schema} : s.toValue.isAscii ↔ s.IsAscii := by
  have htypes : ∀ types ∈ s.types, types.toValue.isAscii := fun types _ ↦ ascii_typeSet types
  rw [toValue_eq, Json.Value.isAscii_obj]
  simp (disch := decide) only [List.forall_mem_append, ascii_member, forall_mem_map,
    ascii_textValue, ascii_textsValue, ascii_nodeList, ascii_tableOfValues, ascii_additional,
    ascii_discriminators, Json.Value.isAscii_arr, and_assoc]
  constructor
  · rintro ⟨-, hformat, htitle, hdescription, hdefault, -, hproperties, hrequired, hadditional,
      hitems, hprefixItems, hallOf, honeOf, hanyOf, hproperty, hmapping, henum, henumNames,
      henumVarNames, -, -, hconst, hcomponent⟩
    exact ⟨hformat, htitle, hdescription, hdefault, hproperties, hrequired, hadditional, hitems,
      hprefixItems, hallOf, honeOf, hanyOf, hproperty, hmapping, henum, henumNames, henumVarNames,
      hconst, hcomponent⟩
  · intro h
    exact ⟨htypes, h.format, h.title, h.description, h.default, ascii_flagValue, h.properties,
      h.required, h.additional, h.items, h.prefixItems, h.allOf, h.oneOf, h.anyOf, h.property,
      h.mapping, h.enum, h.enumNames, h.enumVarNames, ascii_flagValue, ascii_flagValue, h.const,
      h.component⟩

theorem IsAscii.enumValues {s : Schema} (h : s.IsAscii) :
    ∀ v ∈ s.enumValues.getD [], v.isAscii := by
  intro v hv
  cases hvalues : s.enumValues with
  | none => simp [hvalues] at hv
  | some vs =>
    obtain ⟨henum, -⟩ := Option.filter_eq_some_iff.1 hvalues
    exact h.enum vs henum v (by simpa [hvalues] using hv)

theorem IsAscii.memberNames {s : Schema} (h : s.IsAscii) :
    ∀ ts ∈ s.memberNames, ∀ t ∈ ts, isAscii t := by
  unfold Schema.memberNames
  cases hnames : s.enumNames with
  | some ts =>
    rintro _ ⟨⟩
    exact h.enumNames ts hnames
  | none => exact h.enumVarNames

theorem ascii_nodeValue_ref {path : String} : (nodeValue (.ref path)).isAscii ↔ isAscii path := by
  have hkey : isAscii "$ref" := by decide
  rw [nodeValue, referenceValue, Json.Value.isAscii_obj]
  simp [hkey]

theorem ascii_nodeValue_inline {s : Schema} : (nodeValue (.inline s)).isAscii ↔ s.IsAscii := by
  rw [nodeValue, ascii_toValue]

end Schema

theorem Node.explains_ascii : Explains (fun n c ↦ n.IsAscii → (Schema.nodeValue c).isAscii)
    fun n v ↦ n.IsAscii → v.isAscii where
  ref _ _ h hn := Schema.ascii_nodeValue_ref.2 (hn.holds h)
  inline _ _ h hn := Schema.ascii_nodeValue_inline.2 (h.mono (fun _ ↦ hn.holds)
    (fun _ ↦ hn.keyed) (fun _ hc ↦ hc hn) fun _ hv ↦ hv hn)
  below _ _ _ hm h hn := h (hn.child hm)
  value _ _ h hn := hn.value h
  valueBelow _ _ _ hm h hn := h (hn.child hm)

theorem RefOr.ascii_toValue {α : Type} {write : α → Json.Value} {c : RefOr α} :
    (c.toValue write).isAscii ↔ (∀ path, c = .ref path → isAscii path) ∧
      ∀ a, c = .inline a → (write a).isAscii := by
  have hkey : isAscii "$ref" := by decide
  cases c with
  | ref path =>
    rw [RefOr.toValue, referenceValue, Json.Value.isAscii_obj]
    simp [hkey]
  | inline a => simp [RefOr.toValue]

/-! ## Written parts of operations -/

theorem MediaType.ascii_toValue {m : MediaType} :
    m.toValue.isAscii ↔ ∀ c ∈ m.schema, (Schema.nodeValue c).isAscii := by
  rw [toValue, Json.Value.isAscii_obj, ascii_member (by decide), forall_mem_map]

/-- The keys and the schemas of a content table are ASCII. -/
def Media.IsAscii (content : Table MediaType) : Prop :=
  ∀ e ∈ content, isAscii e.1 ∧ e.2.toValue.isAscii

theorem Parameter.ascii_toValue {p : Parameter} : p.toValue.isAscii ↔
    isAscii p.name ∧ (∀ t ∈ p.description, isAscii t) ∧
      (∀ c ∈ p.schema, (Schema.nodeValue c).isAscii) ∧ Media.IsAscii p.content ∧
      ∀ t ∈ p.style, isAscii t := by
  have hword : isAscii p.location.word := by
    cases p.location <;> decide
  rw [toValue, Json.Value.isAscii_obj]
  simp (disch := decide) only [List.forall_mem_append, ascii_member, forall_mem_map,
    ascii_textValue, ascii_tableValue, Option.mem_some_iff, forall_eq', Json.Value.isAscii_str,
    Json.Value.isAscii_bool, hword, true_and, and_assoc]
  constructor
  · rintro ⟨hname, hdescription, hschema, hcontent, hstyle, -⟩
    exact ⟨hname, hdescription, hschema, hcontent, hstyle⟩
  · rintro ⟨hname, hdescription, hschema, hcontent, hstyle⟩
    exact ⟨hname, hdescription, hschema, hcontent, hstyle, ascii_flagValue⟩

theorem RequestBody.ascii_toValue {b : RequestBody} : b.toValue.isAscii ↔
    (∀ t ∈ b.description, isAscii t) ∧ Media.IsAscii b.content := by
  rw [toValue, Json.Value.isAscii_obj]
  simp (disch := decide) only [List.forall_mem_append, ascii_member, ascii_textValue, and_assoc]
  simp [ascii_tableOfValues, Media.IsAscii]

theorem Response.ascii_toValue {r : Response} : r.toValue.isAscii ↔
    isAscii r.description ∧ Media.IsAscii r.content := by
  rw [toValue, Json.Value.isAscii_obj]
  simp (disch := decide) only [List.forall_mem_append, ascii_member, ascii_tableValue]
  simp [Media.IsAscii]

/-! ## Read parts of operations -/

section

variable {node : Node} (hnode : node.IsAscii)

include hnode

theorem Node.IsAscii.record {α : Type} {fields : List Field} {start : α}
    {set : String → (n : Node) → sizeOf n < sizeOf node → α → Read α} (P : α → Prop)
    (hset : ∀ key n (hn : sizeOf n < sizeOf node) a a', n.IsAscii → P a →
      (set key n hn a).Gives a' → P a')
    (hstart : P start) {a : α} (h : (node.record fields start set).Gives a) : P a :=
  Node.record_of P (fun key n hn a a' hchild ↦ hset key n hn a a' (hnode.child hchild)) hstart h

theorem Node.IsAscii.optional {t? : Option String} (h : (node.optional node.text).Gives t?) :
    ∀ t ∈ t?, isAscii t := by
  rintro t rfl
  exact hnode.text (Node.gives_of_optional h)

theorem Schema.ascii_of_nodeOf {c : RefOr Schema} (h : (nodeOf node).Gives c) :
    (nodeValue c).isAscii :=
  explained_refOr Node.explains_ascii (fun _ ↦ explained_of_ofNode Node.explains_ascii) h hnode

theorem Schema.ascii_of_ofNode {s : Schema} (h : (ofNode node).Gives s) : s.IsAscii :=
  ascii_nodeValue_inline.1 (explained_of_ofNode Node.explains_ascii h hnode)

theorem MediaType.ascii_of_ofNode {m : MediaType} (h : (ofNode node).Gives m) :
    m.toValue.isAscii := by
  refine hnode.record (fun m ↦ m.toValue.isAscii) ?_ (ascii_toValue.2 (by simp)) h
  intro key n hn m m' hnascii hm h
  split at h
  · obtain ⟨c?, hc, h⟩ := h.of_bind
    cases h.of_pure
    refine ascii_toValue.2 ?_
    rintro c rfl
    exact Schema.ascii_of_nodeOf hnascii (Node.gives_of_optional hc)
  · cases h.of_pure
    exact hm

theorem MediaType.ascii_of_tableOf {content : Table MediaType} (h : (tableOf node).Gives content) :
    Media.IsAscii content := by
  intro e he
  obtain ⟨m, _, hchild, hkey, hread⟩ := Node.mem_of_table h he
  exact ⟨hnode.keyed hkey, ascii_of_ofNode (hnode.child hchild) hread⟩

theorem Parameter.ascii_of_ofNode {p : Parameter} (h : (ofNode node).Gives p) :
    p.toValue.isAscii := by
  refine hnode.record (fun p ↦ p.toValue.isAscii) ?_ (ascii_toValue.2 ?_) h
  · intro key n hn p p' hnascii hp h
    obtain ⟨hname, hdescription, hschema, hcontent, hstyle⟩ := ascii_toValue.1 hp
    refine ascii_toValue.2 ?_
    split at h
    case h_9 =>
      cases h.of_pure
      exact ⟨hname, hdescription, hschema, hcontent, hstyle⟩
    all_goals
      obtain ⟨x, hx, h⟩ := h.of_bind
      cases h.of_pure
    case h_1 => exact ⟨hnascii.text hx, hdescription, hschema, hcontent, hstyle⟩
    case h_3 => exact ⟨hname, hnascii.optional hx, hschema, hcontent, hstyle⟩
    case h_5 =>
      refine ⟨hname, hdescription, ?_, hcontent, hstyle⟩
      rintro c rfl
      exact Schema.ascii_of_nodeOf hnascii (Node.gives_of_optional hx)
    case h_6 =>
      exact ⟨hname, hdescription, hschema, MediaType.ascii_of_tableOf hnascii hx, hstyle⟩
    case h_7 => exact ⟨hname, hdescription, hschema, hcontent, hnascii.optional hx⟩
    case h_2 | h_4 | h_8 => exact ⟨hname, hdescription, hschema, hcontent, hstyle⟩
  · have hempty : isAscii "" := by decide
    simp [hempty, Media.IsAscii]

theorem RequestBody.ascii_of_ofNode {b : RequestBody} (h : (ofNode node).Gives b) :
    b.toValue.isAscii := by
  refine hnode.record (fun b ↦ b.toValue.isAscii) ?_ (ascii_toValue.2 (by simp [Media.IsAscii])) h
  intro key n hn b b' hnascii hb h
  obtain ⟨hdescription, hcontent⟩ := ascii_toValue.1 hb
  refine ascii_toValue.2 ?_
  split at h
  case h_4 =>
    cases h.of_pure
    exact ⟨hdescription, hcontent⟩
  all_goals
    obtain ⟨x, hx, h⟩ := h.of_bind
    cases h.of_pure
  case h_1 => exact ⟨hnascii.optional hx, hcontent⟩
  case h_2 => exact ⟨hdescription, MediaType.ascii_of_tableOf hnascii hx⟩
  case h_3 => exact ⟨hdescription, hcontent⟩

theorem Response.ascii_of_ofNode {r : Response} (h : (ofNode node).Gives r) :
    r.toValue.isAscii := by
  have hempty : isAscii "" := by decide
  refine hnode.record (fun r ↦ r.toValue.isAscii) ?_
    (ascii_toValue.2 ⟨hempty, by simp [Media.IsAscii]⟩) h
  intro key n hn r r' hnascii hr h
  obtain ⟨hdescription, hcontent⟩ := ascii_toValue.1 hr
  refine ascii_toValue.2 ?_
  split at h
  · obtain ⟨t, ht, h⟩ := h.of_bind
    cases h.of_pure
    exact ⟨hnascii.text ht, hcontent⟩
  · obtain ⟨c, hc, h⟩ := h.of_bind
    cases h.of_pure
    exact ⟨hdescription, MediaType.ascii_of_tableOf hnascii hc⟩
  · cases h.of_pure
    exact ⟨hdescription, hcontent⟩

end

end ApiClient
