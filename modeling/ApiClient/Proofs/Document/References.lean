import ApiClient.Document.Schema

/-!
# The references in a schema

What a schema is made of, keyword by keyword, and which references it holds: those among its parts,
at any depth, and the targets of its discriminator.
-/

namespace ApiClient

namespace Schema

/-- A node that stands directly in a schema. -/
inductive Part (s : Schema) : RefOr Schema → Prop where
  | property {ps : List (String × RefOr Schema)} {name : String} {c : RefOr Schema}
      (h : s.properties = some ps) (hc : (name, c) ∈ ps) : Part s c
  | additional {c : RefOr Schema} (h : s.additional = some (.schema c)) : Part s c
  | items {c : RefOr Schema} (h : s.items = some c) : Part s c
  | prefixItem {cs : List (RefOr Schema)} {c : RefOr Schema} (h : s.prefixItems = some cs)
      (hc : c ∈ cs) : Part s c
  | allOf {cs : List (RefOr Schema)} {c : RefOr Schema} (h : s.allOf = some cs) (hc : c ∈ cs) :
      Part s c
  | oneOf {cs : List (RefOr Schema)} {c : RefOr Schema} (h : s.oneOf = some cs) (hc : c ∈ cs) :
      Part s c
  | anyOf {cs : List (RefOr Schema)} {c : RefOr Schema} (h : s.anyOf = some cs) (hc : c ∈ cs) :
      Part s c

/-- The texts, the keys, the nodes and the values that stand directly in a schema have some property
each, keyword by keyword. -/
structure Keywords (P K : String → Prop) (C : RefOr Schema → Prop) (V : Json.Value → Prop)
    (s : Schema) : Prop where
  format : ∀ t ∈ s.format, P t
  title : ∀ t ∈ s.title, P t
  description : ∀ t ∈ s.description, P t
  default : ∀ v ∈ s.default, V v
  properties : ∀ ps ∈ s.properties, ∀ p ∈ ps, K p.1 ∧ C p.2
  required : ∀ ts ∈ s.required, ∀ t ∈ ts, P t
  additional : ∀ c, s.additional = some (.schema c) → C c
  items : ∀ c ∈ s.items, C c
  prefixItems : ∀ cs ∈ s.prefixItems, ∀ c ∈ cs, C c
  allOf : ∀ cs ∈ s.allOf, ∀ c ∈ cs, C c
  oneOf : ∀ cs ∈ s.oneOf, ∀ c ∈ cs, C c
  anyOf : ∀ cs ∈ s.anyOf, ∀ c ∈ cs, C c
  property : ∀ d ∈ s.discriminator, ∀ t ∈ d.property, P t
  mapping : ∀ d ∈ s.discriminator, ∀ e ∈ d.mapping, K e.1 ∧ P e.2
  enum : ∀ vs ∈ s.enum, ∀ v ∈ vs, V v
  enumNames : ∀ ts ∈ s.enumNames, ∀ t ∈ ts, P t
  enumVarNames : ∀ ts ∈ s.enumVarNames, ∀ t ∈ ts, P t
  const : ∀ v ∈ s.const, V v
  component : ∀ t ∈ s.component, P t

namespace Keywords

variable {P P' K K' : String → Prop} {C C' : RefOr Schema → Prop} {V V' : Json.Value → Prop}
  {s : Schema}

theorem mono (h : s.Keywords P K C V) (hP : ∀ t, P t → P' t) (hK : ∀ k, K k → K' k)
    (hC : ∀ c, C c → C' c) (hV : ∀ v, V v → V' v) : s.Keywords P' K' C' V' where
  format t ht := hP t (h.format t ht)
  title t ht := hP t (h.title t ht)
  description t ht := hP t (h.description t ht)
  default v hv := hV v (h.default v hv)
  properties ps hps p hp := (h.properties ps hps p hp).imp (hK _) (hC _)
  required ts hts t ht := hP t (h.required ts hts t ht)
  additional c hc := hC c (h.additional c hc)
  items c hc := hC c (h.items c hc)
  prefixItems cs hcs c hc := hC c (h.prefixItems cs hcs c hc)
  allOf cs hcs c hc := hC c (h.allOf cs hcs c hc)
  oneOf cs hcs c hc := hC c (h.oneOf cs hcs c hc)
  anyOf cs hcs c hc := hC c (h.anyOf cs hcs c hc)
  property d hd t ht := hP t (h.property d hd t ht)
  mapping d hd e he := (h.mapping d hd e he).imp (hK _) (hP _)
  enum vs hvs v hv := hV v (h.enum vs hvs v hv)
  enumNames ts hts t ht := hP t (h.enumNames ts hts t ht)
  enumVarNames ts hts t ht := hP t (h.enumVarNames ts hts t ht)
  const v hv := hV v (h.const v hv)
  component t ht := hP t (h.component t ht)

theorem part (h : s.Keywords P K C V) {c : RefOr Schema} (hc : s.Part c) : C c := by
  cases hc with
  | property hps hc => exact (h.properties _ hps _ hc).2
  | additional hc => exact h.additional _ hc
  | items hc => exact h.items _ hc
  | prefixItem hcs hc => exact h.prefixItems _ hcs _ hc
  | allOf hcs hc => exact h.allOf _ hcs _ hc
  | oneOf hcs hc => exact h.oneOf _ hcs _ hc
  | anyOf hcs hc => exact h.anyOf _ hcs _ hc

end Keywords

end Schema

namespace RefOr

/-- A reference that stands in a node, at any depth. -/
inductive Mentions : RefOr Schema → String → Prop where
  | ref (path : String) : Mentions (.ref path) path
  | target {s : Schema} {d : Discriminator} {path : String} (h : s.discriminator = some d)
      (hp : path ∈ Table.values d.mapping) : Mentions (.inline s) path
  | part {s : Schema} {c : RefOr Schema} {path : String} (h : s.Part c) (hc : Mentions c path) :
      Mentions (.inline s) path

theorem mentions_ref {path other : String} : Mentions (.ref path) other ↔ other = path := by
  constructor
  · rintro ⟨⟩
    rfl
  · rintro rfl
    exact .ref _

/-- Taking away the discriminator adds no reference. -/
theorem Mentions.of_plain {s : Schema} {path : String}
    (h : Mentions (.inline { s with discriminator := none }) path) : Mentions (.inline s) path := by
  cases h with
  | target hd _ => simp at hd
  | part hc hm =>
    refine .part ?_ hm
    cases hc with
    | property h hc => exact .property h hc
    | additional h => exact .additional h
    | items h => exact .items h
    | prefixItem h hc => exact .prefixItem h hc
    | allOf h hc => exact .allOf h hc
    | oneOf h hc => exact .oneOf h hc
    | anyOf h hc => exact .anyOf h hc

end RefOr

end ApiClient
