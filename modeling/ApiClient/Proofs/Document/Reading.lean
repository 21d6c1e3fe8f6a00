import ApiClient.Document.Reading
import ApiClient.Proofs.Document.References

/-!
# Where what is read comes from

The texts in a record come from the tree that the record is read from. The main statement is about
schemas: every reference in a schema is the text of a scalar somewhere in its tree.
-/

namespace ApiClient

variable {α β : Type}

/-- A value that reading can have, whatever steps are left. -/
def Read.Gives (reading : Read α) (a : α) : Prop :=
  ∃ left left', reading left = .ok (a, left')

namespace Read.Gives

theorem of_result {reading : Read α} {a : α} {left : Nat} (h : Read.result reading left = .ok a) :
    reading.Gives a := by
  unfold Read.result StateT.run' at h
  cases hr : reading left with
  | error e => simp [hr, Functor.map, Except.map] at h
  | ok r =>
    refine ⟨left, r.2, ?_⟩
    have hfst : r.1 = a := by simpa [hr, Functor.map, Except.map] using h
    rw [hr, ← hfst]

theorem of_toOption {reading : Read α} {a : α} {left : Nat}
    (h : (Read.result reading left).toOption = some a) : reading.Gives a := by
  cases hr : Read.result reading left with
  | error e => simp [hr, Except.toOption] at h
  | ok b =>
    rw [hr] at h
    cases h
    exact .of_result hr

theorem of_pure {a b : α} (h : (pure a : Read α).Gives b) : b = a := by
  obtain ⟨left, left', h⟩ := h
  cases h
  rfl

theorem of_throw {fault : Fault} {b : α} (h : (throw fault : Read α).Gives b) : False := by
  obtain ⟨left, left', h⟩ := h
  cases h

theorem of_bind {x : Read α} {f : α → Read β} {b : β} (h : (x >>= f).Gives b) :
    ∃ a, x.Gives a ∧ (f a).Gives b := by
  obtain ⟨left, left', h⟩ := h
  cases hx : x left with
  | error e => simp [bind, StateT.bind, Except.bind, hx] at h
  | ok r =>
    refine ⟨r.1, ⟨left, r.2, by rw [hx]⟩, r.2, left', ?_⟩
    simpa [bind, StateT.bind, Except.bind, hx] using h

end Read.Gives

namespace Node

/-- A node that stands directly in another one as an item or as the value of a member. -/
inductive Child (n : Node) : Node → Prop where
  | item {items : List Node} {stop : Option Fault} {positional : Bool} {m : Node}
      (h : n.bare = .seq items stop positional) (hm : m ∈ items) : Child n m
  | member {members : List (Node × Node)} {stop : Option Fault} {m : Node × Node}
      (h : n.bare = .map members stop) (hm : m ∈ members) : Child n m.2

/-- A text that stands in a node, at any depth. -/
inductive Holds : Node → String → Prop where
  | text {n : Node} {s : String} (h : n.text.Gives s) : Holds n s
  | child {n m : Node} {s : String} (h : n.Child m) (hs : Holds m s) : Holds n s

/-- A key of a map that stands in a node, at any depth. -/
inductive Keyed : Node → String → Prop where
  | key {n : Node} {members : List (Node × Node)} {stop : Option Fault} {m : Node × Node}
      {k : String} (h : n.bare = .map members stop) (hm : m ∈ members) (hk : m.1.text.Gives k) :
      Keyed n k
  | child {n m : Node} {k : String} (h : n.Child m) (hk : Keyed m k) : Keyed n k

theorem gives_of_optional {node : Node} {reading : Read α} {a : α}
    (h : (node.optional reading).Gives (some a)) : reading.Gives a := by
  obtain ⟨absent, -, h⟩ := h.of_bind
  split at h
  · obtain ⟨-, -, h⟩ := h.of_bind
    cases h.of_pure
  · obtain ⟨b, hb, h⟩ := h.of_bind
    cases h.of_pure
    exact hb

theorem mem_of_listItems {bound : Nat} {read : (n : Node) → sizeOf n < bound → Read α}
    {items : List Node} {small : ∀ n ∈ items, sizeOf n < bound} {as : List α}
    (h : (listItems read items small).Gives as) {a : α} (ha : a ∈ as) :
    ∃ n, ∃ hn : n ∈ items, (read n (small n hn)).Gives a := by
  induction items generalizing as with
  | nil =>
    cases h.of_pure
    simp at ha
  | cons n rest ih =>
    obtain ⟨b, hb, h⟩ := h.of_bind
    obtain ⟨bs, hbs, h⟩ := h.of_bind
    cases h.of_pure
    rcases List.mem_cons.1 ha with rfl | ha
    · exact ⟨n, List.mem_cons_self, hb⟩
    · obtain ⟨m, hm, hread⟩ := ih hbs ha
      exact ⟨m, List.mem_cons_of_mem _ hm, hread⟩

theorem mem_of_mapMembers {bound : Nat} {read : (n : Node) → sizeOf n < bound → Read α}
    {members : List (Node × Node)} {small : ∀ m ∈ members, sizeOf m.2 < bound}
    {as : List (String × α)} (h : (mapMembers read members small).Gives as) {a : String × α}
    (ha : a ∈ as) :
    ∃ m, ∃ hm : m ∈ members, m.1.text.Gives a.1 ∧ (read m.2 (small m hm)).Gives a.2 := by
  induction members generalizing as with
  | nil =>
    cases h.of_pure
    simp at ha
  | cons m rest ih =>
    obtain ⟨key, hkey, h⟩ := h.of_bind
    obtain ⟨b, hb, h⟩ := h.of_bind
    obtain ⟨bs, hbs, h⟩ := h.of_bind
    cases h.of_pure
    rcases List.mem_cons.1 ha with rfl | ha
    · exact ⟨m, List.mem_cons_self, hkey, hb⟩
    · obtain ⟨n, hn, hread⟩ := ih hbs ha
      exact ⟨n, List.mem_cons_of_mem _ hn, hread⟩

theorem mem_of_list {node : Node} {read : (n : Node) → sizeOf n < sizeOf node → Read α}
    {as : List α} (h : (node.list read).Gives as) {a : α} (ha : a ∈ as) :
    ∃ n, ∃ hn : sizeOf n < sizeOf node, node.Child n ∧ (read n hn).Gives a := by
  obtain ⟨-, -, h⟩ := h.of_bind
  split at h
  · obtain ⟨bs, hbs, h⟩ := h.of_bind
    obtain ⟨-, -, h⟩ := h.of_bind
    cases h.of_pure
    obtain ⟨n, hn, hread⟩ := mem_of_listItems hbs ha
    exact ⟨n, _, .item ‹_› hn, hread⟩
  · cases h.of_pure
    simp at ha
  · exact h.of_throw.elim
  · exact h.of_throw.elim

theorem mem_of_table {node : Node} {read : (n : Node) → sizeOf n < sizeOf node → Read α}
    {table : Table α} (h : (node.table read).Gives table) {a : String × α} (ha : a ∈ table) :
    ∃ n, ∃ hn : sizeOf n < sizeOf node, node.Child n ∧ node.Keyed a.1 ∧ (read n hn).Gives a.2 := by
  obtain ⟨-, -, h⟩ := h.of_bind
  split at h
  · obtain ⟨bs, hbs, h⟩ := h.of_bind
    obtain ⟨-, -, h⟩ := h.of_bind
    cases h.of_pure
    obtain ⟨m, hm, hkey, hread⟩ := mem_of_mapMembers hbs (Table.mem_of_mem_ofPairs ha)
    exact ⟨m.2, _, .member ‹_› hm, .key ‹_› hm hkey, hread⟩
  · cases h.of_pure
    simp at ha
  · exact h.of_throw.elim
  · exact h.of_throw.elim

/-- What every field that is read keeps, a record read from the members of a map has. -/
theorem recordMembers_of {bound : Nat} {fields : List Field}
    {set : String → (n : Node) → sizeOf n < bound → α → Read α} (P : List String → α → Prop)
    {members : List (Node × Node)} {small : ∀ m ∈ members, sizeOf m.2 < bound}
    (hset : ∀ key, ∀ m, ∀ hm : m ∈ members, ∀ seen a a', P seen a →
      (set key m.2 (small m hm) a).Gives a' → P (key :: seen) a')
    {seen : List String} {a : α} (hstart : P seen a) {r : List String × α}
    (h : (recordMembers fields set members small seen a).Gives r) : P r.1 r.2 := by
  induction members generalizing seen a with
  | nil =>
    cases h.of_pure
    exact hstart
  | cons m rest ih =>
    obtain ⟨field?, -, h⟩ := h.of_bind
    cases field? with
    | none =>
      obtain ⟨-, -, h⟩ := h.of_bind
      exact ih (fun key m hm ↦ hset key m (List.mem_cons_of_mem _ hm)) hstart h
    | some field =>
      simp only at h
      split at h
      · obtain ⟨_, hthrow, -⟩ := h.of_bind
        exact hthrow.of_throw.elim
      · obtain ⟨a', ha', h⟩ := h.of_bind
        exact ih (fun key m hm ↦ hset key m (List.mem_cons_of_mem _ hm))
          (hset _ m List.mem_cons_self _ _ _ hstart ha') h

theorem recordItems_of {bound : Nat} {stop : Option Fault} {fields : List Field}
    {set : String → (n : Node) → sizeOf n < bound → α → Read α} (P : α → Prop)
    {items : List Node} {small : ∀ n ∈ items, sizeOf n < bound}
    (hset : ∀ key, ∀ n, ∀ hn : n ∈ items, ∀ a a', P a →
      (set key n (small n hn) a).Gives a' → P a')
    {a : α} (hstart : P a) {r : α}
    (h : (recordItems stop set fields items small a).Gives r) : P r := by
  induction fields generalizing items a with
  | nil =>
    cases items with
    | nil =>
      obtain ⟨-, -, h⟩ := h.of_bind
      cases h.of_pure
      exact hstart
    | cons n rest => exact h.of_throw.elim
  | cons field fields ih =>
    cases items with
    | nil =>
      obtain ⟨-, -, h⟩ := h.of_bind
      split at h
      · exact ih hset hstart h
      · exact h.of_throw.elim
    | cons n rest =>
      obtain ⟨a', ha', h⟩ := h.of_bind
      exact ih (fun key m hm ↦ hset key m (List.mem_cons_of_mem _ hm))
        (hset _ n List.mem_cons_self _ _ hstart ha') h

theorem record_of {fields : List Field} {node : Node} {start : α}
    {set : String → (n : Node) → sizeOf n < sizeOf node → α → Read α} (P : α → Prop)
    (hset : ∀ key n (hn : sizeOf n < sizeOf node) a a', node.Child n → P a →
      (set key n hn a).Gives a' → P a')
    (hstart : P start) {r : α} (h : (node.record fields start set).Gives r) : P r := by
  have hfinish : ∀ (seen : List String) a, ((if fields.all fun field ↦
      field.presence != .required || seen.contains field.name then pure a
      else throw .mismatch : Read α)).Gives r → P a → P r := by
    intro seen a h ha
    split at h
    · cases h.of_pure
      exact ha
    · exact h.of_throw.elim
  obtain ⟨-, -, h⟩ := h.of_bind
  split at h
  · obtain ⟨⟨seen, a⟩, hmembers, h⟩ := h.of_bind
    obtain ⟨-, -, h⟩ := h.of_bind
    refine hfinish seen a h ?_
    exact recordMembers_of (fun _ ↦ P)
      (fun key m hm _ a a' ↦ hset key m.2 _ a a' (.member ‹_› hm)) hstart hmembers
  · exact recordItems_of P (fun key n hn a a' ↦ hset key n _ a a' (.item ‹_› hn)) hstart h
  · exact hfinish [] start h hstart
  · exact h.of_throw.elim
  · exact h.of_throw.elim

theorem holds_of_reference? {node : Node} {path : String} (h : node.reference? = some path) :
    node.Holds path := by
  unfold reference? at h
  split at h
  next members stop =>
    have hgives : Read.Gives _ path := .of_toOption h
    obtain ⟨-, -, hgives⟩ := hgives.of_bind
    obtain ⟨⟨seen, a⟩, hmembers, hgives⟩ := hgives.of_bind
    obtain ⟨-, -, hgives⟩ := hgives.of_bind
    have hheld := recordMembers_of
      (fun seen a ↦ seen ≠ [] → (Node.map members stop).Holds a)
      (fun key m hm _ _ a' _ ha' _ ↦ .child (.member rfl hm) (.text ha')) (by simp) hmembers
    dsimp only at hgives
    split at hgives
    next hseen =>
      cases hgives.of_pure
      refine hheld ?_
      rintro rfl
      simp at hseen
    next => exact hgives.of_throw.elim
  next => simp at h

/-- Statements about a node with what is read from it, such that what is read further below can be
said of the node as well. -/
structure Explains (C : Node → RefOr Schema → Prop) (V : Node → Json.Value → Prop) : Prop where
  ref : ∀ n path, n.Holds path → C n (.ref path)
  inline : ∀ n s, s.Keywords n.Holds n.Keyed (C n) (V n) → C n (.inline s)
  below : ∀ n m c, n.Child m → C m c → C n c
  value : ∀ n v, n.value.Gives v → V n v
  valueBelow : ∀ n m v, n.Child m → V m v → V n v

section

variable {node n : Node} (hn : node.Child n)

include hn

theorem holds_of_text {t : String} (h : n.text.Gives t) : node.Holds t :=
  .child hn (.text h)

theorem holds_of_optional {t? : Option String} (h : (n.optional n.text).Gives t?) :
    ∀ t ∈ t?, node.Holds t := by
  rintro t rfl
  exact holds_of_text hn (gives_of_optional h)

theorem holds_of_texts {ts : List String} (h : n.texts.Gives ts) : ∀ t ∈ ts, node.Holds t := by
  intro t ht
  obtain ⟨m, _, hm, htext⟩ := mem_of_list h ht
  exact .child hn (.child hm (.text htext))

theorem holds_of_optional_texts {ts? : Option (List String)} (h : (n.optional n.texts).Gives ts?) :
    ∀ ts ∈ ts?, ∀ t ∈ ts, node.Holds t := by
  rintro ts rfl
  exact holds_of_texts hn (gives_of_optional h)

end

end Node

namespace Discriminator

/-- The texts of a discriminator stand in its node. -/
theorem holds_of_ofNode {node : Node} {d : Discriminator} (h : (ofNode node).Gives d) :
    (∀ t ∈ d.property, node.Holds t) ∧ ∀ e ∈ d.mapping, node.Keyed e.1 ∧ node.Holds e.2 := by
  refine Node.record_of (fun d ↦ (∀ t ∈ d.property, node.Holds t) ∧
    ∀ e ∈ d.mapping, node.Keyed e.1 ∧ node.Holds e.2) ?_ (by simp) h
  rintro key n hn d d' hchild ⟨hproperty, hmapping⟩ h
  split at h
  · obtain ⟨property, hp, h⟩ := h.of_bind
    cases h.of_pure
    exact ⟨Node.holds_of_optional hchild hp, hmapping⟩
  · obtain ⟨mapping, hm, h⟩ := h.of_bind
    cases h.of_pure
    refine ⟨hproperty, fun e he ↦ ?_⟩
    obtain ⟨m, _, hmchild, hkey, htext⟩ := Node.mem_of_table hm he
    exact ⟨.child hchild hkey, .child hchild (.child hmchild (.text htext))⟩
  · cases h.of_pure
    exact ⟨hproperty, hmapping⟩

end Discriminator

namespace Schema

open Node (optional Explains)

variable {C : Node → RefOr Schema → Prop} {V : Node → Json.Value → Prop}

section

variable {node n : Node} (hC : Explains C V)

include hC

theorem explained_refOr {c : RefOr Schema} (ih : ∀ s, (ofNode n).Gives s → C n (.inline s))
    (h : (RefOr.ofNode n (ofNode n)).Gives c) : C n c := by
  unfold RefOr.ofNode at h
  split at h
  next path href =>
    cases h.of_pure
    exact hC.ref n path (Node.holds_of_reference? href)
  next s _ hs =>
    cases h.of_pure
    exact ih s (.of_result hs)
  next => exact h.of_throw.elim

theorem explained_optional {c? : Option (RefOr Schema)}
    (ih : ∀ s, (ofNode n).Gives s → C n (.inline s)) (hn : node.Child n)
    (h : (optional n (RefOr.ofNode n (ofNode n))).Gives c?) : ∀ c ∈ c?, C node c := by
  rintro c rfl
  exact hC.below _ _ _ hn (explained_refOr hC ih (Node.gives_of_optional h))

theorem explained_list {cs? : Option (List (RefOr Schema))}
    (ih : ∀ m, sizeOf m < sizeOf n → ∀ s, (ofNode m).Gives s → C m (.inline s))
    (hn : node.Child n)
    (h : (optional n (n.list fun c _ ↦ RefOr.ofNode c (ofNode c))).Gives cs?) :
    ∀ cs ∈ cs?, ∀ c ∈ cs, C node c := by
  rintro cs rfl c hc
  obtain ⟨m, hm, hchild, hread⟩ := Node.mem_of_list (Node.gives_of_optional h) hc
  exact hC.below _ _ _ hn (hC.below _ _ _ hchild (explained_refOr hC (ih m hm) hread))

theorem explained_table {ps? : Option (List (String × RefOr Schema))}
    (ih : ∀ m, sizeOf m < sizeOf n → ∀ s, (ofNode m).Gives s → C m (.inline s))
    (hn : node.Child n)
    (h : (optional n (n.table fun c _ ↦ RefOr.ofNode c (ofNode c))).Gives ps?) :
    ∀ ps ∈ ps?, ∀ p ∈ ps, node.Keyed p.1 ∧ C node p.2 := by
  rintro ps rfl p hp
  obtain ⟨m, hm, hchild, hkey, hread⟩ := Node.mem_of_table (Node.gives_of_optional h) hp
  refine ⟨.child hn hkey, hC.below _ _ _ hn (hC.below _ _ _ hchild ?_)⟩
  exact explained_refOr hC (ih m hm) hread

theorem explained_value {v? : Option Json.Value} (hn : node.Child n)
    (h : (optional n n.value).Gives v?) : ∀ v ∈ v?, V node v := by
  rintro v rfl
  exact hC.valueBelow _ _ _ hn (hC.value _ _ (Node.gives_of_optional h))

theorem explained_values {vs? : Option (List Json.Value)} (hn : node.Child n)
    (h : (optional n n.values).Gives vs?) : ∀ vs ∈ vs?, ∀ v ∈ vs, V node v := by
  rintro vs rfl v hv
  obtain ⟨m, _, hchild, hread⟩ := Node.mem_of_list (Node.gives_of_optional h) hv
  exact hC.valueBelow _ _ _ hn (hC.valueBelow _ _ _ hchild (hC.value _ _ hread))

end

/-- What is said of schemas by their keywords holds of a schema that is read from a node. -/
theorem explained_of_ofNode (hC : Explains C V) {node : Node} {s : Schema}
    (h : (ofNode node).Gives s) : C node (.inline s) := by
  induction hsize : sizeOf node using Nat.strongRecOn generalizing node s with
  | ind size ih =>
  subst hsize
  have hsmall : ∀ m : Node, sizeOf m < sizeOf node → ∀ s, (ofNode m).Gives s →
      C m (.inline s) := fun m hm s hs ↦ ih _ hm hs rfl
  rw [ofNode] at h
  refine hC.inline _ _ (Node.record_of
    (Keywords node.Holds node.Keyed (C node) (V node)) ?_ (by constructor <;> simp) h)
  intro key n hn s s' hchild hs h
  have hbelow := fun m (hm : sizeOf m < sizeOf n) ↦ hsmall m (Nat.lt_trans hm hn)
  split at h
  case h_23 =>
    cases h.of_pure
    exact hs
  all_goals
    obtain ⟨x, hx, h⟩ := h.of_bind
    cases h.of_pure
  case h_1 | h_6 | h_19 | h_20 => exact { hs with }
  case h_2 => exact { hs with format := Node.holds_of_optional hchild hx }
  case h_3 => exact { hs with title := Node.holds_of_optional hchild hx }
  case h_4 => exact { hs with description := Node.holds_of_optional hchild hx }
  case h_5 => exact { hs with default := explained_value hC hchild hx }
  case h_7 => exact { hs with properties := explained_table hC hbelow hchild hx }
  case h_8 => exact { hs with required := Node.holds_of_optional_texts hchild hx }
  case h_9 =>
    refine { hs with additional := ?_ }
    rintro c rfl
    have ha := Node.gives_of_optional hx
    split at ha
    · cases ha.of_pure
    · obtain ⟨c', hc', ha⟩ := ha.of_bind
      cases ha.of_pure
      exact hC.below _ _ _ hchild (explained_refOr hC (hsmall n hn) hc')
  case h_10 => exact { hs with items := explained_optional hC (hsmall n hn) hchild hx }
  case h_11 => exact { hs with prefixItems := explained_list hC hbelow hchild hx }
  case h_12 => exact { hs with allOf := explained_list hC hbelow hchild hx }
  case h_13 => exact { hs with oneOf := explained_list hC hbelow hchild hx }
  case h_14 => exact { hs with anyOf := explained_list hC hbelow hchild hx }
  case h_15 =>
    have hd : ∀ d ∈ x, (∀ t ∈ d.property, n.Holds t) ∧
        ∀ e ∈ d.mapping, n.Keyed e.1 ∧ n.Holds e.2 := by
      rintro d rfl
      exact Discriminator.holds_of_ofNode (Node.gives_of_optional hx)
    exact { hs with
      property := fun d hmem t ht ↦ .child hchild ((hd d hmem).1 t ht)
      mapping := fun d hmem e he ↦
        ⟨.child hchild ((hd d hmem).2 e he).1, .child hchild ((hd d hmem).2 e he).2⟩ }
  case h_16 => exact { hs with enum := explained_values hC hchild hx }
  case h_17 => exact { hs with enumNames := Node.holds_of_optional_texts hchild hx }
  case h_18 => exact { hs with enumVarNames := Node.holds_of_optional_texts hchild hx }
  case h_21 => exact { hs with const := explained_value hC hchild hx }
  case h_22 => exact { hs with component := Node.holds_of_optional hchild hx }

end Schema

/-- Every reference of a schema or reference stands as a text in the node. -/
def Node.Covers (node : Node) (c : RefOr Schema) : Prop :=
  ∀ path, c.Mentions path → node.Holds path

theorem Node.explains_covers : Explains Covers fun _ _ ↦ True where
  ref n path h other hother := RefOr.mentions_ref.1 hother ▸ h
  inline n s h path hp := by
    cases hp with
    | target hd hp =>
      obtain ⟨e, he, rfl⟩ := List.mem_map.1 hp
      exact (h.mapping _ hd e he).2
    | part hc hm => exact h.part hc _ hm
  below n m c hm h path hp := .child hm (h path hp)
  value _ _ _ := trivial
  valueBelow _ _ _ _ _ := trivial

/-- The references of a schema that is read from a node stand as texts in the node. -/
theorem Schema.covers_of_ofNode {node : Node} {s : Schema} (h : (ofNode node).Gives s) :
    node.Covers (.inline s) :=
  explained_of_ofNode Node.explains_covers h

end ApiClient
