import ApiClient.Proofs.Document.Lookup
import ApiClient.Proofs.Document.Reading

/-!
# The texts of a document

A document has finitely many texts, and every reference in a schema that it is asked for is one of
them. This bounds how far compiling can go from reference to reference.
-/

namespace ApiClient

/-- A count goes down if whatever counts did so before and something no longer does. -/
theorem countP_lt_of_mem {α : Type} {p q : α → Bool} {l : List α} {a : α} (ha : a ∈ l)
    (hpq : ∀ b, p b → q b) (hp : ¬p a) (hq : q a) : l.countP p < l.countP q := by
  obtain ⟨before, after, rfl⟩ := List.append_of_mem ha
  have hbefore : before.countP p ≤ before.countP q := List.countP_mono_left fun b _ ↦ hpq b
  have hafter : after.countP p ≤ after.countP q := List.countP_mono_left fun b _ ↦ hpq b
  rw [List.countP_append, List.countP_append, List.countP_cons_of_neg hp,
    List.countP_cons_of_pos hq]
  omega

namespace Json

mutual

/-- The texts that stand in a value, at any depth. -/
def Value.texts : Value → List String
  | .str s => [s]
  | .arr items => textsOfItems items
  | .obj members => textsOfMembers members
  | _ => []

def textsOfItems : List Value → List String
  | [] => []
  | v :: rest => v.texts ++ textsOfItems rest

def textsOfMembers : List (String × Value) → List String
  | [] => []
  | (_, v) :: rest => v.texts ++ textsOfMembers rest

end

mutual

theorem Value.length_texts_le : (v : Value) → v.texts.length ≤ v.size
  | .null | .bool _ | .num _ => Nat.zero_le _
  | .str _ => Nat.le_refl _
  | .arr items => by
    have := length_textsOfItems_le items
    simp only [Value.texts, Value.size]
    omega
  | .obj members => by
    have := length_textsOfMembers_le members
    simp only [Value.texts, Value.size]
    omega

theorem length_textsOfItems_le :
    (items : List Value) → (textsOfItems items).length ≤ sizeItems items
  | [] => Nat.le_refl _
  | v :: rest => by
    have := v.length_texts_le
    have := length_textsOfItems_le rest
    simp only [textsOfItems, sizeItems, List.length_append]
    omega

theorem length_textsOfMembers_le :
    (members : List (String × Value)) → (textsOfMembers members).length ≤ sizeMembers members
  | [] => Nat.le_refl _
  | (_, v) :: rest => by
    have := v.length_texts_le
    have := length_textsOfMembers_le rest
    simp only [textsOfMembers, sizeMembers, List.length_append]
    omega

end

theorem mem_textsOfItems {items : List Value} {v : Value} (hv : v ∈ items) {s : String}
    (h : s ∈ v.texts) : s ∈ textsOfItems items := by
  induction items with
  | nil => simp at hv
  | cons w rest ih =>
    rw [textsOfItems, List.mem_append]
    rcases List.mem_cons.1 hv with rfl | hv
    · exact .inl h
    · exact .inr (ih hv)

theorem mem_textsOfMembers {members : List (String × Value)} {m : String × Value} (hm : m ∈ members)
    {s : String} (h : s ∈ m.2.texts) : s ∈ textsOfMembers members := by
  induction members with
  | nil => simp at hm
  | cons w rest ih =>
    rw [textsOfMembers, List.mem_append]
    rcases List.mem_cons.1 hm with rfl | hm
    · exact .inl h
    · exact .inr (ih hm)

/-- What stands at the end of a path has no texts of its own. -/
theorem mem_texts_of_at? {root v : Value} {names : List String} (h : root.at? names = some v)
    {s : String} (hs : s ∈ v.texts) : s ∈ root.texts := by
  induction names generalizing root with
  | nil =>
    cases h
    exact hs
  | cons name names ih =>
    cases root with
    | obj members =>
      obtain ⟨w, hw, h⟩ := Option.bind_eq_some_iff.1 h
      exact mem_textsOfMembers (Table.mem_of_get? hw) (ih h)
    | arr items =>
      obtain ⟨w, hw, h⟩ := Option.bind_eq_some_iff.1 h
      obtain ⟨i, -, hi⟩ := Option.bind_eq_some_iff.1 hw
      exact mem_textsOfItems (List.mem_of_getElem? hi) (ih h)
    | _ => cases h

end Json

namespace Node

open Json (Value)

theorem mem_of_ofItems {items : List Value} {n : Node} (h : n ∈ ofItems items) :
    ∃ v ∈ items, n = ofValue v := by
  induction items with
  | nil => simp [ofItems] at h
  | cons v rest ih =>
    rcases List.mem_cons.1 h with rfl | h
    · exact ⟨v, List.mem_cons_self, rfl⟩
    · obtain ⟨w, hw, rfl⟩ := ih h
      exact ⟨w, List.mem_cons_of_mem _ hw, rfl⟩

theorem mem_of_ofMembers {members : List (String × Value)} {p : Node × Node}
    (h : p ∈ ofMembers members) : ∃ m ∈ members, p.1 = ofValue (.str m.1) ∧ p.2 = ofValue m.2 := by
  induction members with
  | nil => simp [ofMembers] at h
  | cons m rest ih =>
    rcases List.mem_cons.1 h with rfl | h
    · exact ⟨m, List.mem_cons_self, rfl, rfl⟩
    · obtain ⟨w, hw, heq⟩ := ih h
      exact ⟨w, List.mem_cons_of_mem _ hw, heq⟩

theorem eq_of_gives_text {v : Value} {s : String} (h : (ofValue v).text.Gives s) : v = .str s := by
  obtain ⟨-, -, h⟩ := h.of_bind
  cases v with
  | str t =>
    cases h.of_pure
    rfl
  | _ => exact h.of_throw.elim

theorem Holds.mem_texts {n : Node} {s : String} (h : n.Holds s) {v : Value} (hv : n = ofValue v) :
    s ∈ v.texts := by
  induction h generalizing v with
  | text h =>
    subst hv
    obtain rfl := eq_of_gives_text h
    exact List.mem_singleton.2 rfl
  | child h _ ih =>
    subst hv
    cases v with
    | arr items =>
      cases h with
      | item hbare hm =>
        cases hbare
        obtain ⟨w, hw, heq⟩ := mem_of_ofItems hm
        exact Json.mem_textsOfItems hw (ih heq)
      | member hbare _ => cases hbare
    | obj members =>
      cases h with
      | item hbare _ => cases hbare
      | member hbare hm =>
        cases hbare
        obtain ⟨w, hw, -, heq⟩ := mem_of_ofMembers hm
        exact Json.mem_textsOfMembers hw (ih heq)
    | _ =>
      cases h with
      | item hbare _ => cases hbare
      | member hbare _ => cases hbare

end Node

namespace Snapshot

variable {snapshot : Snapshot} {α : Type} {read : Node → Read α} {reference : String}

/-- A reference that can be read as something points to a value of the document. -/
theorem at?_of_resolve {a : α} (h : snapshot.resolve read reference = .ok a) :
    ∃ names v, snapshot.root.at? names = some v ∧ (read (Node.ofValue v)).Gives a := by
  unfold resolve lookup at h
  cases hnames : Pointer.segments reference with
  | error e => simp [hnames, bind, Except.bind] at h
  | ok names =>
    cases hv : snapshot.root.at? names with
    | none => simp [hnames, hv, bind, Except.bind, throw, throwThe, MonadExceptOf.throw] at h
    | some v =>
      simp only [hnames, hv, bind, Except.bind, pure, Except.pure] at h
      split at h
      next b hb =>
        cases h
        exact ⟨names, v, hv, .of_result hb⟩
      next => cases h

end Snapshot

/-- The references in a schema of the document are texts of the document. -/
theorem Snapshot.mem_texts_of_mentions {snapshot : Snapshot} {reference path : String} {s : Schema}
    (h : snapshot.resolve Schema.ofNode reference = .ok s)
    (hp : RefOr.Mentions (.inline s) path) : path ∈ snapshot.root.texts := by
  obtain ⟨names, v, hv, hread⟩ := at?_of_resolve h
  exact Json.mem_texts_of_at? hv ((Schema.covers_of_ofNode hread path hp).mem_texts rfl)

theorem Env.mem_texts_of_mentions {env : Env} {path other : String} {plain : Bool} {s : Schema}
    (h : env.target path plain = .ok s) (hp : RefOr.Mentions (.inline s) other) :
    other ∈ env.snapshot.root.texts := by
  obtain ⟨t, ht, rfl⟩ := target_eq_ok.1 h
  refine Snapshot.mem_texts_of_mentions ht ?_
  cases plain
  · exact hp
  · exact hp.of_plain

end ApiClient
