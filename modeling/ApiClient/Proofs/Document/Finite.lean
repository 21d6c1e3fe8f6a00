import ApiClient.Json.Reader
import ApiClient.Proofs.Document.Reading

/-!
# Trees that JSON can write

Some notations have infinities and a value that is no number, which JSON writes as null. In a tree
without them a value is null only where nothing is said to be there. All trees of JSON texts are
like that.
-/

namespace ApiClient

open Json (Value)

theorem Read.Gives.of_lift {α : Type} {x : Except Fault α} {a : α}
    (h : (liftM x : Read α).Gives a) : x = .ok a := by
  obtain ⟨left, left', h⟩ := h
  cases x with
  | error fault => cases h
  | ok b =>
    cases h
    rfl

/-! ## Scalars -/

/-- Whether a scalar has a type, and one that JSON has a way of writing. -/
def Scalar.inJson : Scalar → Bool
  | .null | .bool _ | .num _ | .negativeZero | .str _ => true
  | _ => false

theorem Scalar.typed_of_inJson {s : Scalar} (h : s.inJson) : s.typed = .ok s := by
  cases s with
  | null | bool | num | negativeZero | str => rfl
  | _ => cases h

namespace Scalar

open CoreSchema (int? real? unsignedReal? resolvePlain resolveTagged)

theorem inJson_of_int? {cs : List Char} {s : Scalar} (h : int? cs = some (some s)) :
    s.inJson := by
  unfold int? at h
  split at h
  · cases h
    rfl
  · cases h
    rfl
  · cases h
    rfl
  · dsimp only at h
    split at h <;> cases h

theorem inJson_of_real? {cs : List Char} {s : Scalar} (h : real? cs = some s)
    (hs : s ≠ .nonFinite) : s.inJson := by
  have hfinite : ∀ (negative : Bool) (digits : List Char),
      ((unsignedReal? negative digits).map fun x ↦ num (.real x)) = some s →
        s.inJson := by
    intro negative digits hreal
    obtain ⟨x, -, rfl⟩ := Option.map_eq_some_iff.1 hreal
    rfl
  unfold real? at h
  dsimp only at h
  split at h
  · cases h
    exact (hs rfl).elim
  · split at h
    · exact hfinite _ _ h
    · exact hfinite _ _ h
    · exact hfinite _ _ h

theorem inJson_of_resolvePlain {text : String} {s : Scalar}
    (h : resolvePlain text = .ok s) (hs : s ≠ .nonFinite) : s.inJson := by
  unfold resolvePlain at h
  split at h
  · cases h
    rfl
  · split at h
    · cases h
      rfl
    next hint =>
      cases h
      exact inJson_of_int? hint
    · cases h
    · split at h
      · cases h
        rfl
      · cases h
        cases hreal : real? text.toList with
        | none => rfl
        | some t => exact inJson_of_real? hreal (by simpa [hreal] using hs)

theorem inJson_of_resolveTagged {text : String} {tag : CoreTag} {s : Scalar}
    (h : resolveTagged text tag = .ok s) (hs : s ≠ .nonFinite) : s.inJson := by
  unfold resolveTagged at h
  cases tag with
  | text =>
    cases h
    rfl
  | untyped => exact inJson_of_resolvePlain h hs
  | null =>
    dsimp only at h
    split at h <;> cases h
    rfl
  | bool =>
    dsimp only at h
    split at h <;> cases h
    rfl
  | int =>
    dsimp only at h
    split at h
    next hint =>
      cases h
      exact inJson_of_int? hint
    · cases h
  | float =>
    dsimp only at h
    split at h
    next hreal =>
      cases h
      exact inJson_of_real? hreal hs
    · cases h

/-- What a scalar is when its type is settled can be written in JSON, unless it is no finite
number. -/
theorem inJson_of_typed {s t : Scalar} (h : s.typed = .ok t) (ht : t ≠ .nonFinite) : t.inJson := by
  cases s with
  | plain text tag =>
    cases tag with
    | none => exact inJson_of_resolvePlain h ht
    | some tag => exact inJson_of_resolveTagged h ht
  | quoted text literal tag =>
    cases tag with
    | none =>
      cases h
      rfl
    | some tag =>
      by_cases htag : tag = .untyped
      · subst htag
        cases h
        rfl
      · have htyped : (Scalar.quoted text literal (some tag)).typed =
            resolveTagged text tag := by
          cases tag with
          | untyped => exact (htag rfl).elim
          | _ => rfl
        exact inJson_of_resolveTagged (htyped ▸ h) ht
  | nonFinite =>
    cases h
    exact (ht rfl).elim
  | _ =>
    cases h
    rfl

end Scalar

/-! ## Nodes -/

namespace Node

/-- Every scalar in a node, at any depth, has a type and is one that JSON can write. -/
inductive InJson : Node → Prop where
  | scalar {s : Scalar} (h : s.inJson) : InJson (.scalar s)
  | seq {items : List Node} {stop : Option Fault} {positional : Bool}
      (h : ∀ n ∈ items, n.InJson) : InJson (.seq items stop positional)
  | map {members : List (Node × Node)} {stop : Option Fault} (h : ∀ m ∈ members, m.2.InJson) :
      InJson (.map members stop)
  | bad (fault : Fault) (skipped : Option Fault) : InJson (.bad fault skipped)

theorem InJson.child {n m : Node} (hn : n.InJson) (h : n.Child m) : m.InJson := by
  cases hn with
  | scalar _ =>
    cases h with
    | item hbare _ => cases hbare
    | member hbare _ => cases hbare
  | seq hitems =>
    cases h with
    | item hbare hm =>
      cases hbare
      exact hitems _ hm
    | member hbare _ => cases hbare
  | map hmembers =>
    cases h with
    | item hbare _ => cases hbare
    | member hbare hm =>
      cases hbare
      exact hmembers _ hm
  | bad _ _ =>
    cases h with
    | item hbare _ => cases hbare
    | member hbare _ => cases hbare

/-- In JSON only what is absent is null. -/
theorem InJson.ne_null {n : Node} (hn : n.InJson) (h : n.isAbsent = .ok false) {v : Value}
    (hv : n.value.Gives v) : v ≠ .null := by
  cases hn with
  | @scalar s hs =>
    cases s with
    | null => cases h
    | bool | num | negativeZero | str =>
      obtain ⟨left, left', hv⟩ := hv
      cases hv
      exact nofun
    | _ => cases hs
  | seq _ =>
    obtain ⟨items, -, hv⟩ := hv.of_bind
    obtain ⟨-, -, hv⟩ := hv.of_bind
    cases hv.of_pure
    exact nofun
  | map _ =>
    obtain ⟨members, -, hv⟩ := hv.of_bind
    obtain ⟨-, -, hv⟩ := hv.of_bind
    cases hv.of_pure
    exact nofun
  | bad _ _ => exact hv.of_throw.elim

/-- No scalar in a node, at any depth, stands for an infinity or for no number at all. -/
inductive Finite : Node → Prop where
  | scalar {s : Scalar} (h : s.typed ≠ .ok .nonFinite) : Finite (.scalar s)
  | seq {items : List Node} {stop : Option Fault} {positional : Bool}
      (h : ∀ n ∈ items, n.Finite) : Finite (.seq items stop positional)
  | map {members : List (Node × Node)} {stop : Option Fault} (h : ∀ m ∈ members, m.2.Finite) :
      Finite (.map members stop)
  | labelled {node : Node} (h : node.Finite) : Finite (.labelled node)
  | shared {node : Node} (h : node.Finite) : Finite (.shared node)
  | bad (fault : Fault) (skipped : Option Fault) : Finite (.bad fault skipped)

theorem Finite.bare {n : Node} (h : n.Finite) : n.bare.Finite := by
  fun_induction Node.bare n with
  | case1 node ih =>
    cases h with
    | labelled h => exact ih h
  | case2 node ih =>
    cases h with
    | shared h => exact ih h
  | case3 node => exact h

theorem Finite.child {n m : Node} (hn : n.Finite) (h : n.Child m) : m.Finite := by
  have hbare := hn.bare
  cases h with
  | item heq hm =>
    rw [heq] at hbare
    cases hbare with
    | seq h => exact h _ hm
  | member heq hm =>
    rw [heq] at hbare
    cases hbare with
    | map h => exact h _ hm

theorem InJson.finite {n : Node} (h : n.InJson) : n.Finite := by
  induction h with
  | @scalar s h =>
    refine .scalar fun heq ↦ ?_
    rw [Scalar.typed_of_inJson h] at heq
    cases heq
    cases h
  | seq _ ih => exact .seq ih
  | map _ ih => exact .map ih
  | bad fault skipped => exact .bad fault skipped

mutual

/-- Settling gives every scalar a type, so what is finite can be written in JSON. -/
theorem Finite.settled : (n : Node) → n.Finite → ∀ m, n.settled.Gives m → m.InJson
  | .scalar s, hn, m, h => by
    obtain ⟨t, ht, h⟩ := h.of_bind
    cases h.of_pure
    cases hn with
    | scalar hs => exact .scalar (Scalar.inJson_of_typed ht.of_lift fun heq ↦ hs (heq ▸ ht.of_lift))
  | .seq items stop positional, hn, m, h => by
    obtain ⟨ns, hns, h⟩ := h.of_bind
    obtain ⟨-, -, h⟩ := h.of_bind
    cases h.of_pure
    cases hn with
    | seq hitems => exact .seq (Finite.settledItems items hitems ns hns)
  | .map members stop, hn, m, h => by
    obtain ⟨ns, hns, h⟩ := h.of_bind
    obtain ⟨-, -, h⟩ := h.of_bind
    cases h.of_pure
    cases hn with
    | map hmembers => exact .map (Finite.settledMembers members hmembers ns hns)
  | .labelled node, hn, m, h => h.of_throw.elim
  | .shared node, hn, m, h => by
    obtain ⟨-, -, h⟩ := h.of_bind
    cases hn with
    | shared hn => exact Finite.settled node hn m h
  | .bad fault skipped, hn, m, h => h.of_throw.elim

theorem Finite.settledItems : (items : List Node) → (∀ n ∈ items, n.Finite) →
    ∀ ns, (Node.settledItems items).Gives ns → ∀ n ∈ ns, n.InJson
  | [], _, ns, h => by
    cases h.of_pure
    simp
  | n :: rest, hitems, ns, h => by
    obtain ⟨m, hm, h⟩ := h.of_bind
    obtain ⟨others, hothers, h⟩ := h.of_bind
    cases h.of_pure
    rw [List.forall_mem_cons] at hitems ⊢
    exact ⟨Finite.settled n hitems.1 m hm, Finite.settledItems rest hitems.2 others hothers⟩

theorem Finite.settledMembers : (members : List (Node × Node)) → (∀ m ∈ members, m.2.Finite) →
    ∀ ns, (Node.settledMembers members).Gives ns → ∀ m ∈ ns, m.2.InJson
  | [], _, ns, h => by
    cases h.of_pure
    simp
  | (k, n) :: rest, hmembers, ns, h => by
    obtain ⟨key, -, h⟩ := h.of_bind
    obtain ⟨m, hm, h⟩ := h.of_bind
    obtain ⟨others, hothers, h⟩ := h.of_bind
    cases h.of_pure
    rw [List.forall_mem_cons] at hmembers ⊢
    exact ⟨Finite.settled n hmembers.1 m hm,
      Finite.settledMembers rest hmembers.2 others hothers⟩

end

end Node

/-! ## Texts -/

namespace Json

open Node (InJson)

theorem inJson_stringNode (cs : List Char) : (stringNode cs).1.InJson := by
  unfold stringNode
  split
  · dsimp only
    split
    · exact .bad _ _
    · exact .scalar rfl
  · exact .bad _ _

theorem inJson_numeralNode (numeral : Numeral) (rest : List Char) :
    (numeralNode numeral rest).1.InJson := by
  unfold numeralNode
  split
  · exact .scalar rfl
  · exact .bad _ _

theorem inJson_exponentNode (numeral : Numeral) (cs : List Char) :
    (exponentNode numeral cs).1.InJson := by
  unfold exponentNode
  split
  · exact inJson_numeralNode _ _
  · split
    · dsimp only
      split
      · exact inJson_numeralNode _ _
      · exact .bad _ _
    · exact inJson_numeralNode _ _

theorem inJson_numberNode (cs : List Char) : (numberNode cs).1.InJson := by
  unfold numberNode
  dsimp only
  split
  · exact .bad _ _
  · exact .bad _ _
  · split
    · split
      · exact .bad _ _
      · exact inJson_exponentNode _ _
    · exact inJson_exponentNode _ _

theorem inJson_wordNode {value : Scalar} (h : value.inJson) (word rest : List Char) :
    (wordNode value word rest).1.InJson := by
  induction word generalizing rest with
  | nil => exact .scalar h
  | cons w word ih =>
    cases rest with
    | nil => exact .bad _ _
    | cons c rest =>
      rw [wordNode]
      split
      · exact ih rest
      · exact .bad _ _

mutual

/-- The trees of JSON texts have no scalars but those of JSON. -/
theorem inJson_readValue : (steps depth : Nat) → (cs : List Char) →
    (readValue steps depth cs).1.InJson
  | 0, _, _ => by
    rw [readValue]
    exact .bad _ _
  | steps + 1, depth, cs => by
    rw [readValue]
    split
    · exact .bad _ _
    · exact inJson_wordNode rfl _ _
    · exact inJson_wordNode rfl _ _
    · exact inJson_wordNode rfl _ _
    · exact inJson_stringNode _
    · dsimp only
      split
      · exact .bad _ _
      · exact .seq (inJson_readItems steps _ _ _)
    · dsimp only
      split
      · exact .bad _ _
      · exact .map (inJson_readMembers steps _ _ _)
    · split
      · exact inJson_numberNode _
      · exact .bad _ _

theorem inJson_readItems : (steps depth : Nat) → (first : Bool) → (cs : List Char) →
    ∀ n ∈ (readItems steps depth first cs).1, n.InJson
  | 0, _, _, _ => by
    rw [readItems]
    exact nofun
  | steps + 1, depth, first, cs => by
    rw [readItems]
    split
    · exact nofun
    · exact nofun
    · split
      · exact inJson_nextItem steps _ _
      · split
        · split
          · exact List.forall_mem_singleton.2 (.bad _ _)
          · exact inJson_nextItem steps _ _
        · exact nofun

theorem inJson_nextItem : (steps depth : Nat) → (cs : List Char) →
    ∀ n ∈ (nextItem steps depth cs).1, n.InJson
  | 0, _, _ => by
    rw [nextItem]
    exact nofun
  | steps + 1, depth, cs => by
    have hitem := inJson_readValue steps depth cs
    rw [nextItem]
    split
    next item rest hread =>
      rw [hread] at hitem
      split
      · exact List.forall_mem_singleton.2 hitem
      · exact List.forall_mem_cons.2 ⟨hitem, inJson_readItems steps _ _ _⟩

theorem inJson_readMembers : (steps depth : Nat) → (first : Bool) → (cs : List Char) →
    ∀ m ∈ (readMembers steps depth first cs).1, m.2.InJson
  | 0, _, _, _ => by
    rw [readMembers]
    exact nofun
  | steps + 1, depth, first, cs => by
    rw [readMembers]
    split
    · exact nofun
    · exact nofun
    · split
      · exact inJson_nextMember steps _ _
      · split
        · exact inJson_nextMember steps _ _
        · exact nofun

theorem inJson_nextMember : (steps depth : Nat) → (cs : List Char) →
    ∀ m ∈ (nextMember steps depth cs).1, m.2.InJson
  | 0, _, _ => by
    rw [nextMember]
    exact nofun
  | _ + 1, _, [] => by
    rw [nextMember]
    exact nofun
  | steps + 1, depth, c :: cs => by
    by_cases hc : c = '"'
    · subst hc
      rw [nextMember]
      split
      split
      · exact List.forall_mem_singleton.2 (.scalar rfl)
      · split
        · exact List.forall_mem_singleton.2 (.bad _ _)
        next rest _ =>
          have hvalue := inJson_readValue steps depth rest
          split
          next value after hread =>
            rw [hread] at hvalue
            split
            · exact List.forall_mem_singleton.2 hvalue
            · exact List.forall_mem_cons.2 ⟨hvalue, inJson_readMembers steps _ _ _⟩
        · exact List.forall_mem_singleton.2 (.bad _ _)
    · rw [nextMember]
      · simp
      · exact hc

end

theorem inJson_document (text : String) : (document text).1.InJson :=
  inJson_readValue _ _ _

end Json

end ApiClient
