import ApiClient.Document.Discriminating
import ApiClient.Proofs.Document.Ascii
import ApiClient.Proofs.Document.FreeReferences

/-!
# What an ASCII document leads to

A document is ASCII if its written form is. Preparing it adds references to components, which are
made from keys of the document, so a prepared ASCII document is ASCII as well, and so is everything
that its references lead to. The names made from references are cut out of them.
-/

namespace ApiClient

open Json (Value)
open Text (isAscii)

/-! ## Written documents -/

theorem ascii_listValue {α : Type} {write : α → Value} {xs : List α} :
    (∀ v ∈ listValue write xs, v.isAscii) ↔ ∀ x ∈ xs, (write x).isAscii := by
  rw [listValue]
  cases xs with
  | nil => simp
  | cons x xs => simp [Value.isAscii_arr]

theorem Operation.ascii_toValue {op : Operation} : op.toValue.isAscii ↔
    (∀ t ∈ op.id, isAscii t) ∧ (∀ t ∈ op.summary, isAscii t) ∧ (∀ t ∈ op.description, isAscii t) ∧
      (∀ t ∈ op.tags, isAscii t) ∧
      (∀ p ∈ op.parameters, (p.toValue Parameter.toValue).isAscii) ∧
      (∀ b ∈ op.body, (b.toValue RequestBody.toValue).isAscii) ∧
      ∀ rs ∈ op.responses, ∀ e ∈ rs, isAscii e.1 ∧ (e.2.toValue Response.toValue).isAscii := by
  rw [toValue, Json.Value.isAscii_obj]
  simp (disch := decide) only [List.forall_mem_append, ascii_member, forall_mem_map,
    ascii_textValue, ascii_listValue, ascii_tableOfValues, Json.Value.isAscii_str, and_assoc]
  constructor
  · rintro ⟨hid, hsummary, hdescription, htags, hparameters, hbody, hresponses, -⟩
    exact ⟨hid, hsummary, hdescription, htags, hparameters, hbody, hresponses⟩
  · rintro ⟨hid, hsummary, hdescription, htags, hparameters, hbody, hresponses⟩
    exact ⟨hid, hsummary, hdescription, htags, hparameters, hbody, hresponses, ascii_flagValue⟩

theorem PathItem.ascii_toValue {item : PathItem} : item.toValue.isAscii ↔
    (∀ t ∈ item.summary, isAscii t) ∧ (∀ t ∈ item.description, isAscii t) ∧
      (∀ p ∈ item.parameters, (p.toValue Parameter.toValue).isAscii) ∧
      ∀ e ∈ item.operations, e.2.toValue.isAscii := by
  have hkey : ∀ m : Method, isAscii m.key := by
    intro m
    cases m <;> decide
  rw [toValue, Json.Value.isAscii_obj]
  simp (disch := decide) only [List.forall_mem_append, ascii_member, ascii_textValue,
    ascii_listValue, List.forall_mem_map, hkey, true_and, and_assoc]

theorem Components.ascii_toValue {c : Components} : c.toValue.isAscii ↔
    (∀ e ∈ c.schemas, isAscii e.1 ∧ (Schema.nodeValue e.2).isAscii) ∧
      (∀ e ∈ c.responses, isAscii e.1 ∧ (e.2.toValue Response.toValue).isAscii) ∧
      (∀ e ∈ c.parameters, isAscii e.1 ∧ (e.2.toValue Parameter.toValue).isAscii) ∧
      ∀ e ∈ c.bodies, isAscii e.1 ∧ (e.2.toValue RequestBody.toValue).isAscii := by
  rw [toValue, Json.Value.isAscii_obj]
  simp (disch := decide) only [List.forall_mem_append, ascii_member, ascii_tableValue, and_assoc]

theorem Spec.ascii_toValue {spec : Spec} : spec.toValue.isAscii ↔
    isAscii spec.version ∧ spec.info.toValue.isAscii ∧
      (∀ server ∈ spec.servers, server.toValue.isAscii) ∧
      (∀ e ∈ spec.paths, isAscii e.1 ∧ e.2.toValue.isAscii) ∧
      (∀ c ∈ spec.components, c.toValue.isAscii) ∧ ∀ tag ∈ spec.tags, tag.toValue.isAscii := by
  rw [toValue, Json.Value.isAscii_obj]
  simp (disch := decide) only [List.forall_mem_append, ascii_member, forall_mem_map,
    ascii_listValue, ascii_tableValue, Option.mem_some_iff, forall_eq', Json.Value.isAscii_str,
    and_assoc]

theorem Spec.ascii_of_mem_endpoints {spec : Spec} (h : spec.toValue.isAscii) {e : Endpoint}
    (he : e ∈ spec.endpoints) :
    isAscii e.path ∧ e.item.toValue.isAscii ∧ e.operation.toValue.isAscii := by
  obtain ⟨-, -, -, hpaths, -, -⟩ := ascii_toValue.1 h
  obtain ⟨⟨path, item⟩, hitem, he⟩ := List.mem_flatMap.1 he
  obtain ⟨entry, hentry, rfl⟩ := List.mem_map.1 he
  obtain ⟨hpath, hitem⟩ := hpaths _ hitem
  obtain ⟨-, -, -, hoperations⟩ := PathItem.ascii_toValue.1 hitem
  exact ⟨hpath, hitem, hoperations _ hentry⟩

/-! ## Prepared documents -/

namespace Pointer

theorem ascii_ofComponent {name : String} (h : isAscii name) : isAscii (ofComponent name) := by
  have hbase : isAscii "#/components/schemas/" := by decide
  refine Text.isAscii_append.2 ⟨hbase, Text.isAscii_ofList.2 fun c hc ↦ ?_⟩
  obtain ⟨d, hd, hc⟩ := List.mem_flatMap.1 hc
  have hcodes : ('~'.toNat < 0x80 ∧ '0'.toNat < 0x80) ∧ '1'.toNat < 0x80 := by decide
  split at hc
  · simp only [List.mem_cons, List.not_mem_nil, or_false] at hc
    rcases hc with rfl | rfl
    · exact hcodes.1.1
    · exact hcodes.1.2
  split at hc
  · simp only [List.mem_cons, List.not_mem_nil, or_false] at hc
    rcases hc with rfl | rfl
    · exact hcodes.1.1
    · exact hcodes.2
  · exact List.mem_singleton.1 hc ▸ Text.isAscii_iff.1 h d hd

end Pointer

section

variable {schemas : Table (RefOr Schema)}

theorem ascii_declare {name : String} (hname : isAscii name) {c : RefOr Schema}
    (hc : (Schema.nodeValue c).isAscii) : (Schema.nodeValue (declare name c)).isAscii := by
  cases c with
  | ref path => exact hc
  | inline s =>
    have hs := Schema.ascii_nodeValue_inline.1 hc
    refine Schema.ascii_nodeValue_inline.2 { hs with component := ?_ }
    rintro t ⟨⟩
    exact Pointer.ascii_ofComponent hname

theorem Discriminator.ascii_addEntry {d : Discriminator}
    (h : ∀ e ∈ d.mapping, isAscii e.1 ∧ isAscii e.2) {name : String} (hname : isAscii name) :
    ∀ e ∈ (d.addEntry name).mapping, isAscii e.1 ∧ isAscii e.2 := by
  intro e he
  unfold addEntry at he
  split at he
  · exact h e he
  · rcases Table.mem_of_mem_put he with he | rfl
    · exact h e he
    · exact ⟨hname, Pointer.ascii_ofComponent hname⟩

theorem Discriminator.property_addEntry (d : Discriminator) (name : String) :
    (d.addEntry name).property = d.property := by
  unfold addEntry
  split <;> rfl

theorem ascii_addEntry (h : ∀ e ∈ schemas, isAscii e.1 ∧ (Schema.nodeValue e.2).isAscii)
    (parent : String) {child : String} (hchild : isAscii child) :
    ∀ e ∈ addEntry schemas parent child, isAscii e.1 ∧ (Schema.nodeValue e.2).isAscii := by
  intro e he
  unfold addEntry at he
  split at he
  next s hparent =>
    obtain ⟨hname, hs⟩ := h _ (Table.mem_of_get? hparent)
    have hs := Schema.ascii_nodeValue_inline.1 hs
    rcases Table.mem_of_mem_put he with he | rfl
    · exact h e he
    · refine ⟨hname, Schema.ascii_nodeValue_inline.2 { hs with property := ?_, mapping := ?_ }⟩
      · intro d hd
        obtain ⟨d', hd', rfl⟩ := Option.map_eq_some_iff.1 hd
        rw [Discriminator.property_addEntry]
        exact hs.property d' hd'
      · intro d hd
        obtain ⟨d', hd', rfl⟩ := Option.map_eq_some_iff.1 hd
        exact Discriminator.ascii_addEntry (hs.mapping d' hd') hchild
  next => exact h e he

theorem exists_of_mem_missingEntries {entry : String × String}
    (h : entry ∈ missingEntries schemas) : ∃ c, (entry.2, c) ∈ schemas := by
  obtain ⟨⟨name, c⟩, hc, h⟩ := List.mem_flatMap.1 h
  cases c with
  | ref path => simp at h
  | inline s =>
    obtain ⟨parent, -, rfl⟩ := List.mem_map.1 h
    exact ⟨_, hc⟩

theorem prepareSchemas_eq (schemas : Table (RefOr Schema)) : prepareSchemas schemas =
    (missingEntries (schemas.map fun e ↦ (e.1, declare e.1 e.2))).foldl
      (fun table entry ↦ addEntry table entry.1 entry.2)
      (schemas.map fun e ↦ (e.1, declare e.1 e.2)) := rfl

theorem ascii_prepareSchemas (h : ∀ e ∈ schemas, isAscii e.1 ∧ (Schema.nodeValue e.2).isAscii) :
    ∀ e ∈ prepareSchemas schemas, isAscii e.1 ∧ (Schema.nodeValue e.2).isAscii := by
  have hdeclared : ∀ e ∈ schemas.map fun e ↦ (e.1, declare e.1 e.2),
      isAscii e.1 ∧ (Schema.nodeValue e.2).isAscii := by
    rw [List.forall_mem_map]
    exact fun e he ↦ ⟨(h e he).1, ascii_declare (h e he).1 (h e he).2⟩
  rw [prepareSchemas_eq]
  generalize (schemas.map fun e ↦ (e.1, declare e.1 e.2)) = declared at hdeclared ⊢
  have hchildren : ∀ entry ∈ missingEntries declared, isAscii entry.2 := by
    intro entry hentry
    obtain ⟨c, hc⟩ := exists_of_mem_missingEntries hentry
    exact (hdeclared _ hc).1
  generalize missingEntries declared = entries at hchildren ⊢
  induction entries generalizing declared with
  | nil => exact hdeclared
  | cons entry entries ih =>
    rw [List.forall_mem_cons] at hchildren
    exact ih _ (ascii_addEntry hdeclared entry.1 hchildren.1) hchildren.2

end

theorem Spec.ascii_prepare {spec : Spec} (h : spec.toValue.isAscii) :
    spec.prepare.spec.toValue.isAscii := by
  unfold prepare
  split
  · exact h
  next c hc =>
    obtain ⟨hversion, hinfo, hservers, hpaths, hcomponents, htags⟩ := ascii_toValue.1 h
    obtain ⟨hschemas, hresponses, hparameters, hbodies⟩ :=
      Components.ascii_toValue.1 (hcomponents c hc)
    refine ascii_toValue.2 ⟨hversion, hinfo, hservers, hpaths, ?_, htags⟩
    rintro c' ⟨⟩
    exact Components.ascii_toValue.2
      ⟨ascii_prepareSchemas hschemas, hresponses, hparameters, hbodies⟩

/-! ## References -/

namespace Snapshot

variable {snapshot : Snapshot} {α : Type} {read : Node → Read α}

theorem ascii_of_resolve (hroot : snapshot.root.isAscii) {reference : String} {a : α}
    (h : snapshot.resolve read reference = .ok a) : ∃ n : Node, n.IsAscii ∧ (read n).Gives a := by
  obtain ⟨names, v, hv, hread⟩ := at?_of_resolve h
  exact ⟨.ofValue v, ⟨v, rfl, Json.Value.isAscii_of_at? hv hroot⟩, hread⟩

/-- What stands in an ASCII document or is referred to there is ASCII. -/
theorem ascii_of_get (hroot : snapshot.root.isAscii) {write : α → Value}
    (hread : ∀ n : Node, n.IsAscii → ∀ a, (read n).Gives a → (write a).isAscii) {c : RefOr α}
    (hc : (c.toValue write).isAscii) {a : α} (h : snapshot.get read c = .ok a) :
    (write a).isAscii := by
  cases c with
  | ref path =>
    obtain ⟨n, hn, hgives⟩ := ascii_of_resolve hroot h
    exact hread n hn a hgives
  | inline b =>
    cases h
    exact (RefOr.ascii_toValue.1 hc).2 a rfl

theorem ascii_freeReference {snapshot : Snapshot} {path : String} (h : isAscii path) :
    isAscii (snapshot.freeReference (path ++ "Base")) := by
  have hbase : isAscii "Base" := by decide
  obtain ⟨digits, hdigits, hfree, -⟩ := freeReference_base snapshot path
  have hnumber : isAscii (String.ofList digits) := Text.isAscii_ofList.2 fun c hc ↦
    Text.ascii_of_isAlphanum (Text.isAlphanum_of_isDigit (hdigits c hc))
  rw [hfree, Text.isAscii_append, Text.isAscii_append]
  exact ⟨⟨h, hbase⟩, hnumber⟩

end Snapshot

theorem Env.ascii_aliasKey {env : Env} {path : String} (h : isAscii path) (plain : Bool) :
    isAscii (env.aliasKey path plain) := by
  cases plain
  · exact h
  · exact Snapshot.ascii_freeReference h

theorem Text.subset_of_mem_splitOn {sep : Char} {cs piece : List Char}
    (h : piece ∈ splitOn sep cs) : piece ⊆ cs := by
  induction cs generalizing piece with
  | nil => exact List.mem_singleton.1 h ▸ List.Subset.refl _
  | cons d rest ih =>
    have hrest : ∀ piece ∈ splitOn sep rest, piece ⊆ d :: rest :=
      fun piece hpiece ↦ List.subset_cons_of_subset _ (ih hpiece)
    rw [splitOn] at h
    split at h
    next => exact (List.mem_singleton.1 h) ▸ List.cons_subset_cons _ (List.nil_subset _)
    next first pieces hpieces =>
      rw [hpieces, List.forall_mem_cons] at hrest
      split at h
      · rcases List.mem_cons.1 h with rfl | h
        · exact List.nil_subset _
        · rcases List.mem_cons.1 h with rfl | h
          · exact hrest.1
          · exact hrest.2 piece h
      · rcases List.mem_cons.1 h with rfl | h
        · exact List.cons_subset_cons _ (ih (hpieces ▸ List.mem_cons_self))
        · exact hrest.2 piece h

namespace Pointer

variable {reference : String}

theorem ascii_baseName (h : isAscii reference) : isAscii (baseName reference) := by
  refine Text.isAscii_of_subset h ?_
  rw [List.getLastD_eq_getLast?]
  cases hlast : (Text.splitOn '/' reference.toList).getLast? with
  | none => exact List.nil_subset _
  | some piece => exact Text.subset_of_mem_splitOn (List.mem_of_getLast? hlast)

theorem ascii_displayName (h : isAscii reference) : isAscii (displayName reference) := by
  simp only [displayName]
  split
  · split
    · exact Text.isAscii_of_subset h (List.dropWhile_subset _)
    · exact ascii_baseName h
  · exact ascii_baseName h

end Pointer

end ApiClient
