import ApiClient.Proofs.Compile.Closure
import ApiClient.Proofs.Compile.Mirrors
import ApiClient.Proofs.Document.Records

/-!
# The properties that a mode keeps

The members of an object are the properties that its mode keeps, in their order. A property that is
a reference is kept in every mode. What stands in place is judged by everything inside, so a mode
can lose a property that is not marked itself.
-/

namespace ApiClient

open TypeScript

/-- Whether a mode shows a property: a reference always, and a schema in place by its marks. -/
def RefOr.ShownIn (mode : Mode) : RefOr Schema → Prop
  | .ref _ => True
  | .inline s => mode.MayShow s

/-- Nothing in place is read-only or write-only. -/
def RefOr.Unmarked : RefOr Schema → Prop
  | .ref _ => True
  | .inline s => ¬s.HasReadOnly ∧ ¬s.HasWriteOnly

theorem RefOr.shownIn_all_iff {node : RefOr Schema} :
    (∀ mode, node.ShownIn mode) ↔ node.Unmarked := by
  cases node with
  | ref path => exact ⟨fun _ ↦ trivial, fun _ _ ↦ trivial⟩
  | inline s =>
    refine ⟨fun h ↦ h .base, ?_⟩
    rintro ⟨hread, hwrite⟩ (_ | _ | _)
    · exact ⟨hread, hwrite⟩
    · exact fun h ↦ absurd h hwrite
    · exact fun h ↦ absurd h hread

def TypeScript.Ty.HasMember (t : Ty) (name : String) : Prop :=
  ∃ ms index, t = .object ms index ∧ name ∈ ms.map Member.name

/-- What comes of a plan it may give, whatever the references in it are answered. -/
theorem Plan.mayGive_of_run {α : Type} {x : Plan α} {answer : Follow} {ctx ctx' : Context} {a : α}
    (h : (x.run answer).outcome ctx = (.ok a, ctx')) : x.MayGive a := by
  induction x generalizing ctx with
  | done b =>
    cases h
    exact fun P hP ↦ hP
  | act b next ih =>
    obtain ⟨y, ctx₁, -, hnext⟩ := Build.outcome_bind_eq_ok.1 h
    exact fun P hP ↦ ih y hnext P (hP y trivial)
  | meet path mode plain next ih =>
    obtain ⟨t, ctx₁, -, hnext⟩ := Build.outcome_bind_eq_ok.1 h
    exact fun P hP ↦ ih t hnext P (hP t trivial)

namespace Env

variable {env : Env} {mode : Mode} {s : Schema} {required : Option (List String)} {t : Ty}
  {name : String} {node : RefOr Schema}

/-- The type of the object that is made of the properties of a schema, from some context and with
some answers to the references among them. -/
def CompilesObject (env : Env) (s : Schema) (required : Option (List String)) (mode : Mode)
    (t : Ty) : Prop :=
  ∃ answer ctx ctx', ((objectType env s required mode).run answer).outcome ctx = (.ok t, ctx')

theorem keeps_iff_shownIn (hmodes : env.options.singleMode = false) :
    mode.keeps (env.ownMarks node) ↔ node.ShownIn mode := by
  cases node with
  | inline s => exact keeps_iff_mayShow hmodes
  | ref path =>
    have hmarks : env.ownMarks (.ref path) = .none := by
      simp [ownMarks]
    rw [hmarks]
    exact iff_of_true (by cases mode <;> rfl) trivial

/-- The members are made of the properties that the mode keeps, one after the other. -/
theorem memberTypes_names (properties : List (String × RefOr Schema)) (required : List String) :
    (memberTypes env properties required mode).Surely fun ms ↦ ms.map Member.name =
      Table.keys (properties.filter fun p ↦ mode.keeps (env.ownMarks p.2)) := by
  induction properties with
  | nil =>
    rw [memberTypes]
    exact .done rfl
  | cons p rest ih =>
    obtain ⟨name, node⟩ := p
    rw [memberTypes]
    by_cases hkept : mode.keeps (env.ownMarks node) = true
    · rw [if_pos hkept, List.filter_cons_of_pos (by exact hkept)]
      refine .bind (.of_forall fun t ↦ .bind (ih.mono fun ms hms ↦ ?_))
      split <;> exact congrArg (name :: ·) hms
    · rw [if_neg hkept, List.filter_cons_of_neg (by exact hkept)]
      exact ih

theorem CompilesObject.names (h : env.CompilesObject s required mode t) :
    ∃ ms index, t = .object ms index ∧ ms.map Member.name =
      Table.keys ((s.properties.getD []).filter fun p ↦ mode.keeps (env.ownMarks p.2)) := by
  obtain ⟨answer, ctx, ctx', hout⟩ := h
  refine Plan.mayGive_of_run hout (fun t ↦ ∃ ms index, t = .object ms index ∧ ms.map Member.name =
    Table.keys ((s.properties.getD []).filter fun p ↦ mode.keeps (env.ownMarks p.2))) ?_
  rw [objectType]
  refine .bind ((memberTypes_names _ _).mono fun ms hms ↦ .bind (.of_forall fun index ↦ ?_))
  exact ⟨ms, index, rfl, hms⟩

theorem CompilesObject.hasMember_iff (hmodes : env.options.singleMode = false)
    (h : env.CompilesObject s required mode t) : t.HasMember name ↔
      ∃ node, (name, node) ∈ s.properties.getD [] ∧ node.ShownIn mode := by
  obtain ⟨ms, index, rfl, hnames⟩ := h.names
  have hmember : (Ty.object ms index).HasMember name ↔ name ∈ ms.map Member.name := by
    refine ⟨?_, fun hname ↦ ⟨ms, index, rfl, hname⟩⟩
    rintro ⟨_, _, ⟨⟩, hname⟩
    exact hname
  rw [hmember, hnames]
  constructor
  · intro hname
    obtain ⟨⟨_, node⟩, hmem, rfl⟩ := List.mem_map.1 hname
    obtain ⟨hproperty, hkept⟩ := List.mem_filter.1 hmem
    exact ⟨node, hproperty, (keeps_iff_shownIn hmodes).1 hkept⟩
  · rintro ⟨node, hproperty, hshown⟩
    exact List.mem_map.2 ⟨_, List.mem_filter.2 ⟨hproperty, (keeps_iff_shownIn hmodes).2 hshown⟩,
      rfl⟩

end Env

/-- In whatever mode an object is compiled and however its references are answered, a property is a
member of it exactly if the mode shows what the property is. So the properties that no mode loses
are the references, and the schemas in place in which nothing is marked. -/
theorem shown_properties {env : Env} (hmodes : env.options.singleMode = false) {s : Schema}
    (hkeys : (Table.keys (s.properties.getD [])).Nodup) {name : String} {node : RefOr Schema}
    (hproperty : (name, node) ∈ s.properties.getD []) :
    (∀ required mode t, env.CompilesObject s required mode t →
      (t.HasMember name ↔ node.ShownIn mode)) ∧
    ((∀ mode, node.ShownIn mode) ↔ node.Unmarked) := by
  refine ⟨fun required mode t h ↦ ?_, RefOr.shownIn_all_iff⟩
  rw [h.hasMember_iff hmodes]
  refine ⟨?_, fun hshown ↦ ⟨node, hproperty, hshown⟩⟩
  rintro ⟨other, hother, hshown⟩
  have hsame := (Table.get?_of_mem hkeys hother).symm.trans (Table.get?_of_mem hkeys hproperty)
  obtain rfl := Option.some.inj hsame
  exact hshown

namespace Ticket

/-- A document without components. -/
def env : Env where
  snapshot := { root := .obj [("openapi", .str "3.0.3"), ("paths", .obj [])] }
  discriminating := []
  options := {}

def details : Schema where
  properties := some [("id", .inline { readOnly := some true }), ("note", .inline {})]

/-- A schema with an ordinary property in which something is read-only. -/
def ticket : Schema where
  properties := some [("details", .inline details)]

theorem hasReadOnly : details.HasReadOnly :=
  ⟨{ readOnly := some true }, .single List.mem_cons_self, rfl⟩

/-- Nothing in the details is write-only. -/
theorem not_hasWriteOnly : ¬details.HasWriteOnly := by
  rintro ⟨t, ht, hmark⟩
  rcases ht.cases_head with rfl | ⟨u, hu, ht⟩
  · cases hmark
  · have hleaf : u.scanned = [] ∧ u.writeOnly = none := by
      rcases List.mem_cons.1 hu with heq | hu
      · cases heq
        exact ⟨rfl, rfl⟩
      · cases List.mem_singleton.1 hu
        exact ⟨rfl, rfl⟩
    rcases ht.cases_head with rfl | ⟨v, hv, -⟩
    · cases hleaf.2.symm.trans hmark
    · rw [hleaf.1] at hv
      cases hv

theorem not_shown : ¬(RefOr.inline details).ShownIn .write :=
  fun hshown ↦ not_hasWriteOnly (hshown hasReadOnly)

theorem hidden : ¬Mode.write.keeps (env.ownMarks (.inline details)) = true :=
  fun hkept ↦ not_shown ((Env.keeps_iff_shownIn rfl).1 hkept)

theorem compilesObject_write : env.CompilesObject ticket none .write (.object [] none) := by
  have hplan : objectType env ticket none .write = .done (.object [] none) := by
    rw [objectType]
    simp [ticket, memberTypes, additionalType, hidden]
  refine ⟨fun _ _ _ ↦ pure .any, {}, {}, ?_⟩
  rw [hplan]
  rfl

end Ticket

open Ticket in
/-- The write mode loses a property that is neither read-only nor write-only. -/
theorem property_lost : env.options.singleMode = false ∧
    (Table.keys (ticket.properties.getD [])).Nodup ∧
    ("details", .inline details) ∈ ticket.properties.getD [] ∧
    details.readOnly = none ∧ details.writeOnly = none ∧
    ∃ t, env.CompilesObject ticket none .write t ∧ ¬t.HasMember "details" := by
  have hkeys : (Table.keys (ticket.properties.getD [])).Nodup := by
    decide
  have hproperty : ("details", .inline details) ∈ ticket.properties.getD [] := List.mem_cons_self
  refine ⟨rfl, hkeys, hproperty, rfl, rfl, _, compilesObject_write, ?_⟩
  rw [(shown_properties rfl hkeys hproperty).1 none .write _ compilesObject_write]
  exact not_shown

end ApiClient
