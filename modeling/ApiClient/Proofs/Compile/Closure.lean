import ApiClient.Compile.Scan
import ApiClient.Proofs.Document.Texts
import Mathlib.Logic.Relation

/-!
# The closure of a schema

The schemas that a scan is about: a schema itself, its scanned parts, and what references among them
point to. References that point nowhere are in the closure too. Leaving some references out makes
the closure smaller, but a closure that leaves out a reference loses nothing once it starts from
what the reference points to, since a way that comes back to the reference can be cut short. Without
references there are only the schemas that stand inside one another. Whether a mode may show a
property is told by their marks.
-/

namespace ApiClient

/-- Whether there is the mark that a mode stands for. -/
def Flags.has (flags : Flags) : Mode → Bool
  | .base => false
  | .read => flags.readOnly
  | .write => flags.writeOnly

namespace Flags

variable {a b : Flags} {mode : Mode}

theorem has_join : (a.join b).has mode = (a.has mode || b.has mode) := by
  cases mode <;> rfl

theorem has_none : none.has mode = false := by
  cases mode <;> rfl

end Flags

theorem Schema.has_read {s : Schema} : s.marks.has .read ↔ s.readOnly = some true := by
  rcases h : s.readOnly with _ | _ | _ <;> simp [marks, Flags.has, h]

theorem Schema.has_write {s : Schema} : s.marks.has .write ↔ s.writeOnly = some true := by
  rcases h : s.writeOnly with _ | _ | _ <;> simp [marks, Flags.has, h]

/-- What a scan may come upon. -/
inductive Finding where
  | mark (mode : Mode)
  | dangling

/-- Whether marks account for a finding. A scan that has both marks stops, and may so miss a
reference that points nowhere. -/
def Flags.covers (flags : Flags) : Finding → Bool
  | .mark mode => flags.has mode
  | .dangling => flags.both

/-- What a node is found to be. A reference is found only if it points nowhere. -/
def RefOr.bears : RefOr Schema → Finding → Bool
  | .inline s, .mark mode => s.marks.has mode
  | .ref _, .dangling => true
  | _, _ => false

namespace Flags

variable {a b : Flags} {finding : Finding}

theorem covers_join_left (h : a.covers finding) : (a.join b).covers finding := by
  cases finding with
  | mark mode => exact has_join.trans (by rw [show a.has mode = true from h, Bool.true_or])
  | dangling => simp_all [covers, both, join]

theorem covers_join_right (h : b.covers finding) : (a.join b).covers finding := by
  cases finding with
  | mark mode => exact has_join.trans (by rw [show b.has mode = true from h, Bool.or_true])
  | dangling => simp_all [covers, both, join]

theorem covers_of_both (h : a.both) {c : RefOr Schema} (hc : c.bears finding) :
    a.covers finding := by
  cases finding with
  | mark mode =>
    cases c with
    | ref path => cases hc
    | inline s =>
      unfold both at h
      cases mode <;> simp_all [covers, has, RefOr.bears]
  | dangling => exact h

end Flags

theorem Schema.part_of_scanned {s : Schema} {c : RefOr Schema} (h : c ∈ s.scanned) : s.Part c := by
  unfold scanned at h
  split at h
  next i hi => exact List.mem_singleton.1 h ▸ .items hi
  next =>
    simp only [List.mem_append, or_assoc] at h
    rcases h with h | h | h | h
    · obtain ⟨⟨name, d⟩, hd, rfl⟩ := List.mem_map.1 h
      obtain ⟨ps, hps, hd⟩ := mem_getD_nil hd
      exact .property hps hd
    · obtain ⟨cs, hcs, hc⟩ := mem_getD_nil h
      exact .allOf hcs hc
    · obtain ⟨cs, hcs, hc⟩ := mem_getD_nil h
      exact .anyOf hcs hc
    · obtain ⟨cs, hcs, hc⟩ := mem_getD_nil h
      exact .oneOf hcs hc

/-- The closure of a node without the ways through some references. -/
inductive Closure (snapshot : Snapshot) (left : List String) :
    RefOr Schema → RefOr Schema → Prop where
  | self (s : Schema) : Closure snapshot left (.inline s) (.inline s)
  | dangling {path : String} (hpath : path ∉ left)
      (hs : ∀ s, snapshot.resolve Schema.ofNode path ≠ .ok s) :
      Closure snapshot left (.ref path) (.ref path)
  | part {s : Schema} {c d : RefOr Schema} (hc : c ∈ s.scanned) (h : Closure snapshot left c d) :
      Closure snapshot left (.inline s) d
  | ref {path : String} {s : Schema} {d : RefOr Schema} (hpath : path ∉ left)
      (hs : snapshot.resolve Schema.ofNode path = .ok s)
      (h : Closure snapshot left (.inline s) d) : Closure snapshot left (.ref path) d

namespace Closure

variable {snapshot : Snapshot} {left left' : List String} {c d : RefOr Schema} {s : Schema}
  {path : String}

theorem mono (h : Closure snapshot left c d) (hleft : left' ⊆ left) :
    Closure snapshot left' c d := by
  induction h with
  | self s => exact .self s
  | dangling hpath hs => exact .dangling (fun hmem ↦ hpath (hleft hmem)) hs
  | part hc _ ih => exact .part hc ih
  | ref hpath hs _ ih => exact .ref (fun hmem ↦ hpath (hleft hmem)) hs ih

/-- A way either passes by a reference or can start anew from what it points to. -/
theorem passes_or (hs : snapshot.resolve Schema.ofNode path = .ok s)
    (h : Closure snapshot left c d) :
    Closure snapshot (path :: left) c d ∨ Closure snapshot (path :: left) (.inline s) d := by
  induction h with
  | self t => exact .inl (.self t)
  | @dangling other hother hnone =>
    refine .inl (.dangling ?_ hnone)
    rintro (_ | ⟨_, hmem⟩)
    · exact hnone s hs
    · exact hother hmem
  | part hc _ ih => exact ih.imp (.part hc) id
  | @ref other t d hother ht _ ih =>
    rcases ih with ih | ih
    · by_cases heq : other = path
      · subst heq
        cases hs.symm.trans ht
        exact .inr ih
      · exact .inl (.ref (by simp [heq, hother]) ht ih)
    · exact .inr ih

/-- From what a reference points to, the reference is not needed. -/
theorem of_target (h : Closure snapshot left (.ref path) d)
    (hs : snapshot.resolve Schema.ofNode path = .ok s) :
    Closure snapshot (path :: left) (.inline s) d := by
  cases h with
  | dangling _ hnone => exact absurd hs (hnone s)
  | ref _ hs' h =>
    cases hs.symm.trans hs'
    exact (h.passes_or hs).elim id id

theorem iff_target (hs : snapshot.resolve Schema.ofNode path = .ok s) :
    Closure snapshot [] (.ref path) d ↔ Closure snapshot [] (.inline s) d :=
  ⟨fun h ↦ (h.of_target hs).mono (List.nil_subset _), .ref List.not_mem_nil hs⟩

end Closure

/-- What can be found in the closure of a node. -/
def Shows (snapshot : Snapshot) (left : List String) (c : RefOr Schema) (finding : Finding) :
    Prop :=
  ∃ d, Closure snapshot left c d ∧ d.bears finding

namespace Shows

variable {snapshot : Snapshot} {left left' : List String} {c : RefOr Schema} {s : Schema}
  {path : String} {finding : Finding}

theorem mono (h : Shows snapshot left c finding) (hleft : left' ⊆ left) :
    Shows snapshot left' c finding :=
  h.imp fun _ hd ↦ hd.imp (·.mono hleft) id

theorem inline_iff : Shows snapshot left (.inline s) finding ↔
    (RefOr.inline s).bears finding ∨ ∃ c ∈ s.scanned, Shows snapshot left c finding := by
  constructor
  · rintro ⟨d, h, hd⟩
    cases h with
    | self => exact .inl hd
    | part hc h => exact .inr ⟨_, hc, d, h, hd⟩
  · rintro (h | ⟨c, hc, d, h, hd⟩)
    · exact ⟨_, .self s, h⟩
    · exact ⟨d, .part hc h, hd⟩

theorem of_target (h : Shows snapshot left (.ref path) finding)
    (hs : snapshot.resolve Schema.ofNode path = .ok s) :
    Shows snapshot (path :: left) (.inline s) finding :=
  h.imp fun _ hd ↦ hd.imp (·.of_target hs) id

theorem ref_iff (hs : snapshot.resolve Schema.ofNode path = .ok s) :
    Shows snapshot [] (.ref path) finding ↔ Shows snapshot [] (.inline s) finding :=
  exists_congr fun _ ↦ and_congr_left' (Closure.iff_target hs)

theorem not_of_mem (hpath : path ∈ left) : ¬Shows snapshot left (.ref path) finding := by
  rintro ⟨d, h, -⟩
  cases h with
  | dangling hnew _ => exact hnew hpath
  | ref hnew _ _ => exact hnew hpath

end Shows

theorem Flags.has_foldl {α : Type} {mode : Mode} {f : Flags → α → Flags} {p : α → Prop}
    (hf : ∀ flags a, (f flags a).has mode ↔ flags.has mode ∨ p a) (l : List α) (flags : Flags) :
    (l.foldl f flags).has mode ↔ flags.has mode ∨ ∃ a ∈ l, p a := by
  induction l generalizing flags with
  | nil => simp
  | cons a l ih => simp [ih, hf, or_assoc]

theorem Schema.has_inlineMarks {s : Schema} {mode : Mode} : s.inlineMarks.has mode ↔
    s.marks.has mode ∨ ∃ t, .inline t ∈ s.scanned ∧ t.inlineMarks.has mode := by
  rw [inlineMarks, Flags.has_foldl (p := fun c ↦ ∃ t, c.1 = .inline t ∧ t.inlineMarks.has mode)]
  · simp only [Subtype.exists, List.mem_attach, true_and]
    exact or_congr_right ⟨fun ⟨_, ht, t, h, hmarks⟩ ↦ ⟨t, h ▸ ht, hmarks⟩,
      fun ⟨t, ht, hmarks⟩ ↦ ⟨_, ht, t, rfl, hmarks⟩⟩
  · rintro flags ⟨c, hc⟩
    cases c with
    | ref path => simp
    | inline t => simp [Flags.has_join]

/-- A schema stands in another one where that is scanned, without a reference between them. -/
abbrev Schema.Inside : Schema → Schema → Prop :=
  Relation.ReflTransGen fun s t ↦ .inline t ∈ s.scanned

theorem Schema.has_inlineMarks_iff {s : Schema} {mode : Mode} :
    s.inlineMarks.has mode ↔ ∃ t, s.Inside t ∧ t.marks.has mode := by
  constructor
  · intro h
    induction hsize : sizeOf s using Nat.strongRecOn generalizing s with
    | ind size ih =>
    subst hsize
    rcases has_inlineMarks.1 h with h | ⟨t, ht, h⟩
    · exact ⟨s, .refl, h⟩
    · have hlt := sizeOf_lt_of_mem_scanned ht
      rw [RefOr.inline.sizeOf_spec] at hlt
      obtain ⟨u, hu, hmarks⟩ := ih (sizeOf t) (by omega) h rfl
      exact ⟨u, .head ht hu, hmarks⟩
  · rintro ⟨t, ht, hmarks⟩
    induction ht using Relation.ReflTransGen.head_induction_on with
    | refl => exact has_inlineMarks.2 (.inl hmarks)
    | head hchild _ ih => exact has_inlineMarks.2 (.inr ⟨_, hchild, ih⟩)

/-- The marks in the parts that stand in a schema are in its closure. -/
theorem shows_of_inlineMarks {snapshot : Snapshot} {s : Schema} {mode : Mode}
    (h : s.inlineMarks.has mode) : Shows snapshot [] (.inline s) (.mark mode) := by
  obtain ⟨t, ht, hmarks⟩ := Schema.has_inlineMarks_iff.1 h
  clear h
  induction ht using Relation.ReflTransGen.head_induction_on with
  | refl => exact Shows.inline_iff.2 (.inl hmarks)
  | head hchild _ ih => exact Shows.inline_iff.2 (.inr ⟨_, hchild, ih⟩)

/-- Whether something in a schema, references aside, is read-only. -/
def Schema.HasReadOnly (s : Schema) : Prop :=
  ∃ t, s.Inside t ∧ t.readOnly = some true

def Schema.HasWriteOnly (s : Schema) : Prop :=
  ∃ t, s.Inside t ∧ t.writeOnly = some true

/-- What a mode may show of properties with a schema in place: nothing that is marked for the other
side alone, and in the base mode nothing that is marked at all. -/
def Mode.MayShow (mode : Mode) (s : Schema) : Prop :=
  match mode with
  | .base => ¬s.HasReadOnly ∧ ¬s.HasWriteOnly
  | .read => s.HasWriteOnly → s.HasReadOnly
  | .write => s.HasReadOnly → s.HasWriteOnly

theorem Schema.readOnly_inlineMarks {s : Schema} : s.inlineMarks.readOnly ↔ s.HasReadOnly := by
  rw [show s.inlineMarks.readOnly = s.inlineMarks.has .read from rfl, has_inlineMarks_iff]
  simp only [has_read, HasReadOnly]

theorem Schema.writeOnly_inlineMarks {s : Schema} : s.inlineMarks.writeOnly ↔ s.HasWriteOnly := by
  rw [show s.inlineMarks.writeOnly = s.inlineMarks.has .write from rfl, has_inlineMarks_iff]
  simp only [has_write, HasWriteOnly]

theorem Env.keeps_iff_mayShow {env : Env} (hmodes : env.options.singleMode = false) {mode : Mode}
    {s : Schema} : mode.keeps (env.ownMarks (.inline s)) ↔ mode.MayShow s := by
  have hmarks : env.ownMarks (.inline s) = s.inlineMarks := by
    simp [ownMarks, hmodes]
  rw [hmarks]
  cases mode <;>
    simp only [Mode.keeps, Mode.MayShow, ← Schema.readOnly_inlineMarks,
      ← Schema.writeOnly_inlineMarks] <;>
    cases s.inlineMarks.readOnly <;> cases s.inlineMarks.writeOnly <;> decide

theorem Env.ownMarks_readOnly {env : Env} (hmodes : env.options.singleMode = false) :
    env.ownMarks (.inline { readOnly := some true }) = ⟨true, false⟩ := by
  rw [ownMarks, hmodes]
  show Schema.inlineMarks _ = _
  rw [Schema.inlineMarks]
  rfl

end ApiClient
