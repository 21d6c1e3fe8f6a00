import ApiClient.Operation.Media
import Mathlib.Tactic.Common

/-!
# The media types of a body

The encoding of a body is that of the media type that comes first in the order of preference,
wherever it stands in the document. The schema is that of the first well-formed media type of the
document. Only if this one has the selected encoding does the schema belong to the encoding for
certain: otherwise the same media types can have schemas that let the two fall apart.
-/

namespace ApiClient.Media

/-- The encoding of a body with one media type. -/
def encoding? (mime : String) : Option BodyFormat :=
  match bodyFormats.find? fun entry ↦ entry.1 == mime with
  | some (_, format) => some format
  | none => if isJson mime then some .json else none

/-- The place of a media type in the order of preference, behind the list if it is not in it. -/
def rank (mime : String) : Nat :=
  bodyFormats.findIdx fun entry ↦ entry.1 == mime

/-- A media type with an encoding such that none with a better place has one. -/
structure Preferred (mimes : List String) (mime : String) : Prop where
  mem : mime ∈ mimes
  encoded : (encoding? mime).isSome
  first : ∀ other ∈ mimes, (encoding? other).isSome → rank mime ≤ rank other

variable {content content' : Table MediaType} {mime other : String} {format : BodyFormat}
  {schema : RefOr Schema}

/-! ## The preferred media type -/

theorem encoding?_of_mem (h : (mime, format) ∈ bodyFormats) : encoding? mime = some format := by
  have htable : ∀ entry ∈ bodyFormats, encoding? entry.1 = some entry.2 := by decide
  exact htable _ h

theorem rank_le {i : Nat} (hi : i < bodyFormats.length) (h : bodyFormats[i].1 = mime) :
    rank mime ≤ i := by
  by_contra hlt
  have hother := List.not_of_lt_findIdx (Nat.lt_of_not_le hlt)
  rw [h, beq_self_eq_true] at hother
  cases hother

theorem getElem_rank (h : rank mime < bodyFormats.length) : bodyFormats[rank mime].1 = mime :=
  beq_iff_eq.1 (List.findIdx_getElem (w := h))

theorem getElem?_rank (h : rank mime < bodyFormats.length) :
    (bodyFormats[rank mime]?).map Prod.fst = some mime := by
  rw [List.getElem?_eq_getElem h, Option.map_some, getElem_rank h]

theorem rank_le_length (mime : String) : rank mime ≤ bodyFormats.length :=
  List.findIdx_le_length

/-- A media type that is not listed can only be encoded as JSON. -/
theorem encoding?_of_rank (h : rank mime = bodyFormats.length) :
    encoding? mime = if isJson mime then some .json else none := by
  have hnone : bodyFormats.find? (fun entry ↦ entry.1 == mime) = none :=
    List.find?_eq_none.2 fun entry hentry ↦
      Bool.eq_false_iff.1 (List.findIdx_eq_length.1 h entry hentry)
  rw [encoding?, hnone]

theorem encoding?_eq_of_rank_eq (h : rank mime = rank other) (hmime : (encoding? mime).isSome)
    (hother : (encoding? other).isSome) : encoding? mime = encoding? other := by
  rcases Nat.lt_or_ge (rank mime) bodyFormats.length with hlt | hge
  · have hmime := getElem?_rank hlt
    rw [h, getElem?_rank (h ▸ hlt)] at hmime
    have hsame : other = mime := Option.some.inj hmime
    rw [hsame]
  · have hlast := Nat.le_antisymm (rank_le_length mime) hge
    rw [encoding?_of_rank hlast] at hmime ⊢
    rw [encoding?_of_rank (h ▸ hlast)] at hother ⊢
    split at hmime <;> split at hother <;> simp_all

theorem rank_of_not_listed (hnone : ∀ entry ∈ bodyFormats, ¬Table.has content entry.1)
    (hmime : mime ∈ Table.keys content) : rank mime = bodyFormats.length := by
  refine List.findIdx_eq_length.2 fun entry hentry ↦ Bool.eq_false_iff.2 fun hsame ↦ ?_
  rw [beq_iff_eq] at hsame
  exact hnone entry hentry (Table.has_iff_mem_keys.2 (hsame ▸ hmime))

theorem exists_preferred (h : bodyFormat content = some format) :
    ∃ mime, Preferred (Table.keys content) mime ∧ encoding? mime = some format := by
  unfold bodyFormat at h
  split at h
  next mime found hfind =>
    obtain rfl := Option.some.inj h
    obtain ⟨hhas, i, hi, hget, hbefore⟩ := List.find?_eq_some_iff_getElem.1 hfind
    have hencoding : encoding? mime = some found :=
      encoding?_of_mem (List.mem_of_find?_eq_some hfind)
    refine ⟨mime, ⟨Table.has_iff_mem_keys.1 hhas, by rw [hencoding]; rfl, ?_⟩, hencoding⟩
    intro other hother _
    refine Nat.le_trans (rank_le hi (by rw [hget])) ?_
    -- a listed media type with a better place is not in the content
    by_contra hlt
    have hi' : rank other < i := Nat.lt_of_not_le hlt
    have habsent : Table.has content bodyFormats[rank other].1 = false :=
      (Bool.not_eq_eq_eq_not).1 (hbefore (rank other) hi')
    rw [getElem_rank (Nat.lt_trans hi' hi), Table.has_iff_mem_keys.2 hother] at habsent
    cases habsent
  next hnone =>
    have hnone : ∀ entry ∈ bodyFormats, ¬Table.has content entry.1 := List.find?_eq_none.1 hnone
    split at h
    next hjson =>
      obtain rfl := Option.some.inj h
      obtain ⟨mime, hmime, hjson⟩ := List.any_eq_true.1 hjson
      have hencoding : encoding? mime = some .json := by
        rw [encoding?_of_rank (rank_of_not_listed hnone hmime), if_pos hjson]
      refine ⟨mime, ⟨hmime, by rw [hencoding]; rfl, fun other hother _ ↦ ?_⟩, hencoding⟩
      have hlast := rank_of_not_listed hnone hmime
      exact Nat.le_of_eq (hlast.trans (rank_of_not_listed hnone hother).symm)
    next => cases h

theorem isSome_bodyFormat (hmime : mime ∈ Table.keys content) (h : (encoding? mime).isSome) :
    (bodyFormat content).isSome := by
  unfold bodyFormat
  split
  next => rfl
  next hnone =>
    have hnone : ∀ entry ∈ bodyFormats, ¬Table.has content entry.1 := List.find?_eq_none.1 hnone
    have hjson : isJson mime := by
      rw [encoding?_of_rank (rank_of_not_listed hnone hmime)] at h
      split at h
      next hjson => exact hjson
      next => cases h
    rw [if_pos (List.any_eq_true.2 ⟨mime, hmime, hjson⟩)]
    rfl

/-- The encoding of a body is that of the preferred media type. -/
theorem bodyFormat_eq_some_iff : bodyFormat content = some format ↔
    ∃ mime, Preferred (Table.keys content) mime ∧ encoding? mime = some format := by
  refine ⟨exists_preferred, ?_⟩
  rintro ⟨mime, hmime, hencoding⟩
  obtain ⟨found, hfound⟩ := Option.isSome_iff_exists.1 (isSome_bodyFormat hmime.mem hmime.encoded)
  obtain ⟨best, hbest, hbest'⟩ := exists_preferred hfound
  have hrank : rank mime = rank best :=
    Nat.le_antisymm (hmime.first best hbest.mem hbest.encoded)
      (hbest.first mime hmime.mem hmime.encoded)
  have hsame := encoding?_eq_of_rank_eq hrank hmime.encoded hbest.encoded
  rw [hfound, ← hbest', ← hsame, hencoding]

/-! ## The declared schema -/

/-- The first well-formed media type of a content table. -/
def first? (content : Table MediaType) : Option (String × MediaType) :=
  content.find? fun entry ↦ isMediaType entry.1

/-- The schema that is found in a content table, if its first well-formed media type has one. -/
def declared? (content : Table MediaType) : Option (RefOr Schema) :=
  (first? content).bind fun entry ↦ entry.2.schema

/-- A media type of the encoding has the schema. -/
def DeclaredFor (content : Table MediaType) (format : BodyFormat) (schema : RefOr Schema) : Prop :=
  ∃ mime media, (mime, media) ∈ content ∧ encoding? mime = some format ∧ media.schema = some schema

theorem schemaOf_of_declared (h : declared? content = some schema) : schemaOf content = schema := by
  unfold schemaOf
  split
  next found hfound => exact Option.some.inj (hfound.symm.trans h)
  next hnone => cases hnone.symm.trans h

theorem exists_first (h : declared? content = some schema) :
    ∃ mime media, first? content = some (mime, media) ∧
      media.schema = some schema := by
  obtain ⟨⟨mime, media⟩, hfirst, hschema⟩ := Option.bind_eq_some_iff.1 h
  exact ⟨mime, media, hfirst, hschema⟩

theorem bodyFormat_congr (h : Table.keys content' = Table.keys content) :
    bodyFormat content' = bodyFormat content := by
  have hhas : Table.has content' = Table.has content := by
    funext mime
    rw [Bool.eq_iff_iff, Table.has_iff_mem_keys, Table.has_iff_mem_keys, h]
  rw [bodyFormat, bodyFormat, hhas, h]

/-- The content with no schemas but those of one media type. -/
def only (mime : String) (content : Table MediaType) : Table MediaType :=
  content.map fun entry ↦ (entry.1, if entry.1 = mime then entry.2 else {})

theorem keys_only (mime : String) (content : Table MediaType) :
    Table.keys (only mime content) = Table.keys content := by
  rw [Table.keys, only, List.map_map]
  rfl

theorem declared?_only {media : MediaType}
    (h : first? content = some (mime, media)) :
    declared? (only mime content) = media.schema := by
  have hfirst : first? (only mime content) =
      (first? content).map fun entry ↦ (entry.1, if entry.1 = mime then entry.2 else {}) := by
    rw [first?, only, List.find?_map]
    rfl
  rw [declared?, hfirst, h, Option.map_some, if_pos rfl]
  rfl

theorem not_declaredFor_only (h : encoding? mime ≠ some format) :
    ¬DeclaredFor (only mime content) format schema := by
  rintro ⟨other, media', hmem, hencoding, hschema⟩
  obtain ⟨⟨other', media⟩, -, heq⟩ := List.mem_map.1 hmem
  obtain ⟨rfl, rfl⟩ := Prod.mk.inj heq
  split at hschema
  next hsame => exact h (hsame ▸ hencoding)
  next => cases hschema

/-- The schema of a body is that of the first well-formed media type, and its encoding that of the
preferred one. The schema is one of the encoding if the first media type has this encoding. If it
has not, the schema is not, once the same media types have no schemas but that of the first one. -/
theorem body_of_first_media_type (hformat : bodyFormat content = some format)
    (hschema : declared? content = some schema) :
    ∃ first best media, first? content = some (first, media) ∧
      media.schema = some schema ∧ schemaOf content = schema ∧
      Preferred (Table.keys content) best ∧ encoding? best = some format ∧
      (encoding? first = encoding? best → DeclaredFor content format schema) ∧
      (encoding? first ≠ encoding? best →
        Table.keys (only first content) = Table.keys content ∧
        bodyFormat (only first content) = some format ∧
        schemaOf (only first content) = schema ∧ declared? (only first content) = some schema ∧
        ¬DeclaredFor (only first content) format schema) := by
  obtain ⟨first, media, hfirst, hmedia⟩ := exists_first hschema
  obtain ⟨best, hbest, hencoding⟩ := bodyFormat_eq_some_iff.1 hformat
  refine ⟨first, best, media, hfirst, hmedia, schemaOf_of_declared hschema, hbest, hencoding,
    fun hsame ↦ ?_, fun hother ↦ ?_⟩
  · exact ⟨first, media, List.mem_of_find?_eq_some hfirst, hsame.trans hencoding, hmedia⟩
  · have hkeys := keys_only first content
    have hdeclared : declared? (only first content) = some schema :=
      (declared?_only hfirst).trans hmedia
    exact ⟨hkeys, (bodyFormat_congr hkeys).trans hformat, schemaOf_of_declared hdeclared, hdeclared,
      not_declaredFor_only (hencoding ▸ hother)⟩

namespace Pair

def text : RefOr Schema :=
  .inline { types := some (.one .string) }

def whole : RefOr Schema :=
  .inline { types := some (.one .integer) }

/-- A text for the first media type and a whole number for the second. -/
def table (first second : String) : Table MediaType :=
  [(first, ⟨some text⟩), (second, ⟨some whole⟩)]

theorem text_ne_whole : text ≠ whole :=
  nofun

theorem first?_table (first second : String) (h : isMediaType first) :
    first? (table first second) = some (first, ⟨some text⟩) :=
  List.find?_cons_of_pos h

theorem declared?_table (first second : String) (h : isMediaType first) :
    declared? (table first second) = some text := by
  rw [declared?, first?_table first second h]
  rfl

end Pair

/-- A JSON type in front of the preferred one has the same encoding. -/
theorem json_body_of_json_schema : ∃ (content : Table MediaType) (schema : RefOr Schema),
    bodyFormat content = some .json ∧ declared? content = some schema ∧
      DeclaredFor content .json schema := by
  have hformat : bodyFormat (Pair.table "application/hal+json" "application/json") =
      some .json := by decide
  have hmedia : isMediaType "application/hal+json" := by decide
  obtain ⟨first, best, media, hfirst, -, -, -, hencoding, hdeclared, -⟩ :=
    body_of_first_media_type hformat (Pair.declared?_table _ _ hmedia)
  rw [Pair.first?_table _ _ hmedia] at hfirst
  obtain ⟨rfl, -⟩ := Prod.mk.inj (Option.some.inj hfirst)
  refine ⟨_, _, hformat, Pair.declared?_table _ _ hmedia, hdeclared ?_⟩
  rw [hencoding]
  decide

/-- The form in front has the schema of the body, which is encoded as JSON. -/
theorem json_body_of_form_schema :
    bodyFormat (Pair.table "application/x-www-form-urlencoded" "application/json") =
      some .json ∧
    declared? (Pair.table "application/x-www-form-urlencoded" "application/json") =
      some Pair.text ∧
    ¬DeclaredFor (Pair.table "application/x-www-form-urlencoded" "application/json") .json
      Pair.text := by
  refine ⟨by decide, Pair.declared?_table _ _ (by decide), ?_⟩
  rintro ⟨mime, media, hmem, hencoding, hschema⟩
  rw [Pair.table, List.mem_cons, List.mem_singleton] at hmem
  rcases hmem with heq | heq
  · obtain ⟨rfl, rfl⟩ := Prod.mk.inj heq
    exact absurd hencoding (by decide)
  · obtain ⟨rfl, rfl⟩ := Prod.mk.inj heq
    exact Pair.text_ne_whole (Option.some.inj hschema).symm

end ApiClient.Media
