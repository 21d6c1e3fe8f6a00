import ApiClient.Proofs.Operation.DeepObjects
import ApiClient.Proofs.Operation.Merging

/-!
# The members of folded objects

A parameter that names a member of an object becomes a property of the one parameter for the object.
The member is named up to the first closing bracket, so parameters that differ only behind it name
the same member, and the last of them gives the schema. The parameter for an object is optional with
all that is in it, and its location is that of the first member.
-/

namespace ApiClient

namespace Parameters

/-- The last parameter that names a member of an object. -/
def lastMember? (object member : String) (params : List Parameter) : Option Parameter :=
  params.reverse.find? fun p ↦ memberOf? p.name = some (object, member)

section

variable {params : List Parameter} {p : Parameter} {object member : String}

theorem lastMember?_concat : lastMember? object member (params ++ [p]) =
    if memberOf? p.name = some (object, member) then some p
    else lastMember? object member params := by
  rw [lastMember?, List.reverse_concat, List.find?_cons]
  by_cases h : memberOf? p.name = some (object, member) <;> simp [h, lastMember?]

theorem exists_lastMember? (hp : p ∈ params) (h : memberOf? p.name = some (object, member)) :
    ∃ r, lastMember? object member params = some r := by
  apply Option.isSome_iff_exists.1
  rw [lastMember?, List.find?_isSome]
  exact ⟨p, List.mem_reverse.2 hp, by simpa using h⟩

/-- The properties of an object are its members, each once. -/
theorem keys_members (object : String) (params : List Parameter) :
    (Table.ofPairs (membersOf object params)).keys =
      ((membersOf object params).map (·.1)).eraseDups := by
  induction membersOf object params using List.reverseRecOn with
  | nil => rfl
  | append_singleton pairs entry ih =>
    rw [Table.ofPairs_concat, Table.keys_put, ih, List.map_append, List.map_singleton,
      eraseDups_concat]
    simp only [List.mem_eraseDups]

theorem get?_members (object member : String) (params : List Parameter) :
    Table.get? member (Table.ofPairs (membersOf object params)) =
      (lastMember? object member params).map schemaOrAny := by
  induction params using List.reverseRecOn with
  | nil => rfl
  | append_singleton params p ih =>
    rw [lastMember?_concat]
    by_cases hobject : object? p = some object
    · obtain ⟨other, hother⟩ := object?_eq_some_iff.1 hobject
      rw [membersOf_concat_self hother, Table.ofPairs_concat, Table.get?_put, ih]
      by_cases hmember : other = member <;> simp [hother, hmember]
    · have hno : memberOf? p.name ≠ some (object, member) := fun h ↦
        hobject (object?_of_memberOf? h)
      rw [membersOf_concat_of_ne hobject, ih, if_neg hno]

/-- How the parameters that name members of an object are represented in the one for the object. -/
structure Represents (params : List Parameter) (object : String) (location : Location)
    (members : Table (RefOr Schema)) : Prop where
  mem_fold : objectParameter object location members ∈ fold params
  /-- Its properties are the members that are named, each once. -/
  keys : members.keys = ((membersOf object params).map (·.1)).eraseDups
  /-- The property for a member has the schema of the last parameter that names it. -/
  schema : ∀ p ∈ params, ∀ member, Bracketed p.name object member →
    ∃ r, lastMember? object member params = some r ∧
      Table.get? member members = some (schemaOrAny r)
  /-- The object is where its members are, if all of them are in one location. -/
  location_eq : ∀ p ∈ params, object? p = some object →
    (∀ q ∈ params, object? q = some object → q.location = p.location) → location = p.location
  /-- The object may be left out, and so may each of its members. -/
  optional : (objectParameter object location members).required = false ∧
    ∀ s, (objectParameter object location members).schema = some (.inline s) →
      ∀ member, ¬s.isRequired member

/-- A parameter that names a member of an object is represented by the property of that name in the
parameter for the object. -/
theorem members_represented (hp : p ∈ params) (h : Bracketed p.name object member) :
    ∃ location members, Represents params object location members := by
  have hobject := object?_of_memberOf? (memberOf?_eq_some_iff.2 h)
  obtain ⟨s, hs, hname⟩ := mem_objects_iff.1 (List.mem_filterMap.2 ⟨p, hp, hobject⟩)
  obtain ⟨first, hfirst, ⟨-, rfl⟩ | ⟨name, hof, rfl⟩⟩ := exists_of_mem_slots hs
  · cases hname
  · cases hname
    refine ⟨first.location, Table.ofPairs (membersOf object params), ?_, ?_, ?_, ?_, rfl, ?_⟩
    · rw [fold_eq]
      exact List.mem_map_of_mem hs
    · exact keys_members object params
    · intro q hq member hmember
      obtain ⟨r, hr⟩ := exists_lastMember? hq (memberOf?_eq_some_iff.2 hmember)
      exact ⟨r, hr, by rw [get?_members, hr, Option.map_some]⟩
    · exact fun q _ _ hlocations ↦ hlocations first hfirst hof
    · rintro s ⟨⟩ member
      simp [Schema.isRequired]

end

/-- Whether a parameter that names a member keeps all that it says: there is a property of its own,
in its location, with its schema and required as it is. -/
def KeptWhole (params : List Parameter) (p : Parameter) : Prop :=
  ∀ object member, Bracketed p.name object member → ∃ q ∈ fold params,
    q.name = object ∧ q.style = some "deepObject" ∧ q.location = p.location ∧
      ∃ s members, q.schema = some (.inline s) ∧ s.properties = some members ∧
        Table.get? member members = some (schemaOrAny p) ∧ (s.isRequired member ↔ p.required)

namespace FilterParameters

def text : RefOr Schema := .inline { types := some (.one .string) }

def number : RefOr Schema := .inline { types := some (.one .integer) }

def name : Parameter where
  name := "filter[name]"
  location := .query
  required := true
  schema := some text

def tag : Parameter where
  name := "filter[tag]"
  location := .query
  schema := some text

def page : Parameter where
  name := "page"
  location := .query

def tagSize : Parameter where
  name := "filter[tag][size]"
  location := .query
  schema := some number

/-- Another parameter with the name of `tag`. -/
def tagHeader : Parameter :=
  { tag with location := .header }

def params : List Parameter := [name, page, tag, tagSize]

theorem fold_params : fold params =
    [objectParameter "filter" .query [("name", text), ("tag", number)], page] :=
  rfl

theorem bracketed_name : Bracketed name.name "filter" "name" :=
  memberOf?_eq_some_iff.1 rfl

theorem bracketed_tag : Bracketed tag.name "filter" "tag" :=
  memberOf?_eq_some_iff.1 rfl

theorem not_keptWhole_tagHeader : ¬KeptWhole [tag, tagHeader] tagHeader := by
  intro h
  obtain ⟨q, hq, -, -, hlocation, -⟩ := h _ _ bracketed_tag
  have hfold : fold [tag, tagHeader] = [objectParameter "filter" .query [("tag", text)]] := rfl
  obtain rfl := List.mem_singleton.1 (hfold ▸ hq)
  cases hlocation

/-- What is required of the properties in the only parameter called `filter`. -/
theorem of_keptWhole {p : Parameter} {member : String} (h : KeptWhole params p)
    (hp : Bracketed p.name "filter" member) :
    Table.get? member [("name", text), ("tag", number)] = some (schemaOrAny p) ∧
      p.required = false := by
  obtain ⟨q, hq, hname, -, -, s, members, hs, hmembers, hget, hrequired⟩ := h _ _ hp
  rw [fold_params, List.mem_cons, List.mem_singleton] at hq
  rcases hq with rfl | rfl
  · cases hs
    cases hmembers
    exact ⟨hget, by simpa [Schema.isRequired] using hrequired⟩
  · exact absurd hname (by decide)

end FilterParameters

open FilterParameters in
/-- The schema of `filter[tag]` gives way to that of `filter[tag][size]`, and `filter[name]` is no
longer required; what `filter[tag]` says of a header becomes part of the query. -/
theorem members_not_kept_whole :
    ((keys params).Nodup ∧ (tag ∈ params ∧ ¬KeptWhole params tag) ∧
      (name ∈ params ∧ ¬KeptWhole params name)) ∧
    ((keys [tag, tagHeader]).Nodup ∧ ¬KeptWhole [tag, tagHeader] tagHeader) := by
  refine ⟨⟨by decide, ⟨by simp [params], fun h ↦ ?_⟩, ⟨by simp [params], fun h ↦ ?_⟩⟩,
    by decide, not_keptWhole_tagHeader⟩
  · have hschema : some number = some text := (of_keptWhole h bracketed_tag).1
    cases hschema
  · exact Bool.noConfusion (of_keptWhole h bracketed_name).2

open FilterParameters in
/-- Both members are properties of one parameter in the query, with the schema of the last parameter
that names each. -/
theorem filter_members_represented : tag ∈ params ∧ Bracketed tag.name "filter" "tag" ∧
    ∃ members, objectParameter "filter" .query members ∈ fold params ∧
      members.keys = ["name", "tag"] ∧
      Table.get? "name" members = some (schemaOrAny name) ∧
      Table.get? "tag" members = some (schemaOrAny tagSize) := by
  have htag : tag ∈ params := by simp [params]
  obtain ⟨location, members, hrep⟩ := members_represented htag bracketed_tag
  have hquery : ∀ q ∈ params, q.location = tag.location := by
    simp [params, name, page, tag, tagSize]
  obtain rfl : location = .query := hrep.location_eq tag htag rfl fun q hq _ ↦ hquery q hq
  refine ⟨htag, bracketed_tag, members, hrep.mem_fold, hrep.keys, ?_, ?_⟩
  · obtain ⟨r, hr, hget⟩ := hrep.schema name (by simp [params]) "name" bracketed_name
    cases hr
    exact hget
  · obtain ⟨r, hr, hget⟩ := hrep.schema tag htag "tag" bracketed_tag
    cases hr
    exact hget

end Parameters

end ApiClient
