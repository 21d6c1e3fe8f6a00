import ApiClient.TypeScript.Ty

/-!
# Normal forms of types

How a union or an intersection is nested in another of its kind cannot be seen in its text, nor can
an intersection of one type. The normal form of a type has no such nesting, and the null literal in
it is the null keyword. The text `never` stands for the empty union and `unknown` for the empty
intersection.
-/

namespace ApiClient.TypeScript

/-- The two ways to join types. -/
inductive Joint where
  | union
  | inter
deriving DecidableEq

namespace Joint

def make : Joint → List Ty → Ty
  | .union, ts => .union ts
  | .inter, ts => .inter ts

/-- The members of a type that is joined in this way from some, and any other type itself. -/
def parts : Joint → Ty → List Ty
  | .union, .union (t :: ts) => t :: ts
  | .inter, .inter (t :: ts) => t :: ts
  | _, t => [t]

/-- Types joined, where one alone is itself. -/
def join (j : Joint) : List Ty → Ty
  | [t] => t
  | ts => j.make ts

/-- Types joined without a joint of the same kind among them. -/
def flatten (j : Joint) (ts : List Ty) : Ty :=
  j.join (ts.flatMap j.parts)

end Joint

/-- The type that a literal is; the null literal is a keyword as well. -/
def Literal.normal : Literal → Ty
  | .null => .keyword .null
  | l => .literal l

mutual

/-- A type with each union in a union and each intersection in an intersection flattened, with
joints of one type left out and with the null keyword for the null literal. -/
def Ty.normal : Ty → Ty
  | .keyword k => .keyword k
  | .literal l => l.normal
  | .named name => .named name
  | .array item => .array item.normal
  | .tuple items => .tuple (normalTypes items)
  | .union members => Joint.union.flatten (normalTypes members)
  | .inter members => Joint.inter.flatten (normalTypes members)
  | .object members index => .object (normalMembers members) (normalIndex index)

def normalTypes : List Ty → List Ty
  | [] => []
  | t :: ts => t.normal :: normalTypes ts

def normalMembers : List (Member Ty) → List (Member Ty)
  | [] => []
  | ⟨name, type, optional⟩ :: rest => ⟨name, type.normal, optional⟩ :: normalMembers rest

def normalIndex : Option Ty → Option Ty
  | none => none
  | some t => some t.normal

end

@[simp] theorem normalTypes_eq (ts : List Ty) : normalTypes ts = ts.map Ty.normal := by
  induction ts with
  | nil => rw [normalTypes, List.map_nil]
  | cons t ts ih => rw [normalTypes, ih, List.map_cons]

namespace Joint

/-- A type whose parts are no joints of the same kind, and which is their joint. -/
structure Flat (j : Joint) (t : Ty) : Prop where
  join_parts : j.join (j.parts t) = t
  parts_of_mem : ∀ u ∈ j.parts t, j.parts u = [u]

variable {j i : Joint} {t : Ty} {ts : List Ty}

theorem parts_ne_nil (j : Joint) (t : Ty) : j.parts t ≠ [] := by
  unfold parts
  split <;> exact List.cons_ne_nil _ _

theorem Flat.of_parts (h : j.parts t = [t]) : j.Flat t := by
  refine ⟨by rw [h]; rfl, ?_⟩
  rw [h]
  simpa using h

theorem parts_make (hts : ts ≠ []) : j.parts (j.make ts) = ts := by
  obtain ⟨t, rest, rfl⟩ := List.exists_cons_of_ne_nil hts
  cases j <;> rfl

theorem parts_make_nil (i j : Joint) : i.parts (j.make []) = [j.make []] := by
  cases i <;> cases j <;> rfl

theorem parts_make_of_ne (hij : i ≠ j) (ts : List Ty) : i.parts (j.make ts) = [j.make ts] := by
  cases i <;> cases j <;> first | rfl | exact absurd rfl hij

theorem join_of_length (hts : ts.length ≠ 1) : j.join ts = j.make ts := by
  match ts, hts with
  | [], _ => rfl
  | _ :: _ :: _, _ => rfl

theorem parts_join (hne : ts ≠ []) (h : ∀ t ∈ ts, j.parts t = [t]) : j.parts (j.join ts) = ts := by
  by_cases hlength : ts.length = 1
  · obtain ⟨t, rfl⟩ := List.length_eq_one_iff.1 hlength
    exact h t List.mem_cons_self
  · rw [join_of_length hlength, parts_make hne]

theorem parts_of_mem_flatMap (h : ∀ t ∈ ts, j.Flat t) :
    ∀ u ∈ ts.flatMap j.parts, j.parts u = [u] := by
  intro u hu
  obtain ⟨t, ht, hut⟩ := List.mem_flatMap.1 hu
  exact (h t ht).parts_of_mem u hut

/-- The joint of flat types has the parts of these types. -/
theorem parts_flatten (hne : ts ≠ []) (h : ∀ t ∈ ts, j.Flat t) :
    j.parts (j.flatten ts) = ts.flatMap j.parts := by
  refine parts_join (fun hnil ↦ ?_) (parts_of_mem_flatMap h)
  obtain ⟨t, rest, rfl⟩ := List.exists_cons_of_ne_nil hne
  exact parts_ne_nil j t (List.flatMap_eq_nil_iff.1 hnil t List.mem_cons_self)

/-- Types with one part altogether are one type, which is this part. -/
theorem mem_of_flatMap_eq_singleton (h : ∀ t ∈ ts, j.Flat t) (ht : ts.flatMap j.parts = [t]) :
    t ∈ ts := by
  cases ts with
  | nil => cases ht
  | cons u rest =>
    rw [List.flatMap_cons] at ht
    have hparts : j.parts u = [t] := by
      obtain ⟨v, vs, hv⟩ := List.exists_cons_of_ne_nil (parts_ne_nil j u)
      rw [hv, List.cons_append, List.cons.injEq, List.append_eq_nil_iff] at ht
      rw [hv, ht.1, ht.2.1]
    have hjoin := (h u List.mem_cons_self).join_parts
    rw [hparts] at hjoin
    exact List.mem_cons.2 (.inl hjoin)

theorem Flat.flatten (h : ∀ t ∈ ts, ∀ j : Joint, j.Flat t) (i j : Joint) :
    i.Flat (j.flatten ts) := by
  have hflat := fun t ht ↦ h t ht j
  -- With one part altogether the joint is this part, which can be a joint of the other kind.
  by_cases hlength : (ts.flatMap j.parts).length = 1
  · obtain ⟨t, ht⟩ := List.length_eq_one_iff.1 hlength
    rw [Joint.flatten, ht]
    exact h t (mem_of_flatMap_eq_singleton hflat ht) i
  have hmake : j.flatten ts = j.make (ts.flatMap j.parts) := join_of_length hlength
  by_cases hij : i = j
  · subst hij
    by_cases hnil : ts.flatMap i.parts = []
    · rw [hmake, hnil]
      exact .of_parts (parts_make_nil i i)
    · refine ⟨?_, ?_⟩
      · rw [hmake, parts_make hnil, join_of_length hlength]
      · rw [hmake, parts_make hnil]
        exact parts_of_mem_flatMap hflat
  · rw [hmake]
    exact .of_parts (parts_make_of_ne hij _)

end Joint

mutual

theorem Ty.flat_normal : (t : Ty) → ∀ j : Joint, j.Flat t.normal
  | .keyword k, j => by
    rw [Ty.normal]
    exact .of_parts (by cases j <;> rfl)
  | .literal l, j => by
    rw [Ty.normal]
    exact .of_parts (by cases j <;> cases l <;> rfl)
  | .named name, j => by
    rw [Ty.normal]
    exact .of_parts (by cases j <;> rfl)
  | .array item, j => by
    rw [Ty.normal]
    exact .of_parts (by cases j <;> rfl)
  | .tuple items, j => by
    rw [Ty.normal]
    exact .of_parts (by cases j <;> rfl)
  | .union members, j => by
    rw [Ty.normal]
    exact .flatten (flat_normalTypes members) j .union
  | .inter members, j => by
    rw [Ty.normal]
    exact .flatten (flat_normalTypes members) j .inter
  | .object members index, j => by
    rw [Ty.normal]
    exact .of_parts (by cases j <;> rfl)

theorem flat_normalTypes : (ts : List Ty) → ∀ t ∈ normalTypes ts, ∀ j : Joint, j.Flat t
  | [] => by simp
  | t :: ts => by
    rw [normalTypes, List.forall_mem_cons]
    exact ⟨t.flat_normal, flat_normalTypes ts⟩

end

namespace Joint

theorem normal_make (j : Joint) (ts : List Ty) :
    (j.make ts).normal = j.flatten (ts.map Ty.normal) := by
  cases j <;> rw [make, Ty.normal, normalTypes_eq]

theorem normal_join (j : Joint) (ts : List Ty) :
    (j.join ts).normal = j.flatten (ts.map Ty.normal) := by
  by_cases hlength : ts.length = 1
  · obtain ⟨t, rfl⟩ := List.length_eq_one_iff.1 hlength
    have hparts : [t.normal].flatMap j.parts = j.parts t.normal := List.flatMap_singleton ..
    rw [List.map_singleton, flatten, hparts, (t.flat_normal j).join_parts]
    rfl
  · rw [join_of_length hlength, normal_make]

/-- What the normal form of a type is made of, when types are joined. -/
def normalParts (j : Joint) (ts : List Ty) : List Ty :=
  ts.flatMap fun t ↦ j.parts t.normal

@[simp] theorem normalParts_append (j : Joint) (ts us : List Ty) :
    j.normalParts (ts ++ us) = j.normalParts ts ++ j.normalParts us :=
  List.flatMap_append

theorem normalParts_singleton (j : Joint) (t : Ty) : j.normalParts [t] = j.parts t.normal :=
  List.flatMap_singleton ..

theorem flatten_normal (j : Joint) (ts : List Ty) :
    j.flatten (ts.map Ty.normal) = j.join (j.normalParts ts) := by
  rw [flatten, normalParts, List.flatMap_map]

variable {j : Joint} {t : Ty} {ts : List Ty}

/-- Types that have the parts of a type are joined to it. -/
theorem normal_join_eq (h : j.normalParts ts = j.parts t.normal) :
    (j.join ts).normal = t.normal := by
  rw [normal_join, flatten_normal, h, (t.flat_normal j).join_parts]

theorem parts_normal_make (hne : ts ≠ []) : j.parts (j.make ts).normal = j.normalParts ts := by
  have hflat : ∀ t ∈ ts.map Ty.normal, j.Flat t := by
    intro t ht
    obtain ⟨u, -, rfl⟩ := List.mem_map.1 ht
    exact u.flat_normal j
  rw [normal_make, parts_flatten (by simpa using hne) hflat, normalParts, List.flatMap_map]

end Joint

end ApiClient.TypeScript
