import ApiClient.TypeScript.Ty

/-!
# The words of a type

The names that occur in a type, in the order in which they are written: those of the members of
objects, and those of other types. All else in a type is punctuation and values.
-/

namespace ApiClient.TypeScript

/-- A name that occurs in a type: that of a member of an object, or that of a type. -/
inductive Word where
  | member (name : String)
  | type (name : String)
deriving DecidableEq

mutual

def Ty.words : Ty → List Word
  | .keyword _ | .literal _ => []
  | .named name => [.type name]
  | .array item => item.words
  | .tuple items => wordsOfTypes items
  | .union members => wordsOfTypes members
  | .inter members => wordsOfTypes members
  | .object members index => wordsOfMembers members ++ wordsOfIndex index

def wordsOfTypes : List Ty → List Word
  | [] => []
  | t :: ts => t.words ++ wordsOfTypes ts

def wordsOfMembers : List (Member Ty) → List Word
  | [] => []
  | ⟨name, type, _⟩ :: rest => .member name :: (type.words ++ wordsOfMembers rest)

def wordsOfIndex : Option Ty → List Word
  | none => []
  | some t => t.words

end

@[simp] theorem wordsOfTypes_nil : wordsOfTypes [] = [] :=
  rfl

@[simp] theorem wordsOfTypes_cons (t : Ty) (ts : List Ty) :
    wordsOfTypes (t :: ts) = t.words ++ wordsOfTypes ts :=
  rfl

@[simp] theorem wordsOfTypes_append (ts us : List Ty) :
    wordsOfTypes (ts ++ us) = wordsOfTypes ts ++ wordsOfTypes us := by
  induction ts with
  | nil => simp
  | cons t ts ih => simp [ih]

theorem mem_wordsOfTypes {w : Word} {ts : List Ty} :
    w ∈ wordsOfTypes ts ↔ ∃ t ∈ ts, w ∈ t.words := by
  induction ts with
  | nil => simp
  | cons t ts ih => simp [ih]

theorem wordsOfTypes_eq_nil {ts : List Ty} (h : ∀ t ∈ ts, t.words = []) :
    wordsOfTypes ts = [] := by
  induction ts with
  | nil => simp
  | cons t ts ih =>
    rw [wordsOfTypes_cons, h t List.mem_cons_self, ih fun u hu ↦ h u (List.mem_cons_of_mem _ hu)]
    rfl

@[simp] theorem wordsOfMembers_nil : wordsOfMembers [] = [] :=
  rfl

@[simp] theorem wordsOfMembers_cons (m : Member Ty) (ms : List (Member Ty)) :
    wordsOfMembers (m :: ms) = .member m.name :: (m.type.words ++ wordsOfMembers ms) :=
  rfl

theorem type_mem_wordsOfMembers {name : String} {ms : List (Member Ty)} :
    .type name ∈ wordsOfMembers ms ↔ ∃ m ∈ ms, .type name ∈ m.type.words := by
  induction ms with
  | nil => simp
  | cons m ms ih => simp [ih]

namespace Ty

@[simp] theorem words_keyword (k : Keyword) : (keyword k).words = [] :=
  rfl

@[simp] theorem words_literal (l : Literal) : (literal l).words = [] :=
  rfl

@[simp] theorem words_named (name : String) : (named name).words = [.type name] :=
  rfl

@[simp] theorem words_array (t : Ty) : (array t).words = t.words :=
  rfl

@[simp] theorem words_tuple (ts : List Ty) : (tuple ts).words = wordsOfTypes ts :=
  rfl

@[simp] theorem words_union (ts : List Ty) : (union ts).words = wordsOfTypes ts :=
  rfl

@[simp] theorem words_inter (ts : List Ty) : (inter ts).words = wordsOfTypes ts :=
  rfl

@[simp] theorem words_object (ms : List (Member Ty)) (index : Option Ty) :
    (object ms index).words = wordsOfMembers ms ++ wordsOfIndex index :=
  rfl

@[simp] theorem words_unionOf (ts : List Ty) : (unionOf ts).words = wordsOfTypes ts := by
  unfold unionOf
  split <;> simp

end Ty

@[simp] theorem wordsOfIndex_none : wordsOfIndex none = [] :=
  rfl

@[simp] theorem wordsOfIndex_some (t : Ty) : wordsOfIndex (some t) = t.words :=
  rfl

end ApiClient.TypeScript
