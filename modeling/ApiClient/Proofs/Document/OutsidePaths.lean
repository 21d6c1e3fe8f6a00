import ApiClient.Proofs.Document.Distinct
import ApiClient.Proofs.Document.Escapes

/-!
# References that do not lead into the paths

Two documents that differ in their paths only have the same at every other place. A reference that
does not lead into the paths finds the same in both, and the key for its type without discriminator
is the same, since no ending makes it lead into the paths.
-/

namespace ApiClient

/-- A reference whose first name is that of the table of paths. -/
def Pointer.IntoPaths (reference : String) : Prop :=
  ∃ names, segments reference = .ok ("paths" :: names)

namespace Json.Value

/-- A member that has another value, or is left out, does not show under another key. -/
theorem get?_standing_of_ne {name key : String} (h : name ≠ key)
    (before after : List (String × Option Value)) (v w : Option Value) :
    Table.get? name (standing (before ++ (key, v) :: after)) =
      Table.get? name (standing (before ++ (key, w) :: after)) := by
  have hmember : ∀ (o : Option Value) (rest : List (String × Value)),
      Table.get? name (member key o ++ rest) = Table.get? name rest := by
    intro o rest
    cases o with
    | none => rfl
    | some v => exact if_neg (Ne.symm h)
  have hbefore : ∀ xs ys : List (String × Value), Table.get? name xs = Table.get? name ys →
      ∀ first : List (String × Value),
        Table.get? name (first ++ xs) = Table.get? name (first ++ ys) := by
    intro xs ys hxy first
    induction first with
    | nil => exact hxy
    | cons e first ih => rw [List.cons_append, List.cons_append, Table.get?, Table.get?, ih]
  unfold standing
  rw [List.flatMap_append, List.flatMap_append, List.flatMap_cons, List.flatMap_cons]
  exact hbefore _ _ ((hmember v _).trans (hmember w _).symm) _

end Json.Value

namespace Pointer

theorem segments_ne_nil {reference : String} {names : List String}
    (h : segments reference = .ok names) : names ≠ [] := by
  unfold segments at h
  split at h
  next path _ =>
    rw [← Except.ok.inj h]
    exact fun hnil ↦ Text.splitOn_ne_nil '/' path (List.map_eq_nil_iff.1 hnil)
  next => cases h

/-- A text without a slash goes on with the last name along a reference. -/
theorem segments_append {path tail : String} (htail : '/' ∉ tail.toList) {found : List String}
    (h : segments (path ++ tail) = .ok found) : ∃ names last last',
      segments path = .ok (names ++ [last]) ∧ found = names ++ [last'] := by
  unfold segments at h ⊢
  rw [String.toList_append] at h
  split at h
  next rest hrest =>
    obtain ⟨cs, hcs, rfl⟩ : ∃ cs, path.toList = '#' :: '/' :: cs ∧ rest = cs ++ tail.toList := by
      match hpath : path.toList with
      | [] =>
        rw [hpath, List.nil_append] at hrest
        exact absurd (hrest ▸ List.mem_cons_of_mem _ List.mem_cons_self) htail
      | [c] =>
        rw [hpath, List.singleton_append] at hrest
        exact absurd ((List.cons.inj hrest).2 ▸ List.mem_cons_self) htail
      | c :: d :: cs =>
        rw [hpath, List.cons_append, List.cons_append] at hrest
        simp only [List.cons.injEq] at hrest
        obtain ⟨rfl, rfl, rfl⟩ := hrest
        exact ⟨cs, rfl, rfl⟩
    obtain ⟨pieces, last, hsplit⟩ := Text.splitOn_append '/' cs
    have hnil := hsplit [] List.not_mem_nil
    rw [List.append_nil] at hnil
    rw [hcs]
    refine ⟨pieces.map fun piece ↦ String.ofList (decodeSegment piece), _, _,
      congrArg Except.ok (by rw [hnil, List.map_append, List.map_singleton]),
      (Except.ok.inj h).symm.trans (by rw [hsplit _ htail, List.map_append, List.map_singleton])⟩
  next => cases h

/-- The ending of a key does not make a reference lead into the paths. -/
theorem not_intoPaths_base {path : String} (h : ¬IntoPaths path) {digits : List Char}
    (hdigits : ∀ c ∈ digits, c.isDigit) : ¬IntoPaths (path ++ "Base" ++ String.ofList digits) := by
  rintro ⟨rest, hrest⟩
  have htail : '/' ∉ ("Base" ++ String.ofList digits).toList := by
    intro hmem
    have hdigit := hdigits '/' (by simpa using hmem)
    revert hdigit
    decide
  have happend := hrest
  rw [String.append_assoc] at happend
  obtain ⟨names, last, last', hpath, hfound⟩ := segments_append htail happend
  cases names with
  | cons name names =>
    obtain ⟨rfl, -⟩ := List.cons.inj hfound
    exact h ⟨_, hpath⟩
  | nil =>
    -- the only name along the reference would end in the digits after a letter `e`
    obtain ⟨names', name, hbase⟩ := segments_base path
    have heq := hbase digits hdigits _ hrest
    obtain ⟨hlast, rfl⟩ := List.cons.inj hfound
    have hname : "paths" = String.ofList (name ++ 's' :: 'e' :: digits) := by
      cases names' with
      | nil => exact (List.cons.inj heq).1
      | cons first names' =>
        have hlength := congrArg List.length heq
        simp at hlength
    have hmem : 'e' ∈ "paths".toList := by
      rw [hname, String.toList_ofList]
      simp
    revert hmem
    decide

end Pointer

namespace Snapshot

variable {snapshot other : Snapshot} {reference path : String}

theorem freeNumber?_mono {steps steps' n m : Nat}
    (h : snapshot.freeNumber? reference steps n = some m) (hle : steps ≤ steps') :
    snapshot.freeNumber? reference steps' n = some m := by
  induction steps generalizing n steps' with
  | zero => cases h
  | succ steps ih =>
    obtain ⟨k, rfl⟩ := Nat.exists_eq_add_of_le' hle
    rw [← Nat.add_assoc]
    rw [freeNumber?] at h ⊢
    split
    next hcontains =>
      rw [if_pos hcontains] at h
      exact ih h (by omega)
    next hcontains => rwa [if_neg hcontains] at h

theorem freeNumber?_congr (h : ∀ n : Nat,
      other.contains (reference ++ toString n) = snapshot.contains (reference ++ toString n))
    (steps n : Nat) :
    other.freeNumber? reference steps n = snapshot.freeNumber? reference steps n := by
  induction steps generalizing n with
  | zero => rfl
  | succ steps ih => rw [freeNumber?, freeNumber?, h, ih]

/-- However many numbers are tried, keys are the same in documents that have the same references
with the ending of keys. -/
theorem freeReference_congr (h : ∀ digits : List Char, (∀ c ∈ digits, c.isDigit) →
      other.contains (path ++ "Base" ++ String.ofList digits) =
        snapshot.contains (path ++ "Base" ++ String.ofList digits)) :
    other.freeReference (path ++ "Base") = snapshot.freeReference (path ++ "Base") := by
  have hbase : other.contains (path ++ "Base") = snapshot.contains (path ++ "Base") := by
    simpa using h [] nofun
  have hnumber : ∀ n : Nat, other.contains (path ++ "Base" ++ toString n) =
      snapshot.contains (path ++ "Base" ++ toString n) := by
    intro n
    rw [Nat.toString_eq_ofList_toDigits]
    exact h _ fun c hc ↦ Nat.isDigit_of_mem_toDigits (by decide) (by decide) hc
  obtain ⟨n, hn⟩ := Option.isSome_iff_exists.1 (snapshot.freeNumber?_isSome path)
  obtain ⟨m, hm⟩ := Option.isSome_iff_exists.1 (other.freeNumber?_isSome path)
  have heq : m = n := by
    have hn' := freeNumber?_mono hn (Nat.le_max_left _ (other.size + 1))
    have hm' := freeNumber?_mono hm (Nat.le_max_right (snapshot.size + 1) _)
    rw [freeNumber?_congr hnumber, hn'] at hm'
    exact (Option.some.inj hm').symm
  rw [freeReference, freeReference, hbase, hn, hm, heq]

end Snapshot

namespace Spec

variable (spec : Spec) (paths : Table PathItem)

theorem at?_outside_paths {name : String} (h : name ≠ "paths") (names : List String) :
    ({ spec with paths } : Spec).toValue.at? (name :: names) =
      spec.toValue.at? (name :: names) := by
  rw [toValue_eq_record, toValue_eq_record]
  exact congrArg (Option.bind · _) (Json.Value.get?_standing_of_ne h [_, _, _] [_, _] _ _)

/-- A reference that does not lead into the paths finds the same in a document with other paths. -/
theorem lookup_outside_paths {reference : String} (h : ¬Pointer.IntoPaths reference) :
    (Snapshot.ofSpec { spec with paths }).lookup reference =
      (Snapshot.ofSpec spec).lookup reference := by
  cases hnames : Pointer.segments reference with
  | error e =>
    rw [Snapshot.lookup, Snapshot.lookup, hnames]
    rfl
  | ok names =>
    obtain ⟨name, names, rfl⟩ := List.exists_cons_of_ne_nil (Pointer.segments_ne_nil hnames)
    have hne : name ≠ "paths" := by
      rintro rfl
      exact h ⟨names, hnames⟩
    rw [lookup_of_segments hnames, lookup_of_segments hnames]
    exact congrArg (Option.elim · _ _) (spec.at?_outside_paths paths hne names)

theorem freeReference_outside_paths {path : String} (h : ¬Pointer.IntoPaths path) :
    (Snapshot.ofSpec { spec with paths }).freeReference (path ++ "Base") =
      (Snapshot.ofSpec spec).freeReference (path ++ "Base") := by
  refine Snapshot.freeReference_congr fun digits hdigits ↦ ?_
  unfold Snapshot.contains
  rw [spec.lookup_outside_paths paths (Pointer.not_intoPaths_base h hdigits)]

end Spec

end ApiClient
