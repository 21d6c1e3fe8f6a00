import ApiClient.Proofs.Operation.Filling
import ApiClient.Table
import ApiClient.Text.Join
import Mathlib.Data.List.Induction

/-!
# Replacing placeholders one by one

The placeholders of a text can be filled in at once, from left to right, or one name after the
other, each wherever it occurs in what the names before have left. The two ways agree as long as
what is put in opens no brace.
-/

namespace ApiClient

namespace Text

variable {p c : Char} {pattern other before rest : List Char}

theorem dropPrefix?_eq_some_iff {cs : List Char} :
    dropPrefix? pattern cs = some rest ↔ cs = pattern ++ rest := by
  induction pattern generalizing cs with
  | nil => simp [dropPrefix?]
  | cons p pattern ih =>
    cases cs with
    | nil => simp [dropPrefix?]
    | cons c cs => by_cases hp : p = c <;> simp [dropPrefix?, hp, ih, eq_comm]

@[simp] theorem replace_nil : replace p pattern other [] = [] := by
  rw [replace]

theorem replace_pattern : replace p pattern other (p :: (pattern ++ rest)) =
    other ++ replace p pattern other rest := by
  have hprefix : dropPrefix? (p :: pattern) (p :: (pattern ++ rest)) = some rest :=
    dropPrefix?_eq_some_iff.2 rfl
  rw [replace]
  split <;> simp_all

/-- A character at which the pattern does not begin stays. -/
theorem replace_cons (h : ∀ after, c :: rest ≠ p :: (pattern ++ after)) :
    replace p pattern other (c :: rest) = c :: replace p pattern other rest := by
  have hprefix : dropPrefix? (p :: pattern) (c :: rest) = none := by
    refine Option.eq_none_iff_forall_ne_some.2 fun after hafter ↦ ?_
    exact h after (dropPrefix?_eq_some_iff.1 hafter)
  rw [replace]
  split <;> simp_all

theorem replace_append (h : p ∉ before) : replace p pattern other (before ++ rest) =
    before ++ replace p pattern other rest := by
  induction before with
  | nil => rfl
  | cons c before ih =>
    rw [List.mem_cons, not_or] at h
    rw [List.cons_append, replace_cons fun after hafter ↦ h.1 (List.cons.inj hafter).1.symm,
      ih h.2]
    rfl

theorem replace_eq_self {cs : List Char}
    (h : ∀ before after, cs ≠ before ++ p :: (pattern ++ after)) :
    replace p pattern other cs = cs := by
  induction cs with
  | nil => exact replace_nil
  | cons c cs ih =>
    rw [replace_cons (h []), ih]
    rintro before after rfl
    exact h (c :: before) after rfl

end Text

theorem Table.get?_append {α : Type} (key : String) (table rest : Table α) :
    get? key (table ++ rest) = (get? key table).or (get? key rest) := by
  induction table with
  | nil => rfl
  | cons entry table ih =>
    obtain ⟨k, v⟩ := entry
    rw [List.cons_append, get?, get?, ih]
    split <;> rfl

namespace Piece

/-- What the placeholders of the names in a table are filled in with. The others stay. -/
def filling (texts : Table String) (name : List Char) : List Char :=
  (Table.get? (String.ofList name) texts).elim (source (.name name)) String.toList

/-- Puts a text in the place of each placeholder of a name. -/
def replaceName (url : List Char) (entry : String × String) : List Char :=
  Text.replace '\x7b' (entry.1.toList ++ ['\x7d']) entry.2.toList url

theorem filling_append (texts : Table String) (name text : String) (inside : List Char) :
    filling (texts ++ [(name, text)]) inside =
      if Table.has texts (String.ofList inside) then filling texts inside
      else if inside = name.toList then text.toList
      else source (.name inside) := by
  unfold filling
  rw [Table.get?_append, Table.has_eq_isSome]
  cases Table.get? (String.ofList inside) texts with
  | some t => rfl
  | none =>
    have hiff : name = String.ofList inside ↔ inside = name.toList := by
      constructor <;> rintro rfl
      · exact (String.toList_ofList).symm
      · exact String.ofList_toList.symm
    by_cases hname : name = String.ofList inside
    · simp [Table.get?, hname]
    · have hinside : inside ≠ name.toList := fun h ↦ hname (hiff.2 h)
      simp [Table.get?, hname, hinside]

/-- Two names in front of closing braces are the same if neither has one itself. -/
theorem eq_of_append_closing {name inside after rest : List Char} (hname : '\x7d' ∉ name)
    (hinside : '\x7d' ∉ inside) (h : inside ++ '\x7d' :: after = name ++ '\x7d' :: rest) :
    inside = name := by
  rw [← takeWhile_bne hinside after, h, takeWhile_bne hname]

theorem replace_source {name inside other rest : List Char} (hname : '\x7d' ∉ name)
    (hinside : '\x7d' ∉ inside) (hopen : '\x7b' ∉ inside) :
    Text.replace '\x7b' (name ++ ['\x7d']) other (source (.name inside) ++ rest) =
      (if inside = name then other else source (.name inside)) ++
        Text.replace '\x7b' (name ++ ['\x7d']) other rest := by
  rw [source, List.cons_append]
  split
  next h => rw [h, Text.replace_pattern]
  next h =>
    have hbehind : '\x7b' ∉ inside ++ ['\x7d'] := by simp [hopen]
    rw [Text.replace_cons fun after hafter ↦ h ?_, Text.replace_append hbehind]
    · rfl
    · have hrest := (List.cons.inj hafter).2
      rw [List.append_assoc, List.append_assoc] at hrest
      exact eq_of_append_closing hname hinside hrest

/-- Replacing one more name, where what is filled in already opens no brace. -/
theorem replace_fillWith {value value' : List Char → List Char} {name other cs : List Char}
    (hname : '\x7d' ∉ name) (hnames : ∀ inside, .name inside ∈ split cs → '\x7b' ∉ inside)
    (hvalue : ∀ inside, .name inside ∈ split cs →
      ('\x7b' ∉ value inside ∧ value' inside = value inside) ∨
        (value inside = source (.name inside) ∧
          value' inside = if inside = name then other else source (.name inside))) :
    Text.replace '\x7b' (name ++ ['\x7d']) other ((split cs).flatMap (fillWith value)) =
      (split cs).flatMap (fillWith value') := by
  induction cs using placeholderInduction with
  | done cs hfirst hnone =>
    rw [split_of_first?_eq_none hfirst, flatMap_ofText _ rfl, flatMap_ofText _ rfl]
    refine Text.replace_eq_self fun before after h ↦ hnone before name after ?_
    rwa [List.append_assoc] at h
  | fill before inside after hbefore hinside ih =>
    rw [split_append hbefore hinside] at hnames hvalue
    have hmem : Piece.name inside ∈ ofText before ++ .name inside :: split after := by simp
    have ih := ih (fun inside h ↦ hnames inside (by simp [h])) fun inside h ↦
      hvalue inside (by simp [h])
    have hpieces (value : List Char → List Char) :
        (split (before ++ '\x7b' :: (inside ++ '\x7d' :: after))).flatMap (fillWith value) =
          before ++ (value inside ++ (split after).flatMap (fillWith value)) := by
      rw [split_append hbefore hinside, List.flatMap_append, List.flatMap_cons,
        flatMap_ofText _ rfl]
      rfl
    rw [hpieces, hpieces, Text.replace_append hbefore, ← ih]
    rcases hvalue inside hmem with ⟨hopen, hsame⟩ | ⟨hsource, hput⟩
    · rw [Text.replace_append hopen, hsame]
    · rw [hsource, hput, replace_source hname hinside (hnames inside hmem)]

/-- The names of a table are replaced one after the other as they are filled in at once, if only the
last text opens a brace. -/
theorem foldl_replaceName {texts : Table String} {cs : List Char} (hkeys : texts.keys.Nodup)
    (hclosing : ∀ name ∈ texts.keys, '\x7d' ∉ name.toList)
    (hnames : ∀ inside, .name inside ∈ split cs → '\x7b' ∉ inside)
    (htexts : ∀ entry ∈ texts.dropLast, '\x7b' ∉ entry.2.toList) :
    texts.foldl replaceName cs = (split cs).flatMap (fillWith (filling texts)) := by
  induction texts using List.reverseRecOn with
  | nil =>
    have hstay (piece : Piece) : fillWith (filling []) piece = piece.source := by
      cases piece <;> rfl
    rw [List.flatMap_congr fun piece _ ↦ hstay piece, source_split]
    rfl
  | append_singleton texts entry ih =>
    obtain ⟨name, text⟩ := entry
    have hconcat : Table.keys (texts ++ [(name, text)]) = Table.keys texts ++ [name] :=
      List.map_append
    rw [hconcat] at hkeys hclosing
    rw [List.dropLast_concat] at htexts
    have ih := ih (List.nodup_append.1 hkeys).1
      (fun name h ↦ hclosing name (List.mem_append_left _ h))
      fun entry h ↦ htexts entry (List.dropLast_subset _ h)
    rw [List.foldl_append, ih]
    refine replace_fillWith (hclosing name (by simp)) hnames fun inside _ ↦ ?_
    rw [filling_append]
    split
    next h =>
      rw [Table.has_eq_isSome] at h
      obtain ⟨t, ht⟩ := Option.isSome_iff_exists.1 h
      refine .inl ⟨?_, rfl⟩
      rw [filling, ht]
      exact htexts _ (Table.mem_of_get? ht)
    next h => exact .inr ⟨by rw [filling, Table.get?_eq_none_iff.2 h]; rfl, rfl⟩

end Piece

end ApiClient
