import ApiClient.Proofs.Compile.Steps

/-!
# The text of a list of values

An enumeration is known by the texts of its values, joined by underscores. Two lists of values have
the same joined text if their texts fall into the same pieces at the underscores, so a text with an
underscore in it passes for two. The members of a declared enumeration tell the values themselves.
-/

namespace ApiClient

open TypeScript Json

namespace Text

/-- The pieces between separators, of texts that are joined by the separator. -/
def pieces (sep : Char) : List String → List (List Char)
  | [] => [[]]
  | s :: rest => (s :: rest).flatMap fun part ↦ part.toList.splitOn sep

theorem splitOn_join (sep : Char) (parts : List String) :
    (join (.singleton sep) parts).toList.splitOn sep = pieces sep parts := by
  induction parts with
  | nil => simp [pieces]
  | cons s rest ih =>
    cases rest with
    | nil => simp [pieces]
    | cons t rest =>
      have hchars : (join (.singleton sep) (s :: t :: rest)).toList =
          s.toList ++ sep :: (join (.singleton sep) (t :: rest)).toList := by
        simp [join_cons_cons]
      rw [hchars, List.splitOn_append_cons_self, ih]
      rfl

/-- Joining loses no more than where a text ends and the next begins. -/
theorem join_eq_iff {sep : Char} {parts parts' : List String} :
    join (.singleton sep) parts = join (.singleton sep) parts' ↔
      pieces sep parts = pieces sep parts' := by
  rw [← splitOn_join, ← splitOn_join]
  constructor
  · intro h
    rw [h]
  · intro h
    have hchars := congrArg [sep].intercalate h
    rw [List.intercalate_splitOn, List.intercalate_splitOn] at hchars
    exact String.toList_inj.1 hchars

end Text

theorem signature_eq_ok {values : List Value} {text : String} : signature values = .ok text ↔
    ∃ texts, values.mapM signaturePart = .ok texts ∧ Text.join "_" texts = text := by
  simp only [signature, bind_eq_ok, pure, Except.pure, Except.ok.injEq]

/-- The texts of both lists fall into the same pieces. -/
def SamePieces (values values' : List Value) : Prop :=
  ∃ texts texts', values.mapM signaturePart = .ok texts ∧ values'.mapM signaturePart = .ok texts' ∧
    Text.pieces '_' texts = Text.pieces '_' texts'

/-- Lists of values are taken for the same exactly if their texts fall into the same pieces. -/
theorem samePieces_iff {values values' : List Value} : SamePieces values values' ↔
    ∃ text, signature values = .ok text ∧ signature values' = .ok text := by
  simp only [signature_eq_ok]
  constructor
  · rintro ⟨texts, texts', htexts, htexts', hpieces⟩
    exact ⟨_, ⟨texts, htexts, rfl⟩, texts', htexts', (Text.join_eq_iff.2 hpieces).symm⟩
  · rintro ⟨text, ⟨texts, htexts, htext⟩, texts', htexts', htext'⟩
    exact ⟨texts, texts', htexts, htexts', Text.join_eq_iff.1 (htext.trans htext'.symm)⟩

def TypeScript.Literal.value : Literal → Value
  | .str s => .str s
  | .num n => .num n
  | .bool b => .bool b
  | .null => .null

def memberValues (members : List EnumMember) : List Value :=
  members.map fun member ↦ member.value.value

theorem value_of_enumMember {value : Value} {custom : Option String} {member : EnumMember}
    (h : enumMember value custom = .ok member) : member.value.value = value := by
  cases value with
  | str s | num n =>
    rw [enumMember, Except.ok.injEq] at h
    exact h ▸ rfl
  | null | bool b | arr items | obj members => exact nomatch h

/-- The members of an enumeration have its values, whatever their names are. -/
theorem memberValues_of_enumMembers {values : List Value} {names : Option (List String)}
    {members : List EnumMember} (h : enumMembers values names = .ok members) :
    memberValues members = values := by
  induction values generalizing names members with
  | nil =>
    cases h
    rfl
  | cons v values ih =>
    obtain ⟨member, hmember, h⟩ := bind_eq_ok.1 h
    obtain ⟨rest, hrest, h⟩ := bind_eq_ok.1 h
    cases h
    exact List.cons_eq_cons.2 ⟨value_of_enumMember hmember, ih hrest⟩

end ApiClient
