import ApiClient.Proofs.Text.CamelCase
import ApiClient.Proofs.Text.Numbers
import ApiClient.TypeScript.Identifier

/-!
# Legal identifiers

What is made from an ASCII text may name a variable, and still may with a number or another word
behind it: reserved words consist of small letters.
-/

namespace ApiClient.TypeScript

theorem isLower_of_reserved : ∀ word ∈ reservedWords, ∀ c ∈ word.toList, c.isLower := by
  have htable : ∀ word ∈ reservedWords, word.toList.all Char.isLower := by decide +kernel
  exact fun word hword ↦ List.all_eq_true.1 (htable word hword)

theorem isIdentifier_iff {s : String} :
    isIdentifier s ↔ (∃ c ∈ s.toList.head?, startsIdentifier c) ∧
      (∀ c ∈ s.toList, continuesIdentifier c) ∧ s ∉ reservedWords := by
  have hcontinues : ∀ c, startsIdentifier c → continuesIdentifier c := by
    intro c hc
    simp only [startsIdentifier, continuesIdentifier, Text.isAlphanumeric, Bool.or_eq_true] at hc ⊢
    exact hc.imp_right .inl
  unfold isIdentifier
  split
  next hs => simp [hs]
  next c rest hs =>
    rw [hs]
    simp only [Bool.and_eq_true, List.all_eq_true, Bool.not_eq_true', List.head?_cons,
      Option.mem_some_iff, exists_eq_left', List.forall_mem_cons]
    have hreserved : reservedWords.contains s = false ↔ s ∉ reservedWords := by
      simp
    rw [hreserved]
    constructor
    · rintro ⟨⟨hstart, hrest⟩, hs⟩
      exact ⟨hstart, ⟨hcontinues c hstart, hrest⟩, hs⟩
    · rintro ⟨hstart, ⟨-, hrest⟩, hs⟩
      exact ⟨⟨hstart, hrest⟩, hs⟩

theorem continuesIdentifier_of_isAlphanum {c : Char} (h : c.isAlphanum) :
    continuesIdentifier c := by
  have halnum : Text.isAlphanumeric c := by
    rwa [Text.isAlphanumeric_eq_isAlphanum (Text.ascii_of_isAlphanum h)]
  simp [continuesIdentifier, halnum]

/-- A text with a character that is not a small letter is not reserved. -/
theorem not_reserved {s : String} {c : Char} (hc : c ∈ s.toList) (hlower : c.isLower = false) :
    s ∉ reservedWords := by
  intro hs
  rw [isLower_of_reserved s hs c hc] at hlower
  cases hlower

theorem isIdentifier_append {s t : String} (hs : isIdentifier s)
    (ht : ∀ c ∈ t.toList, c.isAlphanum) {c : Char} (hc : c ∈ t.toList)
    (hlower : c.isLower = false) : isIdentifier (s ++ t) := by
  obtain ⟨⟨d, hd, hstarts⟩, hcontinues, -⟩ := isIdentifier_iff.1 hs
  refine isIdentifier_iff.2 ⟨⟨d, ?_, hstarts⟩, fun e he ↦ ?_, not_reserved ?_ hlower⟩
  · rw [String.toList_append, List.head?_append, Option.mem_def.1 hd]
    rfl
  · rw [String.toList_append] at he
    rcases List.mem_append.1 he with he | he
    · exact hcontinues e he
    · exact continuesIdentifier_of_isAlphanum (ht e he)
  · rw [String.toList_append]
    exact List.mem_append_right _ hc

theorem isIdentifier_of_suffixed {wanted name : String} (h : Names.Suffixed wanted name)
    (hwanted : isIdentifier wanted) : isIdentifier name := by
  cases h with
  | plain => exact hwanted
  | number n =>
    have hdigits : ∀ c ∈ (toString n).toList, c.isDigit := fun c ↦ Text.isDigit_of_mem_number
    have hne : (toString n).toList ≠ [] := fun hnil ↦
      Text.number_ne_empty n (String.toList_inj.1 hnil)
    obtain ⟨c, cs, hcs⟩ := List.exists_cons_of_ne_nil hne
    have hc : c ∈ (toString n).toList := hcs ▸ List.mem_cons_self
    exact isIdentifier_append hwanted (fun c hc ↦ Text.isAlphanum_of_isDigit (hdigits c hc)) hc
      (Text.not_isLower_of_isDigit (hdigits c hc))

theorem isAlphanum_ending (mode : Mode) : ∀ c ∈ mode.ending.toList, c.isAlphanum := by
  apply List.all_eq_true.1
  cases mode <;> decide

/-- Behind a dollar sign letters and digits may stand in any order. -/
theorem isIdentifier_dollar {name : String} (hname : ∀ c ∈ name.toList, c.isAlphanum) :
    isIdentifier ("$" ++ name) := by
  have hchars : ("$" ++ name).toList = '$' :: name.toList := String.toList_append
  refine isIdentifier_iff.2 ⟨⟨'$', ?_, by decide⟩, ?_, ?_⟩
  · rw [hchars]
    rfl
  · rw [hchars, List.forall_mem_cons]
    exact ⟨by decide, fun c hc ↦ continuesIdentifier_of_isAlphanum (hname c hc)⟩
  · exact not_reserved (hchars ▸ List.mem_cons_self) (by decide)

/-! ## Identifiers made from texts -/

/-- What a text is made into before it is looked at whether that is an identifier. -/
def styled (s : String) (upper : Bool) (mode : Mode) : String :=
  (if upper then Text.upperFirst (Text.camelCase s) else Text.camelCase s) ++ mode.ending

theorem toIdentifier_eq (s : String) (upper : Bool) (mode : Mode) : toIdentifier s upper mode =
    if isIdentifier (styled s upper mode) then styled s upper mode
    else "$" ++ styled s upper mode :=
  rfl

section

variable {s : String} (hs : Text.isAscii s) (upper : Bool) (mode : Mode)

include hs

theorem isAlphanum_styled : ∀ c ∈ (styled s upper mode).toList, c.isAlphanum := by
  have hcamel := Text.isAlphanum_camelCase hs
  rw [styled, String.toList_append, List.forall_mem_append]
  refine ⟨?_, isAlphanum_ending mode⟩
  split
  · exact Text.isAlphanum_upperFirst hcamel
  · exact hcamel

/-- Any ASCII text is made into an identifier. -/
theorem isIdentifier_toIdentifier : isIdentifier (toIdentifier s upper mode) := by
  rw [toIdentifier_eq]
  split
  next h => exact h
  next => exact isIdentifier_dollar (isAlphanum_styled hs upper mode)

theorem skeleton_styled : Text.skeleton (styled s upper mode) =
    Text.skeleton s ++ Text.skeleton mode.ending := by
  have hcamel := Text.isAlphanum_camelCase hs
  rw [styled, Text.skeleton_append]
  refine congrArg (· ++ _) ?_
  split
  · rw [Text.skeleton_eq_map (Text.isAlphanum_upperFirst hcamel)]
    exact Text.map_toLower_spelling hs
  · rw [Text.skeleton_eq_map hcamel, Text.map_toLower_camelCase hs]

/-- What is made from an ASCII text may name a variable, and it has the letters and digits of the
text in their order, with those of the mode behind them. -/
theorem ascii_identifier_legal : isIdentifier (toIdentifier s upper mode) ∧
    Text.skeleton (toIdentifier s upper mode) =
      Text.skeleton s ++ Text.skeleton mode.ending := by
  refine ⟨isIdentifier_toIdentifier hs upper mode, ?_⟩
  rw [toIdentifier_eq]
  split
  next => exact skeleton_styled hs upper mode
  next =>
    have hdollar : Text.skeleton "$" = [] := by decide
    rw [Text.skeleton_append, hdollar, List.nil_append, skeleton_styled hs upper mode]

end

/-- A reserved word is legal with a dollar sign, and so is a number in front of the mode. -/
theorem reserved_and_number_legal : Text.isAscii "delete" ∧ Text.isAscii "10-percent" ∧
    isIdentifier (toIdentifier "delete") ∧
    isIdentifier (toIdentifier "10-percent" true .read) ∧
    Text.skeleton (toIdentifier "10-percent" true .read) = "10percentread".toList := by
  have hdelete : Text.isAscii "delete" := by decide
  have hpercent : Text.isAscii "10-percent" := by decide
  have hlegal := ascii_identifier_legal hpercent true .read
  refine ⟨hdelete, hpercent, (ascii_identifier_legal hdelete false .base).1, hlegal.1, ?_⟩
  rw [hlegal.2]
  decide +kernel

/-! ## Equal identifiers -/

theorem toIdentifier_true (s : String) : toIdentifier s true =
    if isIdentifier (Text.spelling s) then Text.spelling s else "$" ++ Text.spelling s := by
  rw [toIdentifier, if_pos rfl, Mode.ending, String.append_empty]
  rfl

/-- The spelling is found in the identifier, where it is all but the dollar sign. -/
theorem filter_toIdentifier (s : String) :
    (toIdentifier s true).toList.filter (· != '$') = (Text.spelling s).toList := by
  have hspelling : (Text.spelling s).toList.filter (· != '$') = (Text.spelling s).toList := by
    refine List.filter_eq_self.2 fun c hc ↦ bne_iff_ne.2 ?_
    rintro rfl
    exact Text.dollar_not_mem_spelling s hc
  have hdollar : "$".toList.filter (· != '$') = [] := by decide
  rw [toIdentifier_true]
  split
  · exact hspelling
  · rw [String.toList_append, List.filter_append, hspelling, hdollar, List.nil_append]

theorem toIdentifier_eq_iff {s t : String} :
    toIdentifier s true = toIdentifier t true ↔ Text.spelling s = Text.spelling t := by
  constructor
  · intro h
    rw [← String.toList_inj, ← filter_toIdentifier, ← filter_toIdentifier, h]
  · intro h
    rw [toIdentifier_true, toIdentifier_true, h]

end ApiClient.TypeScript
