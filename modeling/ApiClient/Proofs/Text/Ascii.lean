import ApiClient.Text.Words

/-!
# ASCII characters

What is said of all ASCII characters can be looked up in their table. The classes and the case of
letters stay within it.
-/

namespace ApiClient.Text

variable {c : Char}

theorem forall_ascii {p : Char → Bool} (h : ∀ n < 0x80, p (Char.ofNat n)) (hc : c.toNat < 0x80) :
    p c := by
  have hcode := h c.toNat hc
  rwa [Char.ofNat_toNat] at hcode

theorem ascii_of_isAlphanum (h : c.isAlphanum) : c.toNat < 0x80 := by
  have hclasses : ((decide (c.val ≥ 'A'.val ∧ c.val ≤ 'Z'.val) ||
      (decide (c.val ≥ 'a'.val) && decide (c.val ≤ 'z'.val))) ||
      (decide (c.val ≥ '0'.val) && decide (c.val ≤ '9'.val))) = true := h
  simp only [Bool.or_eq_true, Bool.and_eq_true, decide_eq_true_eq, ge_iff_le,
    UInt32.le_iff_toNat_le] at hclasses
  have hcode : c.toNat = c.val.toNat := rfl
  simp at hclasses
  omega

theorem isAlphanum_of_isDigit (h : c.isDigit) : c.isAlphanum := by
  simp [Char.isAlphanum, h]

theorem not_isLower_of_isDigit (h : c.isDigit) : c.isLower = false := by
  have htable := forall_ascii (p := fun c ↦ !c.isDigit || !c.isLower) (by decide)
    (ascii_of_isAlphanum (isAlphanum_of_isDigit h))
  simpa [h] using htable

theorem toLower_of_isDigit (h : c.isDigit) : c.toLower = c := by
  have htable := forall_ascii (p := fun c ↦ !c.isDigit || c.toLower == c) (by decide)
    (ascii_of_isAlphanum (isAlphanum_of_isDigit h))
  simpa [h] using htable

theorem isAlphanumeric_eq_isAlphanum (hc : c.toNat < 0x80) : isAlphanumeric c = c.isAlphanum := by
  simp only [isAlphanumeric, isAlphabetic, isNumeric, if_pos hc]
  rfl

theorem isAlphanum_of_isLower (h : c.isLower) : c.isAlphanum := by
  have hclasses : ((c.isUpper || c.isLower) || c.isDigit) = true := by
    rw [h, Bool.or_true, Bool.true_or]
  exact hclasses

theorem toLower_eq (hc : c.toNat < 0x80) : toLower c = [c.toLower] :=
  if_pos hc

theorem toUpper_eq (hc : c.toNat < 0x80) : toUpper c = [c.toUpper] :=
  if_pos hc

theorem isAlphanum_toLower (h : c.isAlphanum) : c.toLower.isAlphanum := by
  have htable := forall_ascii (p := fun c ↦ !c.isAlphanum || c.toLower.isAlphanum) (by decide)
    (ascii_of_isAlphanum h)
  simpa [h] using htable

theorem isAlphanum_toUpper (h : c.isAlphanum) : c.toUpper.isAlphanum := by
  have htable := forall_ascii (p := fun c ↦ !c.isAlphanum || c.toUpper.isAlphanum) (by decide)
    (ascii_of_isAlphanum h)
  simpa [h] using htable

theorem toLower_toLower (hc : c.toNat < 0x80) : c.toLower.toLower = c.toLower := by
  have htable := forall_ascii (p := fun c ↦ c.toLower.toLower == c.toLower) (by decide) hc
  exact eq_of_beq htable

theorem toLower_toUpper (hc : c.toNat < 0x80) : c.toUpper.toLower = c.toLower := by
  have htable := forall_ascii (p := fun c ↦ c.toUpper.toLower == c.toLower) (by decide) hc
  exact eq_of_beq htable

/-! ## Texts -/

def isAscii (s : String) : Bool :=
  s.toList.all fun c ↦ c.toNat < 0x80

theorem isAscii_iff {s : String} : isAscii s ↔ ∀ c ∈ s.toList, c.toNat < 0x80 := by
  simp [isAscii]

theorem isAscii_ofList {cs : List Char} :
    isAscii (String.ofList cs) ↔ ∀ c ∈ cs, c.toNat < 0x80 := by
  rw [isAscii_iff, String.toList_ofList]

theorem isAscii_append {s t : String} : isAscii (s ++ t) ↔ isAscii s ∧ isAscii t := by
  simp only [isAscii_iff, String.toList_append, List.forall_mem_append]

/-- The characters of an ASCII text make ASCII texts. -/
theorem isAscii_of_subset {s : String} {cs : List Char} (hs : isAscii s) (h : cs ⊆ s.toList) :
    isAscii (String.ofList cs) :=
  isAscii_ofList.2 fun _ hc ↦ isAscii_iff.1 hs _ (h hc)

/-! ## Small letters -/

section

variable (h : c.isLower)

include h

theorem ascii_of_isLower : c.toNat < 0x80 :=
  ascii_of_isAlphanum (isAlphanum_of_isLower h)

theorem isAlphanumeric_of_isLower : isAlphanumeric c := by
  rw [isAlphanumeric_eq_isAlphanum (ascii_of_isLower h)]
  exact isAlphanum_of_isLower h

theorem not_isDigit_of_isLower : c.isDigit = false := by
  have htable := forall_ascii (p := fun c ↦ !c.isLower || !c.isDigit) (by decide)
    (ascii_of_isLower h)
  simpa [h] using htable

theorem isLowercase_of_isLower : isLowercase c := by
  rw [isLowercase, if_pos (ascii_of_isLower h)]
  exact h

theorem not_isUppercase_of_isLower : isUppercase c = false := by
  have htable := forall_ascii (p := fun c ↦ !c.isLower || !c.isUpper) (by decide)
    (ascii_of_isLower h)
  rw [isUppercase, if_pos (ascii_of_isLower h)]
  simpa [h] using htable

theorem toLower_of_isLower : toLower c = [c] := by
  have htable := forall_ascii (p := fun c ↦ !c.isLower || c.toLower == c) (by decide)
    (ascii_of_isLower h)
  have hsame : c.toLower = c := by simpa [h] using htable
  rw [toLower_eq (ascii_of_isLower h), hsame]

end

end ApiClient.Text
