import ApiClient.Proofs.Text.Words

/-!
# What camel case keeps of a text

Camel case leaves none of the signs in ASCII. Of an ASCII text it keeps all letters and digits in
their order and changes only the case of letters, so a text of digits and other signs becomes its
digits.
-/

namespace ApiClient.Text

/-! ## Signs -/

/-- What is moved into ASCII from above becomes a letter. -/
theorem shift_cases {distances : List (Nat × Nat × Nat × Int)} {code : Nat}
    (hspans : ∀ span ∈ distances, 0x80 ≤ span.1 + span.2.2.2 ∨
      span.2.1 = span.1 ∧ (Char.ofNat (span.1 + span.2.2.2).toNat).isAlphanum)
    (hcode : 0x80 ≤ code) :
    0x80 ≤ shift distances code ∨ (Char.ofNat (shift distances code)).isAlphanum := by
  unfold shift
  split
  next first last step distance hfind =>
    have hspan := hspans _ (List.mem_of_find?_eq_some hfind)
    have hin := List.find?_some hfind
    simp only [Bool.and_eq_true, decide_eq_true_eq] at hspan hin
    rcases hspan with hspan | ⟨hsingle, hletter⟩
    · exact .inl (by omega)
    · have hfirst : code = first := by omega
      exact .inr (hfirst ▸ hletter)
  next => exact .inl hcode

theorem ascii_of_ofNat {code : Nat} (h : 0x80 ≤ code) :
    (Char.ofNat code).toNat < 0x20 ∨ 0x80 ≤ (Char.ofNat code).toNat := by
  by_cases hvalid : code.isValidChar
  · have hcode : (Char.ofNat code).toNat = code := by
      rw [Char.ofNat, dif_pos hvalid]
      rfl
    exact .inr (hcode.symm ▸ h)
  · rw [Char.ofNat, dif_neg hvalid]
    exact .inl (by decide)

/-- A sign in ASCII is a form of nothing but itself. -/
theorem eq_of_form {c d : Char} (h : FormOf c d) (hlow : 0x20 ≤ d.toNat) (hhigh : d.toNat < 0x80)
    (hsign : d.isAlphanum = false) : c = d := by
  have hno : ∀ code, 0x80 ≤ code ∨ (Char.ofNat code).isAlphanum → d ≠ Char.ofNat code := by
    rintro code (hcode | hletter) rfl
    · have := ascii_of_ofNat hcode
      omega
    · rw [hsign] at hletter
      cases hletter
  by_cases hascii : c.toNat < 0x80
  · cases h with
    | small h =>
      rw [toLower_eq hascii] at h
      have htable := forall_ascii (p := fun c ↦ c.toLower.isAlphanum || c == c.toLower)
        (by decide) hascii
      rw [← List.mem_singleton.1 h, hsign] at htable
      simpa using htable
    | capital h =>
      rw [toUpper_eq hascii] at h
      have htable := forall_ascii (p := fun c ↦ c.toUpper.isAlphanum || c == c.toUpper)
        (by decide) hascii
      rw [← List.mem_singleton.1 h, hsign] at htable
      simpa using htable
    | finalSigma h => omega
  · have hcode : 0x80 ≤ c.toNat := Nat.le_of_not_lt hascii
    exfalso
    cases h with
    | small h =>
      rw [toLower, if_neg hascii] at h
      split at h
      · rcases List.mem_cons.1 h with rfl | h
        · exact absurd hsign (by decide)
        · exact hno 0x307 (.inl (by decide)) (List.mem_singleton.1 h)
      · exact hno _ (shift_cases (by decide +kernel) hcode) (List.mem_singleton.1 h)
    | capital h =>
      have hexpansions : ∀ e ∈ upperExpansions, ∀ code ∈ e.2,
          0x80 ≤ code ∨ (Char.ofNat code).isAlphanum := by
        decide +kernel
      rw [toUpper, if_neg hascii] at h
      split at h
      next codes hfind =>
        obtain ⟨code, hmem, rfl⟩ := List.mem_map.1 h
        exact hno _ (hexpansions _ (List.mem_of_find?_eq_some hfind) code hmem) rfl
      next => exact hno _ (shift_cases (by decide +kernel) hcode) (List.mem_singleton.1 h)
    | finalSigma h => exact hno 0x3C2 (.inl (by decide)) rfl

theorem eq_dollar_of_form {c : Char} (h : FormOf c '$') : c = '$' :=
  eq_of_form h (by decide) (by decide) (by decide)

/-- Of the signs in ASCII, camel case keeps none. -/
theorem isAlphanum_of_mem_camelCase {s : String} {c : Char} (h : c ∈ (camelCase s).toList)
    (hlow : 0x20 ≤ c.toNat) (hhigh : c.toNat < 0x80) : c.isAlphanum := by
  obtain ⟨d, -, halnum, hform⟩ := exists_form_of_mem_camelCase h
  cases hsign : c.isAlphanum with
  | true => rfl
  | false =>
    obtain rfl := eq_of_form hform hlow hhigh hsign
    rwa [isAlphanumeric_eq_isAlphanum hhigh, hsign] at halnum

/-- A text in camel case with a capital in front. -/
def spelling (s : String) : String :=
  upperFirst (camelCase s)

theorem dollar_not_mem_camelCase (s : String) : '$' ∉ (camelCase s).toList := fun h ↦
  absurd (isAlphanum_of_mem_camelCase h (by decide) (by decide)) (by decide)

theorem dollar_not_mem_spelling (s : String) : '$' ∉ (spelling s).toList := by
  intro h
  rcases mem_upperFirst h with h | ⟨c, hc, h⟩
  · exact dollar_not_mem_camelCase s h
  · rw [eq_dollar_of_form (.capital h)] at hc
    exact dollar_not_mem_camelCase s hc

/-! ## Letters and digits -/

/-- The letters and numbers of a text in their order, ASCII letters in small form. -/
def skeleton (s : String) : List Char :=
  (s.toList.filter isAlphanumeric).map Char.toLower

theorem skeleton_append (s t : String) : skeleton (s ++ t) = skeleton s ++ skeleton t := by
  simp only [skeleton, String.toList_append, List.filter_append, List.map_append]

theorem skeleton_eq_map {s : String} (h : ∀ c ∈ s.toList, c.isAlphanum) :
    skeleton s = s.toList.map Char.toLower := by
  have hall : ∀ c ∈ s.toList, isAlphanumeric c := fun c hc ↦ by
    rw [isAlphanumeric_eq_isAlphanum (ascii_of_isAlphanum (h c hc))]
    exact h c hc
  rw [skeleton, List.filter_eq_self.2 hall]

theorem filter_splitDigits (cs : List Char) :
    (splitDigits cs).filter isAlphanumeric = cs.filter isAlphanumeric := by
  fun_induction splitDigits cs with
  | case1 a b rest _ ih =>
    rw [List.filter_cons, List.filter_cons, not_isAlphanumeric_space, ih, List.filter_cons (x := a)]
    rfl
  | case2 a b rest _ ih => rw [List.filter_cons, ih, ← List.filter_cons]
  | case3 cs => rfl

theorem flatten_cutAtCase (mode : Casing) (word : List Char) {cs : List Char} (hne : cs ≠ []) :
    (cutAtCase mode word cs).flatten = word.reverse ++ cs := by
  fun_induction cutAtCase mode word cs with
  | case1 => exact absurd rfl hne
  | case2 mode word c => simp
  | case3 mode word c d rest _ ih | case4 mode word c d rest _ _ ih =>
    rw [List.flatten_cons, ih (by simp)]
    simp
  | case5 mode word c d rest _ _ ih =>
    rw [ih (by simp)]
    simp

theorem flatten_words (cs : List Char) : (words cs).flatten = cs.filter isAlphanumeric := by
  have hcut : ∀ run, (cutAtCase .undecided [] run).flatten = run := by
    intro run
    cases run with
    | nil => rfl
    | cons c rest => exact flatten_cutAtCase .undecided [] (List.cons_ne_nil c rest)
  rw [words, List.flatMap_def, List.flatten_flatten, List.map_map]
  simp only [Function.comp_def, hcut]
  rw [List.map_id', flatten_splitWhere]
  simp only [Bool.not_not]
  exact filter_splitDigits cs

theorem map_toLower_lowerWord {w : List Char} (hw : ∀ c ∈ w, c.toNat < 0x80) :
    (lowerWord w).map Char.toLower = w.map Char.toLower := by
  fun_induction lowerWord w with
  | case1 => rfl
  | case2 c hsigma =>
    have hcode := hw c List.mem_cons_self
    omega
  | case3 c _ =>
    have hc := hw c List.mem_cons_self
    simp [toLower_eq hc, toLower_toLower hc]
  | case4 c rest _ ih =>
    rw [List.forall_mem_cons] at hw
    rw [toLower_eq hw.1, List.map_append, ih hw.2, List.map_singleton, toLower_toLower hw.1]
    rfl

theorem map_toLower_capitalWord {w : List Char} (hw : ∀ c ∈ w, c.toNat < 0x80) :
    (capitalWord w).map Char.toLower = w.map Char.toLower := by
  cases w with
  | nil => rfl
  | cons c rest =>
    rw [List.forall_mem_cons] at hw
    rw [capitalWord, toUpper_eq hw.1, List.map_append, map_toLower_lowerWord hw.2,
      List.map_singleton, toLower_toUpper hw.1]
    rfl

theorem map_toLower_camelCase {s : String} (hs : isAscii s) :
    (camelCase s).toList.map Char.toLower = skeleton s := by
  have hascii : ∀ w ∈ words s.toList, ∀ c ∈ w, c.toNat < 0x80 :=
    fun w hw c hc ↦ isAscii_iff.1 hs c ((word_of_mem_words hw).2 c hc).1
  rw [skeleton, ← flatten_words, camelCase]
  split
  next heq => rw [heq]; rfl
  next first rest heq =>
    rw [heq, List.forall_mem_cons] at hascii
    rw [heq, String.toList_ofList, List.map_append, map_toLower_lowerWord hascii.1,
      List.flatten_cons, List.map_append, List.map_flatMap, List.map_flatten, List.flatMap_def]
    congr 2
    exact List.map_congr_left fun w hw ↦ map_toLower_capitalWord (hascii.2 w hw)

theorem map_toLower_upperFirst {s : String} (hs : isAscii s) :
    (upperFirst s).toList.map Char.toLower = s.toList.map Char.toLower := by
  rw [isAscii_iff] at hs
  unfold upperFirst
  split
  next heq => rw [heq]; rfl
  next c rest heq =>
    rw [heq, List.forall_mem_cons] at hs
    rw [heq, String.toList_ofList, toUpper_eq hs.1, List.map_append, List.map_singleton,
      toLower_toUpper hs.1]
    rfl

/-- The spelling of an ASCII text has the letters and digits of the text. -/
theorem map_toLower_spelling {s : String} (hs : isAscii s) :
    (spelling s).toList.map Char.toLower = skeleton s := by
  have hcamel : isAscii (camelCase s) :=
    isAscii_iff.2 fun c hc ↦ ascii_of_isAlphanum (isAlphanum_camelCase hs c hc)
  rw [spelling, map_toLower_upperFirst hcamel, map_toLower_camelCase hs]

theorem skeleton_eq_of_spelling {s t : String} (hs : isAscii s) (ht : isAscii t)
    (h : spelling s = spelling t) : skeleton s = skeleton t := by
  rw [← map_toLower_spelling hs, ← map_toLower_spelling ht, h]

theorem toLower_eq_self_of_isDigit {c : Char} (hc : c.isAlphanum) (h : c.toLower.isDigit) :
    c.toLower = c := by
  have htable := forall_ascii (p := fun c ↦ !c.toLower.isDigit || c.toLower == c) (by decide)
    (ascii_of_isAlphanum hc)
  simpa [h] using htable

/-- A text whose letters and numbers are digits is spelled as its digits. -/
theorem spelling_of_digits {s : String} (hs : isAscii s) (h : ∀ c ∈ skeleton s, c.isDigit) :
    spelling s = String.ofList (skeleton s) := by
  rw [← map_toLower_spelling hs] at h ⊢
  rw [← String.toList_inj, String.toList_ofList]
  symm
  refine (List.map_congr_left fun c hc ↦ ?_).trans (List.map_id _)
  have halnum := isAlphanum_upperFirst (isAlphanum_camelCase hs) c hc
  exact toLower_eq_self_of_isDigit halnum (h _ (List.mem_map_of_mem hc))

end ApiClient.Text
