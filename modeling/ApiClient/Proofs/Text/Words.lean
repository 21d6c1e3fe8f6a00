import ApiClient.Proofs.Text.Ascii
import ApiClient.Text.Blank

/-!
# Words and where their characters come from

The words of a text are not empty and consist of letters and numbers of the text. A text that begins
with small letters and a space has these letters as its first word.
-/

namespace ApiClient.Text

theorem not_isAlphanumeric_space : isAlphanumeric ' ' = false := by
  decide

theorem mem_splitDigits {cs : List Char} {c : Char} (h : c ∈ splitDigits cs) :
    c ∈ cs ∨ c = ' ' := by
  fun_induction splitDigits cs with
  | case1 a b rest _ ih | case2 a b rest _ ih =>
    simp only [List.mem_cons] at h ih ⊢
    grind
  | case3 cs => exact .inl h

theorem splitWhere_ne_nil (sep : Char → Bool) (cs : List Char) : splitWhere sep cs ≠ [] := by
  cases cs with
  | nil => simp [splitWhere]
  | cons c rest =>
    rw [splitWhere]
    split
    · simp
    · split <;> simp

theorem mem_of_mem_splitWhere {sep : Char → Bool} {cs run : List Char}
    (h : run ∈ splitWhere sep cs) : ∀ c ∈ run, c ∈ cs ∧ sep c = false := by
  induction cs generalizing run with
  | nil =>
    obtain rfl := List.mem_singleton.1 h
    simp
  | cons d rest ih =>
    rw [splitWhere] at h
    split at h
    next hnil => exact absurd hnil (splitWhere_ne_nil sep rest)
    next first runs hruns =>
      have hrest : ∀ r ∈ first :: runs, ∀ c ∈ r, c ∈ d :: rest ∧ sep c = false :=
        fun r hr c hc ↦ (ih (hruns ▸ hr) c hc).imp_left (List.mem_cons_of_mem _)
      split at h
      next hsep =>
        rcases List.mem_cons.1 h with rfl | h
        · simp
        · exact hrest run h
      next hsep =>
        rcases List.mem_cons.1 h with rfl | h
        · intro c hc
          rcases List.mem_cons.1 hc with rfl | hc
          · exact ⟨List.mem_cons_self, by simpa using hsep⟩
          · exact hrest first List.mem_cons_self c hc
        · exact hrest run (List.mem_cons_of_mem _ h)

theorem flatten_splitWhere (sep : Char → Bool) (cs : List Char) :
    (splitWhere sep cs).flatten = cs.filter fun c ↦ !sep c := by
  induction cs with
  | nil => rfl
  | cons c rest ih =>
    rw [splitWhere]
    split
    next hnil => exact absurd hnil (splitWhere_ne_nil sep rest)
    next run runs hruns =>
      rw [hruns] at ih
      cases hc : sep c <;> simp [hc, ← ih]

theorem mem_of_mem_cutAtCase {mode : Casing} {word cs w : List Char}
    (h : w ∈ cutAtCase mode word cs) : ∀ c ∈ w, c ∈ word ∨ c ∈ cs := by
  fun_induction cutAtCase mode word cs with
  | case1 => simp at h
  | case2 mode word d =>
    obtain rfl := List.mem_singleton.1 h
    simp [or_comm]
  | case3 mode word d e rest _ ih =>
    intro c hc
    rcases List.mem_cons.1 h with rfl | h
    · rcases List.mem_cons.1 (List.mem_reverse.1 hc) with rfl | hc
      · exact .inr List.mem_cons_self
      · exact .inl hc
    · exact .inr (List.mem_cons_of_mem _ ((ih h c hc).resolve_left List.not_mem_nil))
  | case4 mode word d e rest _ _ ih =>
    intro c hc
    rcases List.mem_cons.1 h with rfl | h
    · exact .inl (List.mem_reverse.1 hc)
    · rcases ih h c hc with hc | hc
      · exact .inr (List.mem_singleton.1 hc ▸ List.mem_cons_self)
      · exact .inr (List.mem_cons_of_mem _ hc)
  | case5 mode word d e rest _ _ ih =>
    intro c hc
    rcases ih h c hc with hc | hc
    · rcases List.mem_cons.1 hc with rfl | hc
      · exact .inr List.mem_cons_self
      · exact .inl hc
    · exact .inr (List.mem_cons_of_mem _ hc)

/-- Capitals are only counted in a word that has begun. -/
theorem ne_nil_of_mem_cutAtCase {mode : Casing} {word cs w : List Char}
    (hmode : mode = .capital → word ≠ []) (h : w ∈ cutAtCase mode word cs) : w ≠ [] := by
  fun_induction cutAtCase mode word cs with
  | case1 => simp at h
  | case2 mode word d =>
    obtain rfl := List.mem_singleton.1 h
    simp
  | case3 mode word d e rest _ ih =>
    rcases List.mem_cons.1 h with rfl | h
    · simp
    · exact ih (by simp) h
  | case4 mode word d e rest _ hcut ih =>
    rcases List.mem_cons.1 h with rfl | h
    · have hcapital : mode = .capital := by
        simp only [Bool.and_eq_true, decide_eq_true_eq] at hcut
        exact hcut.1.1
      simpa using hmode hcapital
    · exact ih (by simp) h
  | case5 mode word d e rest _ _ ih => exact ih (by simp) h

/-- The words of a text are made of letters and numbers that stand in it. -/
theorem word_of_mem_words {cs w : List Char} (h : w ∈ words cs) :
    w ≠ [] ∧ ∀ c ∈ w, c ∈ cs ∧ isAlphanumeric c := by
  obtain ⟨run, hrun, hw⟩ := List.mem_flatMap.1 h
  refine ⟨ne_nil_of_mem_cutAtCase (by simp) hw, fun c hc ↦ ?_⟩
  have hcrun : c ∈ run := by simpa using mem_of_mem_cutAtCase hw c hc
  obtain ⟨hsplit, hsep⟩ := mem_of_mem_splitWhere hrun c hcrun
  have halnum : isAlphanumeric c := by simpa using hsep
  rcases mem_splitDigits hsplit with hcs | rfl
  · exact ⟨hcs, halnum⟩
  · rw [not_isAlphanumeric_space] at halnum
    cases halnum

/-! ## Where the characters of camel case come from -/

/-- What can stand for a character in camel case. -/
inductive FormOf (c : Char) : Char → Prop where
  | small {d : Char} (h : d ∈ toLower c) : FormOf c d
  | capital {d : Char} (h : d ∈ toUpper c) : FormOf c d
  | finalSigma (h : c.toNat = 0x3A3) : FormOf c (Char.ofNat 0x3C2)

theorem exists_form_of_mem_lowerWord {w : List Char} {d : Char} (h : d ∈ lowerWord w) :
    ∃ c ∈ w, FormOf c d := by
  fun_induction lowerWord w with
  | case1 => simp at h
  | case2 c hsigma =>
    obtain rfl := List.mem_singleton.1 h
    exact ⟨c, List.mem_cons_self, .finalSigma hsigma⟩
  | case3 c _ => exact ⟨c, List.mem_cons_self, .small h⟩
  | case4 c rest _ ih =>
    rcases List.mem_append.1 h with h | h
    · exact ⟨c, List.mem_cons_self, .small h⟩
    · exact (ih h).imp fun _ ↦ And.imp_left (List.mem_cons_of_mem _)

theorem exists_form_of_mem_capitalWord {w : List Char} {d : Char} (h : d ∈ capitalWord w) :
    ∃ c ∈ w, FormOf c d := by
  cases w with
  | nil => simp [capitalWord] at h
  | cons c rest =>
    rcases List.mem_append.1 h with h | h
    · exact ⟨c, List.mem_cons_self, .capital h⟩
    · exact (exists_form_of_mem_lowerWord h).imp fun _ ↦ And.imp_left (List.mem_cons_of_mem _)

/-- The characters of camel case stand for letters and numbers of the text. -/
theorem exists_form_of_mem_camelCase {s : String} {d : Char} (h : d ∈ (camelCase s).toList) :
    ∃ c ∈ s.toList, isAlphanumeric c ∧ FormOf c d := by
  have hword {w : List Char} (hw : w ∈ words s.toList) (h : ∃ c ∈ w, FormOf c d) :
      ∃ c ∈ s.toList, isAlphanumeric c ∧ FormOf c d := by
    obtain ⟨c, hc, hform⟩ := h
    obtain ⟨hmem, halnum⟩ := (word_of_mem_words hw).2 c hc
    exact ⟨c, hmem, halnum, hform⟩
  unfold camelCase at h
  split at h
  next => simp at h
  next first rest heq =>
    rw [String.toList_ofList] at h
    rcases List.mem_append.1 h with h | h
    · exact hword (heq ▸ List.mem_cons_self) (exists_form_of_mem_lowerWord h)
    · obtain ⟨w, hw, h⟩ := List.mem_flatMap.1 h
      exact hword (heq ▸ List.mem_cons_of_mem _ hw) (exists_form_of_mem_capitalWord h)

theorem mem_upperFirst {s : String} {d : Char} (h : d ∈ (upperFirst s).toList) :
    d ∈ s.toList ∨ ∃ c ∈ s.toList, d ∈ toUpper c := by
  unfold upperFirst at h
  split at h
  next => simp at h
  next c rest heq =>
    rw [String.toList_ofList] at h
    rw [heq]
    rcases List.mem_append.1 h with h | h
    · exact .inr ⟨c, List.mem_cons_self, h⟩
    · exact .inl (List.mem_cons_of_mem _ h)

theorem isAlphanum_of_form {c d : Char} (hc : c.isAlphanum) (h : FormOf c d) : d.isAlphanum := by
  have hcode := ascii_of_isAlphanum hc
  cases h with
  | small h =>
    rw [toLower_eq hcode] at h
    exact List.mem_singleton.1 h ▸ isAlphanum_toLower hc
  | capital h =>
    rw [toUpper_eq hcode] at h
    exact List.mem_singleton.1 h ▸ isAlphanum_toUpper hc
  | finalSigma h => omega

/-- The camel case of an ASCII text is made of ASCII letters and digits. -/
theorem isAlphanum_camelCase {s : String} (hs : isAscii s) :
    ∀ c ∈ (camelCase s).toList, c.isAlphanum := by
  intro d hd
  obtain ⟨c, hc, halnum, hform⟩ := exists_form_of_mem_camelCase hd
  rw [isAlphanumeric_eq_isAlphanum (isAscii_iff.1 hs c hc)] at halnum
  exact isAlphanum_of_form halnum hform

theorem isAlphanum_upperFirst {s : String} (hs : ∀ c ∈ s.toList, c.isAlphanum) :
    ∀ c ∈ (upperFirst s).toList, c.isAlphanum := by
  intro d hd
  rcases mem_upperFirst hd with hd | ⟨c, hc, hd⟩
  · exact hs d hd
  · exact isAlphanum_of_form (hs c hc) (.capital hd)

/-! ## How camel case begins -/

/-- No letter and no number is blank. -/
theorem not_isAlphanumeric_of_isBlank {c : Char} (h : isBlank c) : isAlphanumeric c = false := by
  obtain ⟨span, hspan, hfirst, hlast⟩ := inSpans_iff.1 h
  have htable : ∀ s ∈ blankSpans, ∀ k < s.2 - s.1 + 1,
      isAlphanumeric (Char.ofNat (s.1 + k)) = false := by
    decide +kernel
  have hcode := htable span hspan (c.toNat - span.1) (by omega)
  rwa [Nat.add_sub_cancel' hfirst, Char.ofNat_toNat] at hcode

theorem head?_lowerWord {c : Char} (hc : c.toNat < 0x80) (rest : List Char) :
    (lowerWord (c :: rest)).head? = some c.toLower := by
  cases rest with
  | nil => rw [lowerWord, if_neg (by omega), toLower_eq hc, List.head?_cons]
  | cons d rest =>
    have hne : d :: rest = [] → False := by simp
    rw [lowerWord.eq_3 _ _ hne, toLower_eq hc, List.singleton_append, List.head?_cons]

/-- Camel case begins with the small form of a letter or number of the text. -/
theorem head?_camelCase {s : String} (hs : ∀ c ∈ s.toList, isAlphanumeric c → c.toNat < 0x80)
    {c : Char} (h : (camelCase s).toList.head? = some c) :
    ∃ d ∈ s.toList, isAlphanumeric d ∧ c = d.toLower := by
  unfold camelCase at h
  split at h
  next => simp at h
  next first rest hwords =>
    have hfirst : first ∈ words s.toList := hwords ▸ List.mem_cons_self
    obtain ⟨hne, hchars⟩ := word_of_mem_words hfirst
    obtain ⟨d, ds, rfl⟩ := List.exists_cons_of_ne_nil hne
    obtain ⟨hd, halnum⟩ := hchars d List.mem_cons_self
    rw [String.toList_ofList, List.head?_append, head?_lowerWord (hs d hd halnum)] at h
    exact ⟨d, hd, halnum, (Option.some.inj h).symm⟩

/-! ## Small letters in front -/

theorem splitDigits_cons (a : Char) (cs : List Char) :
    ∃ rest, splitDigits (a :: cs) = a :: rest := by
  cases cs with
  | nil => exact ⟨[], rfl⟩
  | cons b rest =>
    rw [splitDigits]
    split
    · exact ⟨_, rfl⟩
    · exact ⟨_, rfl⟩

/-- The current word is continued, or it ends here. -/
theorem cutAtCase_cons (mode : Casing) (word : List Char) (c : Char) (cs : List Char) :
    ∃ more rest, cutAtCase mode word (c :: cs) = (word.reverse ++ more) :: rest := by
  induction cs generalizing mode word c with
  | nil => exact ⟨[c], [], by simp [cutAtCase]⟩
  | cons d cs ih =>
    rw [cutAtCase]
    split
    · exact ⟨[c], _, by rw [List.reverse_cons]⟩
    · split
      · exact ⟨[], _, by rw [List.append_nil]⟩
      · obtain ⟨more, rest, hcut⟩ := ih (mode.next c) (c :: word) d
        exact ⟨c :: more, rest, by rw [hcut, List.reverse_cons, List.append_assoc]; rfl⟩

theorem lowerWord_cons {c : Char} (hc : c.isLower) (cs : List Char) :
    lowerWord (c :: cs) = c :: lowerWord cs := by
  have hcode := ascii_of_isLower hc
  cases cs with
  | nil => rw [lowerWord.eq_2, if_neg (by omega), toLower_of_isLower hc, lowerWord]
  | cons d cs =>
    have hne : d :: cs = [] → False := by simp
    rw [lowerWord.eq_3 _ _ hne, toLower_of_isLower hc, List.singleton_append]

section

variable {w : List Char} (hw : ∀ c ∈ w, c.isLower)

include hw

theorem splitDigits_append (cs : List Char) : ∃ rest, splitDigits (w ++ cs) = w ++ rest := by
  induction w with
  | nil => exact ⟨_, rfl⟩
  | cons a w ih =>
    cases w with
    | nil => exact splitDigits_cons a cs
    | cons b w =>
      have ha := not_isDigit_of_isLower (hw a List.mem_cons_self)
      have hb := not_isDigit_of_isLower (hw b (List.mem_cons_of_mem _ List.mem_cons_self))
      obtain ⟨rest, hrest⟩ := ih fun c hc ↦ hw c (List.mem_cons_of_mem _ hc)
      refine ⟨rest, ?_⟩
      rw [List.cons_append, List.cons_append, splitDigits, if_neg (by simp [digitBorder, ha, hb])]
      exact congrArg _ hrest

theorem splitWhere_append (cs : List Char) : ∃ more runs,
    splitWhere (fun c ↦ !isAlphanumeric c) (w ++ cs) = (w ++ more) :: runs := by
  induction w with
  | nil => exact List.exists_cons_of_ne_nil (splitWhere_ne_nil _ cs)
  | cons a w ih =>
    obtain ⟨more, runs, hruns⟩ := ih fun c hc ↦ hw c (List.mem_cons_of_mem _ hc)
    have ha : isAlphanumeric a := isAlphanumeric_of_isLower (hw a List.mem_cons_self)
    refine ⟨more, runs, ?_⟩
    rw [List.cons_append, splitWhere, hruns]
    exact if_neg (by simp [ha])

theorem cutAtCase_append {mode : Casing} (hmode : mode ≠ .capital) (hne : w ≠ [])
    (word cs : List Char) :
    ∃ more rest, cutAtCase mode word (w ++ cs) = (word.reverse ++ w ++ more) :: rest := by
  induction w generalizing mode word with
  | nil => exact absurd rfl hne
  | cons a w ih =>
    have hw' : ∀ c ∈ w, c.isLower := fun c hc ↦ hw c (List.mem_cons_of_mem _ hc)
    have ha : mode.next a = .small := by
      rw [Casing.next, if_pos (isLowercase_of_isLower (hw a List.mem_cons_self))]
    cases w with
    | nil =>
      cases cs with
      | nil => exact ⟨[], [], by simp [cutAtCase]⟩
      | cons c cs =>
        rw [List.singleton_append, cutAtCase]
        split
        · exact ⟨[], _, by rw [List.reverse_cons, List.append_nil]⟩
        · rw [if_neg (by simp [hmode])]
          obtain ⟨more, rest, hcut⟩ := cutAtCase_cons (mode.next a) (a :: word) c cs
          exact ⟨more, rest, by rw [hcut, List.reverse_cons]⟩
    | cons b w =>
      have hb : isUppercase b = false := not_isUppercase_of_isLower (hw' b List.mem_cons_self)
      have hsmall : Casing.small ≠ .capital := by decide
      obtain ⟨more, rest, hcut⟩ := ih hw' hsmall (by simp) (a :: word)
      refine ⟨more, rest, ?_⟩
      rw [List.cons_append, List.cons_append, cutAtCase, if_neg (by simp [hb]),
        if_neg (by simp [hmode]), ha]
      refine hcut.trans ?_
      rw [List.reverse_cons, List.append_assoc _ [a]]
      rfl

theorem lowerWord_append (cs : List Char) : lowerWord (w ++ cs) = w ++ lowerWord cs := by
  induction w with
  | nil => rfl
  | cons a w ih =>
    rw [List.cons_append, lowerWord_cons (hw a List.mem_cons_self),
      ih fun c hc ↦ hw c (List.mem_cons_of_mem _ hc)]
    rfl

/-- Small letters in front of a text are in front of its camel case. -/
theorem prefix_camelCase {s : String} (hne : w ≠ []) (h : w <+: s.toList) :
    w <+: (camelCase s).toList := by
  obtain ⟨cs, hs⟩ := h
  have hundecided : Casing.undecided ≠ .capital := by decide
  obtain ⟨rest, hdigits⟩ := splitDigits_append hw cs
  obtain ⟨more, runs, hruns⟩ := splitWhere_append hw rest
  obtain ⟨more', others, hcut⟩ := cutAtCase_append hw hundecided hne [] more
  have hwords : words s.toList =
      (w ++ more') :: (others ++ runs.flatMap (cutAtCase .undecided [])) := by
    rw [← hs, words, hdigits, hruns, List.flatMap_cons, hcut]
    rfl
  rw [camelCase, hwords, String.toList_ofList, lowerWord_append hw, List.append_assoc]
  exact List.prefix_append _ _

end

end ApiClient.Text
