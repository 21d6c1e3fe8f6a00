import ApiClient.Compile.Names

/-!
# Numbers at the end of a text

A text that ends in a number may be read in more than one way, because the digits in front of the
number can belong to it or not. Two readings of one text differ only in that: the shorter text is
followed by a number in the longer one.
-/

namespace ApiClient

theorem digitChar_injective {a b : Nat} (ha : a < 10) (hb : b < 10)
    (h : a.digitChar = b.digitChar) : a = b := by
  have hchars := congrArg Char.toNat h
  rw [Nat.toNat_digitChar_of_lt_ten ha, Nat.toNat_digitChar_of_lt_ten hb] at hchars
  omega

theorem toDigits_injective {m n : Nat} (h : Nat.toDigits 10 m = Nat.toDigits 10 n) : m = n :=
  calc
    m = Nat.ofDigitChars 10 (Nat.toDigits 10 m) 0 := Nat.ofDigitChars_ten_toDigits.symm
    _ = Nat.ofDigitChars 10 (Nat.toDigits 10 n) 0 := by rw [h]
    _ = n := Nat.ofDigitChars_ten_toDigits

namespace Text

theorem number_ne_empty (n : Nat) : toString n ≠ "" := by
  intro h
  have hdigits : Nat.toDigits 10 n = [] := by
    rw [Nat.toString_eq_ofList_toDigits] at h
    exact String.ofList_inj.1 h
  rw [Nat.toDigits_eq_if (by decide)] at hdigits
  split at hdigits <;> simp at hdigits

theorem number_injective {s : String} {m n : Nat} (h : s ++ toString m = s ++ toString n) :
    m = n := by
  have hchars := congrArg String.toList h
  simp only [String.toList_append, Nat.toString_eq_ofList_toDigits, String.toList_ofList] at hchars
  exact toDigits_injective (List.append_cancel_left hchars)

theorem append_number_ne (s : String) (n : Nat) : s ++ toString n ≠ s := by
  intro h
  refine number_ne_empty n (String.toList_inj.1 ?_)
  have hchars := congrArg String.toList h
  rw [String.toList_append] at hchars
  exact List.self_eq_append_right.1 hchars.symm

theorem number_append_digit {n d : Nat} (hn : 0 < n) (hd : d < 10) :
    toString (10 * n + d) = toString n ++ toString d := by
  simp only [Nat.toString_eq_ofList_toDigits, ← String.ofList_append]
  rw [Nat.toDigits_append_toDigits (by decide) hn hd]

theorem isDigit_of_mem_number {n : Nat} {c : Char} (h : c ∈ (toString n).toList) : c.isDigit := by
  rw [Nat.toString_eq_ofList_toDigits, String.toList_ofList] at h
  exact Nat.isDigit_of_mem_toDigits (by decide) (by decide) h

/-- The two readings of a text that ends in a number. -/
theorem eq_or_number_between {s t : String} {m n : Nat} (h : s ++ toString m = t ++ toString n) :
    (s = t ∧ m = n) ∨ (∃ k, 0 < k ∧ s = t ++ toString k) ∨
      ∃ k, 0 < k ∧ t = s ++ toString k := by
  -- the last digits are taken off one after the other until one of the numbers has no more
  induction m using Nat.strongRecOn generalizing n with
  | ind m ih =>
  have hchars := congrArg String.toList h
  simp only [String.toList_append, Nat.toString_eq_ofList_toDigits, String.toList_ofList] at hchars
  rw [Nat.toDigits_eq_if (by decide), Nat.toDigits_eq_if (n := n) (by decide)] at hchars
  have hread : ∀ (u v : String) (k : Nat), u.toList = v.toList ++ Nat.toDigits 10 k →
      u = v ++ toString k := by
    intro u v k huv
    rw [← String.toList_inj, huv, String.toList_append, Nat.toString_eq_ofList_toDigits,
      String.toList_ofList]
  split at hchars <;> split at hchars
  · have hst := List.append_inj_left' hchars rfl
    have hmn := List.singleton_inj.1 (List.append_inj_right' hchars rfl)
    exact .inl ⟨String.toList_inj.1 hst, digitChar_injective (by omega) (by omega) hmn⟩
  · rw [← List.append_assoc] at hchars
    exact .inr (.inl ⟨n / 10, by omega, hread s t _ (List.append_inj_left' hchars rfl)⟩)
  · rw [← List.append_assoc] at hchars
    exact .inr (.inr ⟨m / 10, by omega, hread t s _ (List.append_inj_left' hchars rfl).symm⟩)
  · rw [← List.append_assoc, ← List.append_assoc] at hchars
    have hmod := digitChar_injective (Nat.mod_lt m (by decide)) (Nat.mod_lt n (by decide))
      (List.singleton_inj.1 (List.append_inj_right' hchars rfl))
    have hheads := List.append_inj_left' hchars rfl
    have hshorter : s ++ toString (m / 10) = t ++ toString (n / 10) := by
      rw [← String.toList_inj]
      simpa [Nat.toString_eq_ofList_toDigits] using hheads
    rcases ih (m / 10) (by omega) hshorter with ⟨hst, hdiv⟩ | hlonger
    · exact .inl ⟨hst, by omega⟩
    · exact .inr hlonger

end Text

theorem Names.numbered_injective {wanted : String} {m n : Nat} (hm : 0 < m) (hn : 0 < n)
    (h : numbered wanted m = numbered wanted n) : m = n := by
  unfold numbered at h
  split at h <;> split at h
  · exact Text.number_injective h
  · exact absurd h (Text.append_number_ne wanted m)
  · exact absurd h.symm (Text.append_number_ne wanted n)
  · omega

/-- A name that is given for a wanted one: that itself, or that with a number. -/
inductive Names.Suffixed (wanted : String) : String → Prop where
  | plain : Suffixed wanted wanted
  | number (n : Nat) : Suffixed wanted (wanted ++ toString n)

namespace Names

theorem suffixed_allocate (wanted : String) (counts : Counts) :
    Suffixed wanted (allocate wanted counts).1 := by
  unfold allocate
  split
  · exact .number _
  · exact .plain

theorem suffixed_reserve (wanted : String) (counts : Counts) :
    Suffixed wanted (reserve wanted counts).1 := by
  simp only [reserve, numbered]
  split
  · exact .number _
  · exact .plain

theorem exists_suffixed_of_mem_giveAll {wanted : List String} {counts : Counts} {name : String}
    (h : name ∈ (giveAll reserve wanted counts).1) : ∃ w ∈ wanted, Suffixed w name := by
  induction wanted generalizing counts with
  | nil => simp at h
  | cons w rest ih =>
    rcases List.mem_cons.1 h with rfl | h
    · exact ⟨w, List.mem_cons_self, suffixed_reserve w counts⟩
    · obtain ⟨v, hv, hname⟩ := ih h
      exact ⟨v, List.mem_cons_of_mem _ hv, hname⟩

namespace Suffixed

variable {wanted name : String}

theorem head?_eq (h : Suffixed wanted name) (hne : wanted.toList ≠ []) :
    name.toList.head? = wanted.toList.head? := by
  cases h with
  | plain => rfl
  | number n =>
    rw [String.toList_append, List.head?_append, List.head?_eq_some_head hne]
    rfl

theorem isDigit_head? (h : Suffixed wanted name) (hempty : wanted.toList = []) :
    ∀ c ∈ name.toList.head?, c.isDigit := by
  cases h with
  | plain => simp [hempty]
  | number n =>
    intro c hc
    rw [String.toList_append, hempty, List.nil_append] at hc
    exact Text.isDigit_of_mem_number (List.mem_of_mem_head? hc)

theorem forall_mem {P : Char → Prop} (h : Suffixed wanted name) (hwanted : ∀ c ∈ wanted.toList, P c)
    (hdigit : ∀ c, c.isDigit → P c) : ∀ c ∈ name.toList, P c := by
  cases h with
  | plain => exact hwanted
  | number n =>
    rw [String.toList_append, List.forall_mem_append]
    exact ⟨hwanted, fun c hc ↦ hdigit c (Text.isDigit_of_mem_number hc)⟩

/-- A name that does not end in a digit has no number. -/
theorem eq_wanted (h : Suffixed wanted name)
    (hlast : ∀ c ∈ name.toList.getLast?, c.isDigit = false) : name = wanted := by
  cases h with
  | plain => rfl
  | number n =>
    have hne : (toString n).toList ≠ [] := fun hnil ↦
      Text.number_ne_empty n (String.toList_inj.1 hnil)
    have hdigit := Text.isDigit_of_mem_number (List.getLast_mem hne)
    have hsome : (wanted ++ toString n).toList.getLast? =
        some ((toString n).toList.getLast hne) := by
      rw [String.toList_append, List.getLast?_append, List.getLast?_eq_some_getLast hne]
      rfl
    rw [hlast _ hsome] at hdigit
    cases hdigit

end Suffixed

end Names

end ApiClient
