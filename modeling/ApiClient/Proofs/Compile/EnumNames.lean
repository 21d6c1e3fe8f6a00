import ApiClient.Proofs.Compile.Enums
import ApiClient.Proofs.Decimal.Layouts
import ApiClient.Proofs.Document.Ascii
import ApiClient.Proofs.TypeScript.Identifiers

/-!
# Names of enumerations and of their members

A member is named by an identifier made from its value or from a text given for it. The name of the
enumeration itself is put together from the pieces of a text, and nothing is put in front of it if
these begin with a digit. So it is legal exactly if the first character of the text that can be part
of a name is not a digit.
-/

namespace ApiClient

open TypeScript Json
open Text (isAscii)

theorem Json.Number.ascii_text (n : Number) : isAscii n.text := by
  have hmarks : ∀ c ∈ Decimal.marks, c.toNat < 0x80 := Text.isAscii_ofList.1 (by decide)
  refine Text.isAscii_iff.2 fun c hc ↦ ?_
  rcases n.isDigit_or_mark hc with hc | hc
  · exact Text.ascii_of_isAlphanum (Text.isAlphanum_of_isDigit hc)
  · exact hmarks c hc

/-! ## Members -/

theorem ascii_getD {t? : Option String} (h : ∀ t ∈ t?, isAscii t) {s : String} (hs : isAscii s) :
    isAscii (t?.getD s) := by
  cases t? with
  | none => exact hs
  | some t => exact h t rfl

theorem isIdentifier_of_enumMember {v : Value} (hv : v.isAscii) {custom : Option String}
    (hcustom : ∀ t ∈ custom, isAscii t) {member : EnumMember}
    (h : enumMember v custom = .ok member) : isIdentifier member.name := by
  cases v with
  | str s =>
    rw [Value.isAscii_str] at hv
    rw [enumMember, Except.ok.injEq] at h
    subst h
    dsimp only
    exact isIdentifier_toIdentifier (ascii_getD hcustom hv) true .base
  | num n =>
    rw [enumMember, Except.ok.injEq] at h
    subst h
    dsimp only
    exact isIdentifier_toIdentifier (ascii_getD hcustom n.ascii_text) true .base
  | _ => cases h

theorem isIdentifier_of_enumMembers {values : List Value} (hvalues : ∀ v ∈ values, v.isAscii)
    {names : Option (List String)} (hnames : ∀ ts ∈ names, ∀ t ∈ ts, isAscii t)
    {members : List EnumMember} (h : enumMembers values names = .ok members) :
    ∀ member ∈ members, isIdentifier member.name := by
  induction values generalizing names members with
  | nil =>
    cases h
    simp
  | cons v values ih =>
    obtain ⟨member, hmember, h⟩ := bind_eq_ok.1 h
    obtain ⟨others, hothers, h⟩ := bind_eq_ok.1 h
    cases h
    rw [List.forall_mem_cons] at hvalues ⊢
    refine ⟨isIdentifier_of_enumMember hvalues.1 ?_ hmember, ih hvalues.2 ?_ hothers⟩
    · intro t ht
      obtain ⟨ts, hts, ht⟩ := Option.bind_eq_some_iff.1 ht
      exact hnames ts hts t (List.mem_of_mem_head? ht)
    · intro ts hts
      obtain ⟨ts', hts', rfl⟩ := Option.map_eq_some_iff.1 hts
      exact fun t ht ↦ hnames ts' hts' t (List.mem_of_mem_tail ht)

/-! ## Proposed names -/

theorem ascii_of_isNameChar {c : Char} (h : isNameChar c) : c.toNat < 0x80 := by
  have hdollar : '$'.toNat < 0x80 := by decide
  have hline : '_'.toNat < 0x80 := by decide
  simp only [isNameChar, Bool.or_eq_true, beq_iff_eq] at h
  rcases h with (h | h) | h
  · exact Text.ascii_of_isAlphanum h
  · exact h ▸ hdollar
  · exact h ▸ hline

theorem continuesIdentifier_of_isNameChar {c : Char} (h : isNameChar c) :
    continuesIdentifier c := by
  have htable := Text.forall_ascii (p := fun c ↦ !isNameChar c || continuesIdentifier c) (by decide)
    (ascii_of_isNameChar h)
  simpa [h] using htable

/-- The characters of a text that can be part of a name. -/
def nameChars (s : String) : List Char :=
  s.toList.filter isNameChar

theorem isNameChar_of_mem_piece {base : String} {piece : List Char}
    (h : piece ∈ Text.splitWhere (fun c ↦ !isNameChar c) base.toList) :
    ∀ c ∈ piece, isNameChar c := by
  intro c hc
  simpa using (Text.mem_of_mem_splitWhere h c hc).2

theorem isNameChar_of_mem_upperFirst {piece : List Char} (h : ∀ c ∈ piece, isNameChar c) :
    ∀ c ∈ (Text.upperFirst (String.ofList piece)).toList, isNameChar c := by
  cases piece with
  | nil => simp [Text.upperFirst]
  | cons d cs =>
    rw [List.forall_mem_cons] at h
    have hcode := ascii_of_isNameChar h.1
    have htable := Text.forall_ascii (p := fun c ↦ !isNameChar c || isNameChar c.toUpper)
      (by decide) hcode
    have hupper : isNameChar d.toUpper := by simpa [h.1] using htable
    simpa [Text.upperFirst, Text.toUpper_eq hcode, hupper] using h.2

theorem isNameChar_of_mem_proposedName {base : String} :
    ∀ c ∈ (proposedName base).toList, isNameChar c := by
  intro c hc
  rw [proposedName, String.toList_join] at hc
  obtain ⟨name, hname, hc⟩ := List.mem_flatMap.1 hc
  obtain ⟨piece, hpiece, rfl⟩ := List.mem_map.1 hname
  exact isNameChar_of_mem_upperFirst (isNameChar_of_mem_piece hpiece) c hc

/-- A proposed name begins with the capital form of the first character of the text that can be part
of a name. -/
theorem head?_proposedName (base : String) :
    (proposedName base).toList.head? = (nameChars base).head?.map Char.toUpper := by
  have hpieces : ∀ piece ∈ Text.splitWhere (fun c ↦ !isNameChar c) base.toList,
      ∀ c ∈ piece, isNameChar c := fun _ ↦ isNameChar_of_mem_piece
  have hfilter :
      nameChars base = (Text.splitWhere (fun c ↦ !isNameChar c) base.toList).flatten := by
    rw [Text.flatten_splitWhere, nameChars]
    simp
  rw [hfilter, proposedName, String.toList_join]
  generalize Text.splitWhere (fun c ↦ !isNameChar c) base.toList = pieces at hpieces
  induction pieces with
  | nil => rfl
  | cons piece pieces ih =>
    rw [List.map_cons, List.flatMap_cons, List.flatten_cons]
    cases piece with
    | nil => exact ih fun piece hpiece ↦ hpieces piece (List.mem_cons_of_mem _ hpiece)
    | cons c cs =>
      have hcode := ascii_of_isNameChar (hpieces _ List.mem_cons_self c List.mem_cons_self)
      simp [Text.upperFirst, Text.toUpper_eq hcode]

/-- The name of an enumeration begins like the text that it is made from, or with a digit if no
character of the text can be part of a name. -/
theorem begins_of_proposed {base name : String} (h : Names.Suffixed (proposedName base) name) :
    (nameChars base).head? = none ∧ (∀ c ∈ name.toList.head?, c.isDigit) ∨
      ∃ c, isNameChar c ∧ (nameChars base).head? = some c ∧ name.toList.head? = some c.toUpper := by
  have hhead := head?_proposedName base
  cases hchars : (nameChars base).head? with
  | none =>
    rw [hchars, Option.map_none, List.head?_eq_none_iff] at hhead
    exact .inl ⟨rfl, h.isDigit_head? hhead⟩
  | some c =>
    rw [hchars, Option.map_some] at hhead
    have hne : (proposedName base).toList ≠ [] := fun hnil ↦ by simp [hnil] at hhead
    have hc : isNameChar c := (List.mem_filter.1 (List.mem_of_mem_head? hchars)).2
    exact .inr ⟨c, hc, rfl, (h.head?_eq hne).trans hhead⟩

theorem not_isLower_toUpper {c : Char} (hc : c.toNat < 0x80) : c.toUpper.isLower = false := by
  have htable := Text.forall_ascii (p := fun c ↦ !c.toUpper.isLower) (by decide) hc
  exact (Bool.not_eq_true' _).mp htable

/-- The name of an enumeration does not begin with a small letter. -/
theorem not_isLower_of_proposed {base name : String} (h : Names.Suffixed (proposedName base) name) :
    ∀ c ∈ name.toList.head?, c.isLower = false := by
  rcases begins_of_proposed h with ⟨-, hdigit⟩ | ⟨c, hc, -, hname⟩
  · exact fun c hc ↦ Text.not_isLower_of_isDigit (hdigit c hc)
  · rw [hname]
    rintro _ ⟨⟩
    exact not_isLower_toUpper (ascii_of_isNameChar hc)

/-- An enumeration is named legally exactly if the first character of the text that can be part of a
name is not a digit. -/
theorem isIdentifier_iff_of_proposed {base name : String}
    (h : Names.Suffixed (proposedName base) name) :
    isIdentifier name ↔ ∃ c ∈ (nameChars base).head?, c.isDigit = false := by
  rcases begins_of_proposed h with ⟨hchars, hdigit⟩ | ⟨c, hc, hchars, hname⟩
  · rw [hchars]
    refine iff_of_false (fun hname ↦ ?_) (by simp)
    obtain ⟨⟨c, hc, hstarts⟩, -⟩ := isIdentifier_iff.1 hname
    have hdigit := hdigit c hc
    have htable := Text.forall_ascii (p := fun c ↦ !c.isDigit || !startsIdentifier c) (by decide)
      (Text.ascii_of_isAlphanum (Text.isAlphanum_of_isDigit hdigit))
    simp [hdigit, hstarts] at htable
  · have hcode := ascii_of_isNameChar hc
    have htable := Text.forall_ascii
      (p := fun c ↦ !isNameChar c || startsIdentifier c.toUpper == !c.isDigit) (by decide) hcode
    have hstarts : startsIdentifier c.toUpper = !c.isDigit := by simpa [hc] using htable
    have hcontinues := h.forall_mem (fun d hd ↦ continuesIdentifier_of_isNameChar
      (isNameChar_of_mem_proposedName d hd))
      fun d hd ↦ continuesIdentifier_of_isAlphanum (Text.isAlphanum_of_isDigit hd)
    have hreserved := not_reserved (List.mem_of_mem_head? hname) (not_isLower_toUpper hcode)
    rw [isIdentifier_iff, and_iff_left ⟨hcontinues, hreserved⟩, hname, hchars]
    simp [hstarts]

end ApiClient
