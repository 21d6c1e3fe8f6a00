import ApiClient.Proofs.Decimal.Layouts
import ApiClient.Proofs.Decimal.ReadsBack
import ApiClient.Tree.CoreSchema

/-!
# Reading numerals

However the digits of a number are set out, they are read as a decimal of the same value. As the
shortest decimal of a double rounds to it, the text of a number is read as that number, and a text
of digits alone is an integer.
-/

namespace ApiClient

theorem Text.takeWhile_append {p : Char → Bool} {cs rest : List Char} (hcs : ∀ c ∈ cs, p c)
    (hrest : ∀ c ∈ rest.head?, p c = false) :
    (cs ++ rest).takeWhile p = cs ∧ (cs ++ rest).dropWhile p = rest := by
  rw [List.takeWhile_append_of_pos hcs, List.dropWhile_append_of_pos hcs]
  cases rest with
  | nil => simp
  | cons c rest => simp [hrest c rfl]

namespace CoreSchema

open Decimal (isDigit_of_mem_toDigits)

variable {cs : List Char}

theorem digit?_eq {c : Char} (hc : c.isDigit) : digit? c = some (c.toNat - '0'.toNat) ∧
    c.toNat - '0'.toNat < 10 := by
  have hbounds : 48 ≤ c.toNat ∧ c.toNat ≤ 57 := by
    simpa [Char.isDigit, ← Char.toNat_val, UInt32.le_iff_toNat_le] using hc
  refine ⟨if_pos hc, ?_⟩
  have hzero : '0'.toNat = 48 := rfl
  omega

theorem digitsFrom_eq (hcs : ∀ c ∈ cs, c.isDigit) (n : Nat) :
    digitsFrom 10 n cs = some (Nat.ofDigitChars 10 cs n) := by
  induction cs generalizing n with
  | nil => rfl
  | cons c cs ih =>
    obtain ⟨hdigit, hlt⟩ := digit?_eq (hcs c List.mem_cons_self)
    rw [digitsFrom, hdigit]
    dsimp only
    rw [if_pos hlt, ih (fun d hd ↦ hcs d (List.mem_cons_of_mem c hd)), Nat.ofDigitChars_cons,
      Nat.mul_comm n]

theorem nat?_eq (hne : cs ≠ []) (hcs : ∀ c ∈ cs, c.isDigit) :
    nat? 10 cs = some (Nat.ofDigitChars 10 cs 0) := by
  rw [nat?.eq_2 _ _ hne, digitsFrom_eq hcs]

/-- No digit comes first. -/
def NoDigitFirst (cs : List Char) : Prop :=
  ∀ c ∈ cs.head?, c.isDigit = false

variable {whole places : List Char} {e : Int}

theorem unsignedReal?_point (negative : Bool) (hwhole : ∀ c ∈ whole, c.isDigit) (hne : whole ≠ [])
    (hplaces : ∀ c ∈ places, c.isDigit) (htail : NoDigitFirst cs) (he : exponent? cs = some e) :
    unsignedReal? negative (whole ++ '.' :: (places ++ cs)) =
      Binary64.ofDecimal negative (Nat.ofDigitChars 10 (whole ++ places) 0)
        (e - places.length) := by
  have hpoint : NoDigitFirst ('.' :: (places ++ cs)) := fun _ h ↦ Option.some_inj.1 h ▸ rfl
  obtain ⟨htake, hdrop⟩ := Text.takeWhile_append hwhole hpoint
  obtain ⟨htake', hdrop'⟩ := Text.takeWhile_append hplaces htail
  have hdigits : ∀ c ∈ whole ++ places, c.isDigit := List.forall_mem_append.2 ⟨hwhole, hplaces⟩
  have hnat := nat?_eq (List.append_ne_nil_of_left_ne_nil hne places) hdigits
  unfold unsignedReal?
  simp only [htake, hdrop, htake', hdrop', hnat, he]

theorem unsignedReal?_whole (negative : Bool) (hwhole : ∀ c ∈ whole, c.isDigit)
    (hne : whole ≠ []) (htail : NoDigitFirst cs) (hpoint : cs.head? ≠ some '.')
    (he : exponent? cs = some e) :
    unsignedReal? negative (whole ++ cs) =
      Binary64.ofDecimal negative (Nat.ofDigitChars 10 whole 0) e := by
  obtain ⟨htake, hdrop⟩ := Text.takeWhile_append hwhole htail
  have hnat := nat?_eq hne hwhole
  unfold unsignedReal?
  simp only [htake, hdrop]
  cases cs with
  | nil => simp [hnat, he]
  | cons c cs =>
    have hc : c ≠ '.' := fun heq ↦ hpoint (congrArg some heq)
    simp [hnat, he, hc]

theorem exponent?_digits (plus : Bool) (lead : Int) :
    exponent? ('e' :: ((if lead < 0 then ['-'] else if plus then ['+'] else []) ++
      Nat.toDigits 10 lead.natAbs)) = some lead := by
  have hne : Nat.toDigits 10 lead.natAbs ≠ [] := List.ne_nil_of_length_pos Nat.length_toDigits_pos
  have hdigits : ∀ c ∈ Nat.toDigits 10 lead.natAbs, c.isDigit := fun c ↦ isDigit_of_mem_toDigits
  have hnat := nat?_eq hne hdigits
  rw [Nat.ofDigitChars_ten_toDigits] at hnat
  have hletter : 'e' = 'e' ∨ 'e' = 'E' := .inl rfl
  by_cases hneg : lead < 0
  · have habs : -(lead.natAbs : Int) = lead := by omega
    rw [if_pos hneg, List.singleton_append, exponent?, if_pos hletter]
    simp only [hnat]
    exact congrArg some habs
  · have habs : (lead.natAbs : Int) = lead := by omega
    rw [if_neg hneg]
    cases plus with
    | true =>
      rw [if_pos rfl, List.singleton_append, exponent?, if_pos hletter]
      simp only [hnat]
      exact congrArg some habs
    | false =>
      have hno : ¬(false = true) := Bool.false_ne_true
      rw [if_neg hno, List.nil_append, exponent?, if_pos hletter]
      · rw [hnat]
        exact congrArg some habs
      · intro cs heq
        exact absurd (hdigits '-' (heq ▸ List.mem_cons_self)) (by decide)
      · intro cs heq
        exact absurd (hdigits '+' (heq ▸ List.mem_cons_self)) (by decide)

end CoreSchema

namespace Decimal

open CoreSchema (unsignedReal? unsignedReal?_point unsignedReal?_whole NoDigitFirst)

/-- A text without a sign is read as a decimal of this value. -/
def Writes (cs : List Char) (v : ℚ) : Prop :=
  ∀ negative, ∃ (digits : Nat) (e : Int),
    unsignedReal? negative cs = Binary64.ofDecimal negative digits e ∧ digits * 10 ^ e = v

section

variable {digits whole places : List Char} {lead : Int}

theorem noDigitFirst_nil : NoDigitFirst [] := by
  intro c hc
  cases hc

theorem isDigit_of_mem_zeros (k : Nat) : ∀ c ∈ List.replicate k '0', c.isDigit := fun _ hc ↦
  List.eq_of_mem_replicate hc ▸ rfl

theorem writes_places (hwhole : ∀ c ∈ whole, c.isDigit) (hne : whole ≠ [])
    (hplaces : ∀ c ∈ places, c.isDigit) : Writes (whole ++ '.' :: places)
      (Nat.ofDigitChars 10 (whole ++ places) 0 * 10 ^ (-(places.length : Int))) := by
  intro negative
  have hread := unsignedReal?_point negative hwhole hne hplaces noDigitFirst_nil rfl
  rw [List.append_nil, zero_sub] at hread
  exact ⟨_, _, hread, rfl⟩

theorem writes_below_one (hdigits : ∀ c ∈ digits, c.isDigit) (hlead : lead < 0) :
    Writes ('0' :: '.' :: (List.replicate (-lead - 1).toNat '0' ++ digits))
      (Nat.ofDigitChars 10 digits 0 * 10 ^ (lead + 1 - digits.length)) := by
  have hplaces := List.forall_mem_append.2 ⟨isDigit_of_mem_zeros (-lead - 1).toNat, hdigits⟩
  have hzero : ∀ c ∈ ['0'], c.isDigit := isDigit_of_mem_zeros 1
  have hwrites := writes_places hzero (List.cons_ne_nil _ _) hplaces
  have hvalue : Nat.ofDigitChars 10 (['0'] ++ (List.replicate (-lead - 1).toNat '0' ++ digits)) 0 =
      Nat.ofDigitChars 10 digits 0 := by
    rw [Nat.ofDigitChars_append, Nat.ofDigitChars_append, Nat.ofDigitChars_cons,
      Nat.ofDigitChars_nil, Nat.ofDigitChars_replicate_zero]
    rfl
  have hexponent : -((List.replicate (-lead - 1).toNat '0' ++ digits).length : Int) =
      lead + 1 - digits.length := by
    rw [List.length_append, List.length_replicate]
    omega
  rwa [hvalue, hexponent] at hwrites

theorem writes_whole (point : Bool) (hdigits : ∀ c ∈ digits, c.isDigit) (hne : digits ≠ [])
    (k : Nat) :
    Writes (if point then digits ++ List.replicate k '0' ++ ['.', '0']
      else digits ++ List.replicate k '0') (Nat.ofDigitChars 10 digits 0 * 10 ^ (k : Int)) := by
  have hpadded := List.forall_mem_append.2 ⟨hdigits, isDigit_of_mem_zeros k⟩
  have hne' := List.append_ne_nil_of_left_ne_nil hne (List.replicate k '0')
  have hvalue : Nat.ofDigitChars 10 (digits ++ List.replicate k '0') 0 =
      10 ^ k * Nat.ofDigitChars 10 digits 0 := by
    rw [Nat.ofDigitChars_append, Nat.ofDigitChars_replicate_zero]
  cases point with
  | true =>
    have hzero : ∀ c ∈ ['0'], c.isDigit := isDigit_of_mem_zeros 1
    have hwrites := writes_places hpadded hne' hzero
    rw [Nat.ofDigitChars_append, hvalue, Nat.ofDigitChars_cons, Nat.ofDigitChars_nil] at hwrites
    have hscaled : (Nat.ofDigitChars 10 digits 0 * 10 ^ (k : Int) : ℚ) =
        (10 * (10 ^ k * Nat.ofDigitChars 10 digits 0) + ('0'.toNat - '0'.toNat) : Nat) *
          10 ^ (-(['0'].length : Int)) := by
      rw [Nat.sub_self, List.length_singleton, Nat.cast_one, zpow_neg, zpow_one, zpow_natCast]
      push_cast
      ring
    rw [if_pos rfl, hscaled]
    exact hwrites
  | false =>
    intro negative
    have hread := unsignedReal?_whole negative hpadded hne' noDigitFirst_nil (by simp) rfl
    rw [List.append_nil] at hread
    refine ⟨_, _, hread, ?_⟩
    rw [hvalue, zpow_zero, zpow_natCast]
    push_cast
    ring

/-- Digits with a point behind the first. -/
def pointed : List Char → List Char
  | d :: e :: places => d :: '.' :: e :: places
  | ds => ds

theorem writes_exponent (plus : Bool) (hdigits : ∀ c ∈ digits, c.isDigit) (hne : digits ≠ []) :
    Writes (pointed digits ++ 'e' :: ((if lead < 0 then ['-'] else if plus then ['+'] else []) ++
        Nat.toDigits 10 lead.natAbs))
      (Nat.ofDigitChars 10 digits 0 * 10 ^ (lead + 1 - digits.length)) := by
  intro negative
  have hexponent := CoreSchema.exponent?_digits plus lead
  have hletter : NoDigitFirst ('e' :: ((if lead < 0 then ['-'] else if plus then ['+'] else []) ++
      Nat.toDigits 10 lead.natAbs)) := fun _ h ↦ Option.some_inj.1 h ▸ rfl
  match digits, hdigits with
  | [], _ => exact absurd rfl hne
  | [d], hdigits =>
    have hread := unsignedReal?_whole negative hdigits hne hletter (by simp) hexponent
    refine ⟨_, _, hread, ?_⟩
    rw [List.length_singleton, Nat.cast_one, add_sub_cancel_right]
  | d :: e :: places, hdigits =>
    obtain ⟨hd, hplaces⟩ := List.forall_mem_cons.1 hdigits
    have hwhole : ∀ c ∈ [d], c.isDigit := fun c hc ↦ List.mem_singleton.1 hc ▸ hd
    refine ⟨_, _, unsignedReal?_point negative hwhole (by simp) hplaces hletter hexponent, ?_⟩
    have hlead : lead + 1 - (d :: e :: places).length = lead - (e :: places).length := by
      simp only [List.length_cons]
      omega
    rw [hlead, List.singleton_append]

/-- However digits are set out, they are read as the value that they are set out for. -/
theorem Layout.writes_set (layout : Layout) (hdigits : ∀ c ∈ digits, c.isDigit) (hne : digits ≠ [])
    (lead : Int) : Writes (layout.set digits lead)
      (Nat.ofDigitChars 10 digits 0 * 10 ^ (lead + 1 - digits.length)) := by
  have hlength : 0 < digits.length := List.length_pos_iff.2 hne
  unfold set
  split
  next =>
    split
    next hneg => exact writes_below_one hdigits hneg
    next hneg =>
      dsimp only
      have htake : ∀ c ∈ digits.take (lead.toNat + 1), c.isDigit := fun c hc ↦
        hdigits c (List.mem_of_mem_take hc)
      split
      next hdrop =>
        have hle := List.drop_eq_nil_iff.1 hdrop
        have hpadding : lead + 1 - digits.length =
            ((lead.toNat + 1 - digits.length : Nat) : Int) := by omega
        rw [List.take_of_length_le hle, hpadding]
        exact writes_whole layout.point hdigits hne _
      next hdrop =>
        have hlong : lead.toNat + 1 < digits.length := by
          by_contra hshort
          exact hdrop (List.drop_eq_nil_of_le (not_lt.1 hshort))
        have hwhole : (digits.take (lead.toNat + 1)).length = lead.toNat + 1 :=
          List.length_take_of_le hlong.le
        have hne' : digits.take (lead.toNat + 1) ≠ [] := by
          rw [← List.length_pos_iff, hwhole]
          exact Nat.succ_pos _
        have hplaces : ∀ c ∈ digits.drop (lead.toNat + 1), c.isDigit := fun c hc ↦
          hdigits c (List.mem_of_mem_drop hc)
        have hexponent : -((digits.drop (lead.toNat + 1)).length : Int) =
            lead + 1 - digits.length := by
          rw [List.length_drop]
          omega
        have hwrites := writes_places htake hne' hplaces
        rw [List.take_append_drop, hexponent] at hwrites
        rwa [hwhole, Nat.sub_self, List.replicate_zero, List.append_nil]
  next => exact writes_exponent layout.plus hdigits hne

theorem exists_zeros (digits : List Char) :
    ∃ t, digits = (digits.reverse.dropWhile (· == '0')).reverse ++ List.replicate t '0' := by
  have hsplit : digits.reverse.takeWhile (· == '0') ++ digits.reverse.dropWhile (· == '0') =
      digits.reverse := List.takeWhile_append_dropWhile
  have hzeros : digits.reverse.takeWhile (· == '0') =
      List.replicate (digits.reverse.takeWhile (· == '0')).length '0' :=
    List.eq_replicate_iff.2 ⟨rfl, fun c hc ↦ by simpa using List.mem_takeWhile_imp hc⟩
  refine ⟨(digits.reverse.takeWhile (· == '0')).length, ?_⟩
  rw [hzeros] at hsplit
  rw [← List.reverse_replicate, ← List.reverse_append, hsplit, List.reverse_reverse]

theorem exists_stripZeros {digits : List Char} (hpos : 0 < Nat.ofDigitChars 10 digits 0) :
    stripZeros digits ≠ [] ∧ ∃ t, digits = stripZeros digits ++ List.replicate t '0' := by
  obtain ⟨t, ht⟩ := exists_zeros digits
  unfold stripZeros
  split
  next hnil =>
    rw [hnil, List.nil_append] at ht
    rw [ht, Nat.ofDigitChars_replicate_zero] at hpos
    exact absurd hpos (Nat.lt_irrefl 0)
  next hne => exact ⟨hne, t, ht⟩

end

variable {x : Binary64}

/-- The text of a double without its sign. -/
def Layout.unsigned (layout : Layout) (x : Binary64) : List Char :=
  if x.significand = 0 then layout.set ['0'] 0
  else
    let digits := Nat.toDigits 10 (shortest x).digits
    layout.set (stripZeros digits) ((shortest x).exponent + digits.length - 1)

theorem Layout.text_eq (layout : Layout) (x : Binary64) :
    layout.text x = (if x.negative then ['-'] else []) ++ layout.unsigned x := by
  unfold text unsigned
  dsimp only
  split_ifs <;> rfl

theorem Layout.writes_unsigned (layout : Layout) (hx : x.IsDouble) (hpos : 0 < x.significand) :
    Writes (layout.unsigned x) ((shortest x).digits * 10 ^ (shortest x).exponent) := by
  have hdigits := (rounds_shortest hx hpos).digits_pos hx hpos
  unfold unsigned
  rw [if_neg hpos.ne']
  generalize shortest x = short at hdigits ⊢
  have hvalue : Nat.ofDigitChars 10 (Nat.toDigits 10 short.digits) 0 = short.digits :=
    Nat.ofDigitChars_ten_toDigits
  have hall : ∀ c ∈ Nat.toDigits 10 short.digits, c.isDigit := fun _ ↦ isDigit_of_mem_toDigits
  dsimp only
  generalize Nat.toDigits 10 short.digits = digits at hvalue hall ⊢
  rw [← hvalue] at hdigits
  obtain ⟨hne, t, ht⟩ := exists_stripZeros hdigits
  rw [← hvalue]
  generalize stripZeros digits = ds at hne ht ⊢
  subst ht
  -- The zeros that are left out at the end are powers of ten, so the place of the first digit, on
  -- which the layout depends, stays the same.
  have hds : ∀ c ∈ ds, c.isDigit := (List.forall_mem_append.1 hall).1
  have hwrites := layout.writes_set hds hne
    (short.exponent + (ds ++ List.replicate t '0').length - 1)
  have hexponent : short.exponent + (ds ++ List.replicate t '0').length - 1 + 1 - ds.length =
      t + short.exponent := by
    rw [List.length_append, List.length_replicate]
    omega
  rw [hexponent, zpow_add₀ (by norm_num), zpow_natCast, ← mul_assoc] at hwrites
  rw [Nat.ofDigitChars_append, Nat.ofDigitChars_replicate_zero, mul_comm (10 ^ t)]
  exact_mod_cast hwrites

theorem Layout.unsignedReal?_unsigned (layout : Layout) (hx : x.IsDouble) :
    unsignedReal? x.negative (layout.unsigned x) = some x := by
  rcases x.significand.eq_zero_or_pos with hzero | hpos
  · have hzeros : ∀ c ∈ ['0'], c.isDigit := isDigit_of_mem_zeros 1
    have hwrites := layout.writes_set hzeros (List.cons_ne_nil _ _) 0
    obtain ⟨digits, e, hread, hvalue⟩ := hwrites x.negative
    have hdigits : digits = 0 := by
      have hnil : Nat.ofDigitChars 10 ['0'] 0 = 0 := rfl
      rw [hnil, Nat.cast_zero, zero_mul] at hvalue
      exact_mod_cast (mul_eq_zero.1 hvalue).resolve_right (by positivity)
    have hexponent : x.exponent = Binary64.minExponent :=
      hx.full_or_least.resolve_left (by omega)
    rw [unsigned, if_pos hzero, hread, hdigits, Binary64.ofDecimal, if_pos rfl, ← hzero,
      ← hexponent]
  · obtain ⟨digits, e, hread, hvalue⟩ := layout.writes_unsigned hx hpos x.negative
    have hrounds := rounds_shortest hx hpos
    rw [← hvalue] at hrounds
    rw [hread, Binary64.ofDecimal_eq hx hpos hrounds]

/-- However digits are set out, a digit comes first. -/
theorem Layout.exists_digit_set (layout : Layout) {digits : List Char}
    (hdigits : ∀ c ∈ digits, c.isDigit) (hne : digits ≠ []) (lead : Int) :
    ∃ c cs, layout.set digits lead = c :: cs ∧ c.isDigit := by
  obtain ⟨d, rest, rfl⟩ := List.exists_cons_of_ne_nil hne
  have hd := hdigits d List.mem_cons_self
  unfold set
  split
  · split
    · exact ⟨'0', _, rfl, rfl⟩
    · dsimp only
      rw [List.take_succ_cons]
      split
      · split
        · exact ⟨d, _, rfl, hd⟩
        · exact ⟨d, _, rfl, hd⟩
      · exact ⟨d, _, rfl, hd⟩
  · cases rest with
    | nil => exact ⟨d, _, rfl, hd⟩
    | cons e places => exact ⟨d, _, rfl, hd⟩

theorem Layout.exists_digit_unsigned (layout : Layout) (x : Binary64) :
    ∃ c cs, layout.unsigned x = c :: cs ∧ c.isDigit := by
  unfold unsigned
  split
  · exact layout.exists_digit_set (isDigit_of_mem_zeros 1) (List.cons_ne_nil _ _) 0
  · refine layout.exists_digit_set (fun c hc ↦ ?_) ?_ _
    · rcases mem_of_mem_stripZeros hc with hc | rfl
      · exact isDigit_of_mem_toDigits hc
      · rfl
    · unfold stripZeros
      split
      next => exact List.cons_ne_nil _ _
      next hne => exact hne

end Decimal

/-! ## Numbers -/

namespace Json

open CoreSchema (nat? nat?_eq unsignedReal?)
open Decimal (isDigit_of_mem_toDigits)

/-- Reads a number without its sign. Only digits are an integer. -/
def readUnsigned (negative : Bool) (cs : List Char) : Option Number :=
  if cs.all Char.isDigit then (nat? 10 cs).map fun n ↦ .int (if negative then -n else n)
  else (unsignedReal? negative cs).map .real

def readNumber (cs : List Char) : Option Number :=
  match cs with
  | '-' :: rest => readUnsigned true rest
  | rest => readUnsigned false rest

/-- A double that a number holds is one. -/
def Number.IsValid : Number → Prop
  | .int _ => True
  | .real x => x.IsDouble

theorem readUnsigned_toDigits (negative : Bool) (n : Nat) :
    readUnsigned negative (Nat.toDigits 10 n) = some (.int (if negative then -n else n)) := by
  have hdigits : ∀ c ∈ Nat.toDigits 10 n, c.isDigit := fun _ ↦ isDigit_of_mem_toDigits
  have hne : Nat.toDigits 10 n ≠ [] := List.ne_nil_of_length_pos Nat.length_toDigits_pos
  rw [readUnsigned, if_pos (List.all_eq_true.2 hdigits), nat?_eq hne hdigits,
    Nat.ofDigitChars_ten_toDigits]
  rfl

/-- The text of a double has a point or an exponent. -/
theorem exists_not_isDigit (digits : List Char) (lead : Int) :
    ∃ c ∈ realLayout.set digits lead, c.isDigit = false := by
  have hpoint : realLayout.point = true := rfl
  unfold Decimal.Layout.set
  rw [hpoint]
  split
  · split
    · exact ⟨'.', by simp, rfl⟩
    · dsimp only
      split
      · exact ⟨'.', by simp, rfl⟩
      · exact ⟨'.', by simp, rfl⟩
  · exact ⟨'e', by simp, rfl⟩

theorem readUnsigned_real {x : Binary64} (hx : x.IsDouble) :
    readUnsigned x.negative (realLayout.unsigned x) = some (.real x) := by
  have hnot : ¬(realLayout.unsigned x).all Char.isDigit := by
    obtain ⟨c, hc, hdigit⟩ : ∃ c ∈ realLayout.unsigned x, c.isDigit = false := by
      unfold Decimal.Layout.unsigned
      split
      · exact exists_not_isDigit _ _
      · exact exists_not_isDigit _ _
    intro hall
    rw [List.all_eq_true.1 hall c hc] at hdigit
    cases hdigit
  rw [readUnsigned, if_neg hnot, Decimal.Layout.unsignedReal?_unsigned _ hx]
  rfl

theorem readUnsigned_minus (negative : Bool) (rest : List Char) :
    readUnsigned negative ('-' :: rest) = none := by
  have hminus : '-'.isDigit = false := rfl
  have hreal : unsignedReal? negative ('-' :: rest) = none := by
    simp [unsignedReal?, nat?, hminus]
  rw [readUnsigned, List.all_cons, hminus, Bool.false_and, if_neg Bool.false_ne_true, hreal]
  rfl

theorem readNumber_of_readUnsigned {cs : List Char} {n : Number}
    (h : readUnsigned false cs = some n) : readNumber cs = some n := by
  unfold readNumber
  split
  next =>
    rw [readUnsigned_minus] at h
    cases h
  next => exact h

theorem exists_digit_toDigits (n : Nat) : ∃ c cs, Nat.toDigits 10 n = c :: cs ∧ c.isDigit := by
  have hne : Nat.toDigits 10 n ≠ [] := List.ne_nil_of_length_pos Nat.length_toDigits_pos
  obtain ⟨c, cs, hcs⟩ := List.exists_cons_of_ne_nil hne
  exact ⟨c, cs, hcs, isDigit_of_mem_toDigits (hcs ▸ List.mem_cons_self)⟩

/-- The text of a number is its sign, if it has one, and an unsigned number, which begins with a
digit. -/
theorem Number.exists_unsigned {n : Number} (h : n.IsValid) :
    ∃ (negative : Bool) (c : Char) (cs : List Char), c.isDigit ∧
      n.text.toList = (if negative then ['-'] else []) ++ c :: cs ∧
        readUnsigned negative (c :: cs) = some n := by
  cases n with
  | int n =>
    cases n with
    | ofNat n =>
      obtain ⟨c, cs, hcs, hc⟩ := exists_digit_toDigits n
      refine ⟨false, c, cs, hc, ?_, hcs ▸ readUnsigned_toDigits false n⟩
      rw [← hcs, Number.text]
      change (toString n).toList = _
      rw [Nat.toString_eq_ofList_toDigits, String.toList_ofList]
      rfl
    | negSucc n =>
      obtain ⟨c, cs, hcs, hc⟩ := exists_digit_toDigits (n + 1)
      refine ⟨true, c, cs, hc, ?_, hcs ▸ readUnsigned_toDigits true (n + 1)⟩
      rw [← hcs, Number.text]
      change ("-" ++ toString (n + 1)).toList = _
      rw [String.toList_append, Nat.toString_eq_ofList_toDigits]
      exact congrArg ('-' :: ·) String.toList_ofList
  | real x =>
    obtain ⟨c, cs, hcs, hc⟩ := realLayout.exists_digit_unsigned x
    refine ⟨x.negative, c, cs, hc, ?_, hcs ▸ readUnsigned_real h⟩
    rw [Number.text, String.toList_ofList, Decimal.Layout.text_eq, hcs]

/-- The text of a number is read as that number. -/
theorem readNumber_text {n : Number} (h : n.IsValid) : readNumber n.text.toList = some n := by
  obtain ⟨negative, c, cs, -, htext, hread⟩ := Number.exists_unsigned h
  rw [htext]
  cases negative with
  | true => exact hread
  | false => exact readNumber_of_readUnsigned hread

end Json

end ApiClient
