import ApiClient.Proofs.Document.Escapes

/-!
# Percent escapes as bytes

A percent escape stands for a byte, so what a segment stands for is said about its bytes: each
percent sign with two hexadecimal digits behind it is replaced, from left to right, and every other
byte stays. The bytes are read as text afterwards. A segment is decoded in this way but for one
thing: the two characters are read as a number, and a number may begin with a plus sign.
-/

namespace ApiClient

namespace Text.Utf8

/-- A character is one byte below 128, or several from 128 on. -/
theorem encodeChar_cases (c : Char) : (c.toNat < 0x80 ∧ encodeChar c = [c.toNat]) ∨
    (0x80 ≤ c.toNat ∧ ∃ a b rest, encodeChar c = a :: b :: rest ∧
      ∀ x ∈ a :: b :: rest, 0x80 ≤ x) := by
  unfold encodeChar
  dsimp only
  split
  next h => exact .inl ⟨h, rfl⟩
  next h =>
    refine .inr ⟨by omega, ?_⟩
    split
    · exact ⟨_, _, _, rfl, by simp; omega⟩
    split
    · exact ⟨_, _, _, rfl, by simp; omega⟩
    · exact ⟨_, _, _, rfl, by simp; omega⟩

theorem encode_cons (c : Char) (cs : List Char) :
    encode (c :: cs) = encodeChar c ++ encode cs :=
  List.flatMap_cons

/-- A byte below 128 is a character. -/
theorem exists_char_of_encode {cs : List Char} {b : Nat} {rest : List Nat}
    (h : encode cs = b :: rest) (hb : b < 0x80) :
    ∃ c cs', cs = c :: cs' ∧ c.toNat = b ∧ encode cs' = rest := by
  cases cs with
  | nil => cases h
  | cons c cs =>
    rw [encode_cons] at h
    rcases encodeChar_cases c with ⟨-, hc⟩ | ⟨-, x, y, more, hc, hlarge⟩
    · rw [hc, List.singleton_append] at h
      obtain ⟨hb, hrest⟩ := List.cons.inj h
      exact ⟨c, cs, rfl, hb, hrest⟩
    · rw [hc] at h
      have hle := hlarge x List.mem_cons_self
      have hx := (List.cons.inj h).1
      omega

/-- What a byte adds to the text does not depend on the bytes after it. -/
theorem exists_decodeFrom_cons (p : Option Pending) (b : Nat) : ∃ read q, Continues q ∧
    ∀ bytes, decodeFrom p (b :: bytes) = read ++ decodeFrom q bytes := by
  cases p with
  | none => exact ⟨_, _, continues_start b, fun bytes ↦ by rw [decodeFrom]⟩
  | some p => exact ⟨_, _, continues_extend p b, fun bytes ↦ by rw [decodeFrom]⟩

end Text.Utf8

open Text.Utf8 (encode encodeChar decodeFrom Pending Continues)

namespace Pointer

/-- The value of a byte that is a hexadecimal digit. -/
def hexDigit? (b : Nat) : Option Nat :=
  if 0x30 ≤ b ∧ b ≤ 0x39 then some (b - 0x30)
  else if 0x41 ≤ b ∧ b ≤ 0x46 then some (b - 0x37)
  else if 0x61 ≤ b ∧ b ≤ 0x66 then some (b - 0x57)
  else none

/-- The byte that two hexadecimal digits stand for. -/
def hexByte? (a b : Nat) : Option Nat :=
  (hexDigit? a).bind fun high ↦ (hexDigit? b).map fun low ↦ 16 * high + low

/-- The same, where a plus sign may take the place of the first digit. -/
def signedByte? (a b : Nat) : Option Nat :=
  if a = 0x2B then hexDigit? b else hexByte? a b

/-- Replaces, from left to right, each percent sign with two bytes behind it that stand for a byte.
All other bytes stay. -/
def replaceEscapes (byte? : Nat → Nat → Option Nat) : List Nat → List Nat
  | 0x25 :: a :: b :: rest =>
    match byte? a b with
    | some byte => byte :: replaceEscapes byte? rest
    | none => 0x25 :: replaceEscapes byte? (a :: b :: rest)
  | b :: rest => b :: replaceEscapes byte? rest
  | [] => []

/-! ## Digits -/

theorem lt_of_hexDigit? {b n : Nat} (h : hexDigit? b = some n) : b < 0x80 ∧ b ≠ 0x25 ∧ n < 16 := by
  unfold hexDigit? at h
  grind

theorem nat?_eq_hexDigit? (c : Char) : CoreSchema.nat? 16 [c] = hexDigit? c.toNat := by
  have hdigit : c.isDigit ↔ 0x30 ≤ c.toNat ∧ c.toNat ≤ 0x39 := Char.isDigit_iff_toNat
  have hsmall : 'a' ≤ c ∧ c ≤ 'f' ↔ 0x61 ≤ c.toNat ∧ c.toNat ≤ 0x66 := Iff.rfl
  have hcapital : 'A' ≤ c ∧ c ≤ 'F' ↔ 0x41 ≤ c.toNat ∧ c.toNat ≤ 0x46 := Iff.rfl
  unfold CoreSchema.nat? CoreSchema.digitsFrom CoreSchema.digit? hexDigit?
  simp only [CoreSchema.digitsFrom, hdigit, hsmall, hcapital]
  grind

theorem escapedByte?_eq (a b : Char) : escapedByte? a b = signedByte? a.toNat b.toNat := by
  have hplus : a = '+' ↔ a.toNat = 0x2B := ⟨fun h ↦ by rw [h]; rfl, fun h ↦ Char.toNat_inj.1 h⟩
  unfold escapedByte? signedByte? hexByte?
  rw [nat?_eq_hexDigit?, nat?_eq_hexDigit?]
  by_cases ha : a.toNat = 0x2B
  · have hnone : hexDigit? 0x2B = none := rfl
    cases hexDigit? b.toNat <;> simp [hnone, hplus, ha]
  · cases hexDigit? b.toNat <;> cases hexDigit? a.toNat <;> simp [hplus, ha]

theorem lt_of_signedByte? {a b n : Nat} (h : signedByte? a b = some n) :
    a < 0x80 ∧ b < 0x80 := by
  unfold signedByte? at h
  split at h
  next ha => exact ⟨by omega, (lt_of_hexDigit? h).1⟩
  next =>
    obtain ⟨high, ha, h⟩ := Option.bind_eq_some_iff.1 h
    obtain ⟨low, hb, -⟩ := Option.map_eq_some_iff.1 h
    exact ⟨(lt_of_hexDigit? ha).1, (lt_of_hexDigit? hb).1⟩

theorem signedByte?_of_hexByte? {a b n : Nat} (h : hexByte? a b = some n) :
    signedByte? a b = some n := by
  rw [signedByte?, if_neg, h]
  rintro rfl
  cases h

/-! ## Replacing -/

section

variable {byte? : Nat → Nat → Option Nat}

theorem replaceEscapes_cons {b : Nat} {rest : List Nat}
    (h : ∀ c d after, ¬(b = 0x25 ∧ rest = c :: d :: after ∧ (byte? c d).isSome)) :
    replaceEscapes byte? (b :: rest) = b :: replaceEscapes byte? rest := by
  rw [replaceEscapes.eq_def]
  split
  next c d after heq =>
    cases heq
    cases hbyte : byte? c d with
    | some byte => exact absurd ⟨rfl, rfl, by rw [hbyte]; rfl⟩ (h c d after)
    | none => rfl
  next heq =>
    cases heq
    rfl
  next heq => cases heq

theorem replaceEscapes_append {bytes : List Nat} (h : 0x25 ∉ bytes) (rest : List Nat) :
    replaceEscapes byte? (bytes ++ rest) = bytes ++ replaceEscapes byte? rest := by
  induction bytes with
  | nil => rfl
  | cons b bytes ih =>
    rw [List.mem_cons, not_or] at h
    rw [List.cons_append, replaceEscapes_cons fun _ _ _ hb ↦ h.1 hb.1.symm, ih h.2,
      List.cons_append]

variable (hascii : ∀ a b, (byte? a b).isSome → a < 0x80 ∧ b < 0x80) {c : Char} {cs : List Char}

include hascii

/-- Two characters that stand for no byte do not begin with two bytes that do. -/
theorem byte?_eq_none {a b : Nat} {after : List Nat} (hcs : encode cs = a :: b :: after)
    (h : ∀ d e rest, cs = d :: e :: rest → byte? d.toNat e.toNat = none) :
    byte? a b = none := by
  by_contra hsome
  -- bytes in this range are characters of their own
  obtain ⟨ha, hb⟩ := hascii a b (Option.isSome_iff_ne_none.2 hsome)
  obtain ⟨d, ds, rfl, rfl, hds⟩ := Text.Utf8.exists_char_of_encode hcs ha
  obtain ⟨e, es, rfl, rfl, -⟩ := Text.Utf8.exists_char_of_encode hds hb
  exact hsome (h d e es rfl)

/-- The bytes of a character stay if no escape begins with it. -/
theorem replaceEscapes_encode_cons
    (h : ∀ d e rest, c = '%' → cs = d :: e :: rest → byte? d.toNat e.toNat = none) :
    replaceEscapes byte? (encode (c :: cs)) =
      encodeChar c ++ replaceEscapes byte? (encode cs) := by
  rw [Text.Utf8.encode_cons]
  by_cases hc : c = '%'
  · subst hc
    refine replaceEscapes_cons fun a b after hbyte ↦ ?_
    obtain ⟨-, hcs, hsome⟩ := hbyte
    rw [byte?_eq_none hascii hcs fun d e rest ↦ h d e rest rfl] at hsome
    cases hsome
  · refine replaceEscapes_append (fun hmem ↦ hc ?_) _
    rcases Text.Utf8.encodeChar_cases c with ⟨-, hbytes⟩ | ⟨-, a, b, rest, hbytes, hlarge⟩
    · rw [hbytes, List.mem_singleton] at hmem
      exact Char.toNat_inj.1 hmem.symm
    · rw [hbytes] at hmem
      exact absurd (hlarge _ hmem) (by decide)

theorem replaceEscapes_encode_escape {a b : Char} {byte : Nat}
    (h : byte? a.toNat b.toNat = some byte) :
    replaceEscapes byte? (encode ('%' :: a :: b :: cs)) =
      byte :: replaceEscapes byte? (encode cs) := by
  obtain ⟨ha, hb⟩ := hascii _ _ (Option.isSome_iff_exists.2 ⟨byte, h⟩)
  have hchar {d : Char} (hd : d.toNat < 0x80) : encodeChar d = [d.toNat] := if_pos hd
  have hbytes : encode ('%' :: a :: b :: cs) = 0x25 :: a.toNat :: b.toNat :: encode cs := by
    rw [Text.Utf8.encode_cons, Text.Utf8.encode_cons, Text.Utf8.encode_cons, hchar ha, hchar hb]
    rfl
  rw [hbytes, replaceEscapes, h]

end

theorem ascii_signedByte? (a b : Nat) (h : (signedByte? a b).isSome) : a < 0x80 ∧ b < 0x80 :=
  lt_of_signedByte? (Option.some_get h).symm

theorem ascii_hexByte? (a b : Nat) (h : (hexByte? a b).isSome) : a < 0x80 ∧ b < 0x80 :=
  lt_of_signedByte? (signedByte?_of_hexByte? (Option.some_get h).symm)

/-- The bytes that a segment is decoded from are its own with the escapes replaced. -/
theorem percentBytes_eq (cs : List Char) :
    percentBytes cs = replaceEscapes signedByte? (encode cs) := by
  fun_induction percentBytes cs with
  | case1 a b rest byte hbyte ih =>
    rw [escapedByte?_eq] at hbyte
    rw [replaceEscapes_encode_escape ascii_signedByte? hbyte, ih]
  | case2 a b rest hnone ih =>
    rw [escapedByte?_eq] at hnone
    rw [replaceEscapes_encode_cons ascii_signedByte?, ih]
    · rfl
    · rintro d e rest' - heq
      cases heq
      exact hnone
  | case3 c rest hne ih =>
    rw [replaceEscapes_encode_cons ascii_signedByte?, ih]
    rintro d e rest' rfl rfl
    exact (hne d e rest' rfl rfl).elim
  | case4 => rfl

/-! ## Plus signs -/

/-- Somewhere in a text stands a percent sign with a plus sign and a hexadecimal digit behind it. -/
inductive HasSigned : List Char → Prop where
  | here {d : Char} {rest : List Char} (h : (hexDigit? d.toNat).isSome) :
      HasSigned ('%' :: '+' :: d :: rest)
  | later {c : Char} {rest : List Char} (h : HasSigned rest) : HasSigned (c :: rest)

theorem hasSigned_later_iff {c : Char} {rest : List Char}
    (h : ∀ d after, c = '%' → rest = '+' :: d :: after → ¬(hexDigit? d.toNat).isSome) :
    HasSigned (c :: rest) ↔ HasSigned rest := by
  refine ⟨fun hsigned ↦ ?_, .later⟩
  cases hsigned with
  | here hd => exact absurd hd (h _ _ rfl rfl)
  | later hrest => exact hrest

/-- In an escape with two digits no other one begins. -/
theorem hasSigned_escape_iff {a b : Char} {rest : List Char} {byte : Nat}
    (h : hexByte? a.toNat b.toNat = some byte) :
    HasSigned ('%' :: a :: b :: rest) ↔ HasSigned rest := by
  obtain ⟨high, ha, h⟩ := Option.bind_eq_some_iff.1 h
  obtain ⟨low, hb, -⟩ := Option.map_eq_some_iff.1 h
  rw [hasSigned_later_iff, hasSigned_later_iff, hasSigned_later_iff]
  · rintro d after rfl
    cases hb
  · rintro d after rfl
    cases ha
  · rintro d after - heq
    cases heq
    cases ha

/-- The second bytes are the first ones with `n` of them written out: there are a percent sign, a
plus sign and a digit for the byte that the digit stands for. -/
inductive WrittenOut : Nat → List Nat → List Nat → Prop where
  | nil : WrittenOut 0 [] []
  | keep (b : Nat) {n : Nat} {xs ys : List Nat} (h : WrittenOut n xs ys) :
      WrittenOut n (b :: xs) (b :: ys)
  | signed {d byte n : Nat} {xs ys : List Nat} (hd : hexDigit? d = some byte)
      (h : WrittenOut n xs ys) : WrittenOut (n + 1) (byte :: xs) (0x25 :: 0x2B :: d :: ys)

namespace WrittenOut

variable {n : Nat} {xs ys : List Nat}

theorem append_left (bytes : List Nat) (h : WrittenOut n xs ys) :
    WrittenOut n (bytes ++ xs) (bytes ++ ys) := by
  induction bytes with
  | nil => exact h
  | cons b bytes ih => exact .keep b ih

theorem eq_of_zero (h : WrittenOut n xs ys) (hn : n = 0) : xs = ys := by
  induction h with
  | nil => rfl
  | keep b _ ih => rw [ih hn]
  | signed => cases hn

/-- Three characters are read for each byte that is written out, and that byte is one character. -/
theorem length_decodeFrom (h : WrittenOut n xs ys) {p : Option Pending} (hp : Continues p) :
    (decodeFrom p ys).length = (decodeFrom p xs).length + 2 * n := by
  have hstart {p : Option Pending} (hp : Continues p) {b : Nat} (hb : b < 0x80)
      (bytes : List Nat) : (decodeFrom p (b :: bytes)).length =
        (Text.Utf8.cutOff p).length + 1 + (decodeFrom none bytes).length := by
    rw [Text.Utf8.decodeFrom_start hp (.inl hb), decodeFrom, Text.Utf8.start, if_pos hb]
    simp
    omega
  -- what is kept may be a part of a character, so the induction is over any beginning of one
  induction h generalizing p with
  | nil => rfl
  | keep b _ ih =>
    obtain ⟨read, q, hq, hread⟩ := Text.Utf8.exists_decodeFrom_cons p b
    rw [hread, hread, List.length_append, List.length_append, ih hq]
    omega
  | signed hd _ ih =>
    obtain ⟨hdigit, -, hbyte⟩ := lt_of_hexDigit? hd
    rw [hstart hp (by decide), hstart Text.Utf8.continues_none (by decide),
      hstart Text.Utf8.continues_none hdigit, hstart hp (by omega),
      ih Text.Utf8.continues_none, Text.Utf8.cutOff_none]
    simp only [List.length_nil]
    omega

end WrittenOut

theorem replaceEscapes_hexByte?_plus {d : Char} {byte : Nat} (h : hexDigit? d.toNat = some byte)
    (rest : List Char) : replaceEscapes hexByte? (encode ('%' :: '+' :: d :: rest)) =
      0x25 :: 0x2B :: d.toNat :: replaceEscapes hexByte? (encode rest) := by
  obtain ⟨hascii, hpercent, -⟩ := lt_of_hexDigit? h
  have hd : d ≠ '%' := by rintro rfl; exact hpercent rfl
  have hchar : encodeChar d = [d.toNat] := if_pos hascii
  rw [replaceEscapes_encode_cons ascii_hexByte?, replaceEscapes_encode_cons ascii_hexByte?,
    replaceEscapes_encode_cons ascii_hexByte?, hchar]
  · rfl
  · exact fun _ _ _ h ↦ absurd h hd
  · exact fun _ _ _ h ↦ absurd h (by decide)
  · rintro d e rest' - heq
    cases heq
    rfl

/-- Where only digits are taken for digits, what is replaced because of a plus sign stays. -/
theorem exists_writtenOut (cs : List Char) : ∃ n,
    WrittenOut n (percentBytes cs) (replaceEscapes hexByte? (encode cs)) ∧
      (0 < n ↔ HasSigned cs) := by
  have hnil : ¬HasSigned [] := fun h ↦ nomatch h
  fun_induction percentBytes cs with
  | case1 a b rest byte hbyte ih =>
    obtain ⟨n, hn, hpos⟩ := ih
    rw [escapedByte?_eq, signedByte?] at hbyte
    split at hbyte
    -- only in the first of the two cases the readings differ
    next ha =>
      obtain rfl : a = '+' := Char.toNat_inj.1 ha
      rw [replaceEscapes_hexByte?_plus hbyte]
      exact ⟨n + 1, .signed hbyte hn, by simp [HasSigned.here, hbyte]⟩
    next =>
      rw [replaceEscapes_encode_escape ascii_hexByte? hbyte, hasSigned_escape_iff hbyte]
      exact ⟨n, hn.keep byte, hpos⟩
  | case2 a b rest hnone ih =>
    obtain ⟨n, hn, hpos⟩ := ih
    rw [escapedByte?_eq] at hnone
    refine ⟨n, ?_, ?_⟩
    · rw [replaceEscapes_encode_cons ascii_hexByte?]
      · exact hn.append_left (encodeChar '%')
      · rintro d e rest' - heq
        cases heq
        cases hbyte : hexByte? a.toNat b.toNat with
        | none => rfl
        | some byte => rw [signedByte?_of_hexByte? hbyte] at hnone; cases hnone
    · refine hpos.trans (hasSigned_later_iff ?_).symm
      rintro d after - heq hd
      cases heq
      have hnone : hexDigit? b.toNat = none := hnone
      rw [hnone] at hd
      cases hd
  | case3 c rest hne ih =>
    obtain ⟨n, hn, hpos⟩ := ih
    refine ⟨n, ?_, ?_⟩
    · rw [replaceEscapes_encode_cons ascii_hexByte?]
      · exact hn.append_left (encodeChar c)
      · rintro d e rest' rfl rfl
        exact (hne d e rest' rfl rfl).elim
    · refine hpos.trans (hasSigned_later_iff ?_).symm
      exact fun d after hc hrest _ ↦ hne _ _ _ hc hrest
  | case4 => exact ⟨0, .nil, by simp [hnil]⟩

/-- A segment is decoded by replacing the escapes in its bytes and reading the bytes as text, where
a plus sign may take the place of the first digit. If only digits were taken for digits, the text
would be the same exactly if no percent sign has a plus sign and a digit behind it. -/
theorem percentDecode_eq_hex_iff (cs : List Char) :
    percentDecode cs = Text.Utf8.decode (replaceEscapes signedByte? (encode cs)) ∧
    (percentDecode cs = Text.Utf8.decode (replaceEscapes hexByte? (encode cs)) ↔
      ¬HasSigned cs) := by
  refine ⟨by rw [percentDecode, percentBytes_eq], ?_⟩
  obtain ⟨n, hn, hpos⟩ := exists_writtenOut cs
  have hlength := hn.length_decodeFrom Text.Utf8.continues_none
  rw [← hpos]
  constructor
  · intro heq
    have hsame := congrArg List.length heq
    rw [percentDecode, Text.Utf8.decode, Text.Utf8.decode] at hsame
    omega
  · intro hzero
    rw [percentDecode, hn.eq_of_zero (by omega)]

/-- A plus sign is taken for a digit, but a minus sign and a character of two bytes are not. -/
theorem plus_taken_for_digit :
    percentDecode "a%+1".toList ≠
      Text.Utf8.decode (replaceEscapes hexByte? (encode "a%+1".toList)) ∧
    percentDecode "a%+1".toList = ['a', Char.ofNat 1] ∧
    percentDecode "%-1%é%41".toList =
      Text.Utf8.decode (replaceEscapes hexByte? (encode "%-1%é%41".toList)) ∧
    percentDecode "%-1%é%41".toList = "%-1%éA".toList := by
  have hsigned : HasSigned "a%+1".toList := .later (.here rfl)
  have hplain : ¬HasSigned "%-1%é%41".toList := by
    intro h
    repeat cases h with | later h => ?_
    cases h
  exact ⟨(percentDecode_eq_hex_iff _).2.not.2 (not_not.2 hsigned), by decide +kernel,
    (percentDecode_eq_hex_iff _).2.2 hplain, by decide +kernel⟩

end Pointer

end ApiClient
