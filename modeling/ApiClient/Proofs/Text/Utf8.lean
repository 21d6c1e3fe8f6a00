import ApiClient.Text.Utf8
import Mathlib.Tactic.Common

/-!
# Characters as bytes

The bytes of a text are read as that text. They begin with a byte that continues no character, so a
character whose bytes break off before them is read as one replacement character, and no more
characters are read than were broken off or written.
-/

namespace ApiClient.Text.Utf8

/-- Every byte that continues a character is one of those that begin none. -/
def Continues (p : Option Pending) : Prop :=
  ∀ q ∈ p, 0x80 ≤ q.low ∧ q.high ≤ 0xBF

theorem continues_none : Continues none := by simp [Continues]

theorem continues_start (b : Nat) : Continues (start b).2 := by
  unfold start Continues
  repeat' split
  all_goals simp

theorem continues_extend (p : Pending) (b : Nat) : Continues (extend p b).2 := by
  unfold extend
  split
  · dsimp only
    split <;> simp [Continues]
  · exact continues_start b

/-- What is read for a character that breaks off. -/
def cutOff (p : Option Pending) : List Char :=
  if p.isSome then [replacement] else []

@[simp] theorem cutOff_none : cutOff none = [] := rfl

theorem decodeFrom_start {p : Option Pending} (hp : Continues p) {b : Nat}
    (hb : b < 0x80 ∨ 0xBF < b) (bytes : List Nat) :
    decodeFrom p (b :: bytes) = cutOff p ++ decodeFrom none (b :: bytes) := by
  cases p with
  | none => rfl
  | some q =>
    have hbound := hp q rfl
    have hout : ¬(q.low ≤ b ∧ b ≤ q.high) := by omega
    simp [decodeFrom, extend, hout, cutOff]

theorem decodeFrom_first {b : Nat} {q : Pending} (h : start b = ([], some q)) (bytes : List Nat) :
    decodeFrom none (b :: bytes) = decodeFrom (some q) bytes := by
  simp [decodeFrom, h]

/-- A byte with six bits of a number, after which more are to come. -/
theorem decodeFrom_more {code missing low high n : Nat} (hcode : code = n / 0x40)
    (hlow : low ≤ 0x80 + n % 0x40) (hhigh : 0x80 + n % 0x40 ≤ high) (bytes : List Nat) :
    decodeFrom (some ⟨code, missing + 2, low, high⟩) ((0x80 + n % 0x40) :: bytes) =
      decodeFrom (some ⟨n, missing + 1, 0x80, 0xBF⟩) bytes := by
  have hnumber : n / 0x40 * 0x40 + n % 0x40 = n := by omega
  simp [decodeFrom, extend, hlow, hhigh, hcode, hnumber]

/-- The byte with the last six bits of a number. -/
theorem decodeFrom_last {code low high n : Nat} (hcode : code = n / 0x40)
    (hlow : low ≤ 0x80 + n % 0x40) (hhigh : 0x80 + n % 0x40 ≤ high) (bytes : List Nat) :
    decodeFrom (some ⟨code, 1, low, high⟩) ((0x80 + n % 0x40) :: bytes) =
      Char.ofNat n :: decodeFrom none bytes := by
  have hnumber : n / 0x40 * 0x40 + n % 0x40 = n := by omega
  simp [decodeFrom, extend, hlow, hhigh, hcode, hnumber]

/-- The first byte of three, with the bounds that it sets for the second. -/
theorem start_three {n : Nat} (hfrom : 0x800 ≤ n) (hto : n < 0x10000)
    (hvalid : n < 0xD800 ∨ 0xDFFF < n) :
    ∃ low high, start (0xE0 + n / 0x1000) = ([], some ⟨n / 0x1000, 2, low, high⟩) ∧
      low ≤ 0x80 + n / 0x40 % 0x40 ∧ 0x80 + n / 0x40 % 0x40 ≤ high := by
  by_cases hfirst : n < 0x1000
  · have hzero : n / 0x1000 = 0 := by omega
    exact ⟨0xA0, 0xBF, by simp [start, hzero], by omega, by omega⟩
  by_cases hthirteen : n / 0x1000 = 0xD
  · exact ⟨0x80, 0x9F, by simp [start, hthirteen], by omega, by omega⟩
  · refine ⟨0x80, 0xBF, ?_, by omega, by omega⟩
    unfold start
    rw [if_neg (by omega), if_neg (by omega), if_neg (by omega), if_neg (by omega),
      if_pos (by omega), Nat.add_sub_cancel_left]

/-- The first byte of four, with the bounds that it sets for the second. -/
theorem start_four {n : Nat} (hfrom : 0x10000 ≤ n) (hto : n < 0x110000) :
    ∃ low high, start (0xF0 + n / 0x40000) = ([], some ⟨n / 0x40000, 3, low, high⟩) ∧
      low ≤ 0x80 + n / 0x1000 % 0x40 ∧ 0x80 + n / 0x1000 % 0x40 ≤ high := by
  by_cases hfirst : n < 0x40000
  · have hzero : n / 0x40000 = 0 := by omega
    exact ⟨0x90, 0xBF, by simp [start, hzero], by omega, by omega⟩
  by_cases hlast : n / 0x40000 = 4
  · exact ⟨0x80, 0x8F, by simp [start, hlast], by omega, by omega⟩
  · refine ⟨0x80, 0xBF, ?_, by omega, by omega⟩
    unfold start
    rw [if_neg (by omega), if_neg (by omega), if_neg (by omega), if_neg (by omega),
      if_neg (by omega), if_neg (by omega), if_neg (by omega), if_pos (by omega),
      Nat.add_sub_cancel_left]

/-- The bytes of a character are read as the character. -/
theorem decodeFrom_none_encodeChar (c : Char) (bytes : List Nat) :
    decodeFrom none (encodeChar c ++ bytes) = c :: decodeFrom none bytes := by
  have hvalid : c.toNat < 0xD800 ∨ 0xDFFF < c.toNat ∧ c.toNat < 0x110000 := c.valid
  have hchar : Char.ofNat c.toNat = c := Char.ofNat_toNat c
  unfold encodeChar
  generalize c.toNat = n at hvalid hchar
  subst hchar
  dsimp only
  split
  next hone => simp [decodeFrom, start, hone]
  next hone =>
    split
    next htwo =>
      have hstart : start (0xC0 + n / 0x40) = ([], some ⟨n / 0x40, 1, 0x80, 0xBF⟩) := by
        unfold start
        rw [if_neg (by omega), if_pos (by omega), Nat.add_sub_cancel_left]
      rw [List.cons_append, decodeFrom_first hstart, List.cons_append,
        decodeFrom_last rfl (by omega) (by omega), List.nil_append]
    next htwo =>
      split
      next hthree =>
        obtain ⟨low, high, hstart, hlow, hhigh⟩ := start_three (by omega) hthree (by omega)
        rw [List.cons_append, decodeFrom_first hstart, List.cons_append,
          decodeFrom_more (by omega) hlow hhigh, List.cons_append,
          decodeFrom_last rfl (by omega) (by omega), List.nil_append]
      next hthree =>
        obtain ⟨low, high, hstart, hlow, hhigh⟩ := start_four (n := n) (by omega) (by omega)
        rw [List.cons_append, decodeFrom_first hstart, List.cons_append,
          decodeFrom_more (by omega) hlow hhigh, List.cons_append,
          decodeFrom_more (by omega) (by omega) (by omega), List.cons_append,
          decodeFrom_last rfl (by omega) (by omega), List.nil_append]

/-- The bytes of a character end one that breaks off before them. -/
theorem decodeFrom_encodeChar {p : Option Pending} (hp : Continues p) (c : Char)
    (bytes : List Nat) :
    decodeFrom p (encodeChar c ++ bytes) = cutOff p ++ c :: decodeFrom none bytes := by
  have hfirst : ∃ b rest, encodeChar c = b :: rest ∧ (b < 0x80 ∨ 0xBF < b) := by
    unfold encodeChar
    dsimp only
    split
    next h => exact ⟨_, _, rfl, .inl h⟩
    next =>
      split
      next => exact ⟨_, _, rfl, .inr (by omega)⟩
      next =>
        split
        · exact ⟨_, _, rfl, .inr (by omega)⟩
        · exact ⟨_, _, rfl, .inr (by omega)⟩
  obtain ⟨b, rest, hc, hb⟩ := hfirst
  have hread := decodeFrom_none_encodeChar c bytes
  rw [hc, List.cons_append] at hread ⊢
  rw [decodeFrom_start hp hb, hread]

theorem decode_encode (cs : List Char) : decode (encode cs) = cs := by
  unfold decode
  induction cs with
  | nil => rfl
  | cons c cs ih =>
    rw [encode, List.flatMap_cons, decodeFrom_none_encodeChar]
    exact congrArg (c :: ·) ih

/-- A byte adds at most one character, counting the one that breaks off after it. -/
theorem length_decodeFrom_cons (p : Option Pending) (b : Nat) (bytes : List Nat) :
    ∃ q, Continues q ∧ (decodeFrom p (b :: bytes)).length + (cutOff q).length ≤
      (decodeFrom q bytes).length + (cutOff p).length + 1 := by
  have hstart : (start b).1.length + (cutOff (start b).2).length ≤ 1 := by
    unfold start cutOff
    repeat' split
    all_goals simp_all
  cases p with
  | none =>
    refine ⟨(start b).2, continues_start b, ?_⟩
    simp only [decodeFrom, List.length_append]
    omega
  | some q =>
    have hextend : (extend q b).1.length + (cutOff (extend q b).2).length ≤ 2 := by
      unfold extend
      split
      · dsimp only
        split <;> simp [cutOff]
      · simp only [List.length_cons]
        omega
    refine ⟨(extend q b).2, continues_extend q b, ?_⟩
    have hcut : (cutOff (some q)).length = 1 := rfl
    simp only [decodeFrom, List.length_append]
    omega

end ApiClient.Text.Utf8
