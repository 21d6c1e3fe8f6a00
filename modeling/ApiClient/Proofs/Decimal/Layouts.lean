import ApiClient.Json.Printer
import ApiClient.Proofs.Text.Numbers

/-!
# The characters of a number

The text of a number has digits and the marks between them, whatever way the digits are set out.
-/

namespace ApiClient

namespace Decimal

/-- What can stand in the text of a number besides digits. -/
def marks : List Char := ['.', 'e', '+', '-']

theorem mem_of_mem_stripZeros {digits : List Char} {c : Char} (h : c ∈ stripZeros digits) :
    c ∈ digits ∨ c = '0' := by
  unfold stripZeros at h
  split at h
  · exact .inr (List.mem_singleton.1 h)
  · exact .inl (List.mem_reverse.1 ((List.dropWhile_subset _) (List.mem_reverse.1 h)))

theorem Layout.mem_of_mem_set {layout : Layout} {digits : List Char} {lead : Int} {c : Char}
    (h : c ∈ layout.set digits lead) :
    c ∈ digits ∨ c ∈ Nat.toDigits 10 lead.natAbs ∨ c = '0' ∨ c ∈ marks := by
  unfold set at h
  unfold marks
  split at h
  · split at h
    · grind
    · dsimp only at h
      split at h <;> grind
  · grind

theorem isDigit_of_mem_toDigits {n : Nat} {c : Char} (h : c ∈ Nat.toDigits 10 n) : c.isDigit :=
  Nat.isDigit_of_mem_toDigits (by decide) (by decide) h

theorem Layout.isDigit_or_mark_of_mem_set {layout : Layout} {digits : List Char}
    (hdigits : ∀ c ∈ digits, c.isDigit) {lead : Int} {c : Char} (h : c ∈ layout.set digits lead) :
    c.isDigit ∨ c ∈ marks := by
  rcases mem_of_mem_set h with h | h | rfl | h
  · exact .inl (hdigits c h)
  · exact .inl (isDigit_of_mem_toDigits h)
  · exact .inl (by decide)
  · exact .inr h

theorem Layout.isDigit_or_mark {layout : Layout} {x : Binary64} {c : Char}
    (h : c ∈ layout.text x) : c.isDigit ∨ c ∈ marks := by
  have hsign : c ∈ (if x.negative then ['-'] else []) → c.isDigit ∨ c ∈ marks := by
    intro h
    split at h
    · exact .inr (List.mem_singleton.1 h ▸ by decide)
    · cases h
  simp only [text] at h
  split at h
  · rcases List.mem_append.1 h with h | h
    · exact hsign h
    · exact isDigit_or_mark_of_mem_set (fun d hd ↦ List.mem_singleton.1 hd ▸ by decide) h
  · rcases List.mem_append.1 h with h | h
    · exact hsign h
    · refine isDigit_or_mark_of_mem_set (fun d hd ↦ ?_) h
      rcases mem_of_mem_stripZeros hd with hd | rfl
      · exact isDigit_of_mem_toDigits hd
      · decide

end Decimal

theorem Json.Number.isDigit_or_mark {n : Number} {c : Char} (h : c ∈ n.text.toList) :
    c.isDigit ∨ c ∈ Decimal.marks := by
  cases n with
  | int n =>
    cases n with
    | ofNat n => exact .inl (Text.isDigit_of_mem_number h)
    | negSucc n =>
      have happend : (Number.int (.negSucc n)).text = "-" ++ toString (n + 1) := rfl
      rw [happend, String.toList_append] at h
      rcases List.mem_append.1 h with h | h
      · exact .inr (List.mem_singleton.1 h ▸ by decide)
      · exact .inl (Text.isDigit_of_mem_number h)
  | real x =>
    rw [text, String.toList_ofList] at h
    exact Decimal.Layout.isDigit_or_mark h

end ApiClient
