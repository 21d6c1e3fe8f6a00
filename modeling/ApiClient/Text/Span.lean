/-!
# Character classes as spans of code points

A class of characters is a table of spans. A span names its first and last code point; in the
classes where capital and small letters alternate it also names the distance between two members.
Membership is a linear search, so a statement about a class is a statement about one table.
-/

namespace ApiClient.Text

/-- Whether `code` lies in one of the closed intervals `spans`. -/
def inSpans (spans : List (Nat × Nat)) (code : Nat) : Bool :=
  spans.any fun (first, last) => first ≤ code && code ≤ last

/-- Whether `code` is met when each span `(first, last, step)` is walked in steps of `step`. -/
def inSteps (spans : List (Nat × Nat × Nat)) (code : Nat) : Bool :=
  spans.any fun (first, last, step) =>
    first ≤ code && code ≤ last && (code - first) % step == 0

/-- Spans hold exactly the codes between the ends of one of them. -/
theorem inSpans_iff {spans : List (Nat × Nat)} {code : Nat} :
    inSpans spans code = true ↔ ∃ s ∈ spans, s.1 ≤ code ∧ code ≤ s.2 := by
  simp [inSpans]

end ApiClient.Text
