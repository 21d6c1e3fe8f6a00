/-!
# Joining and replacing

Texts set side by side with a separator between them, and a text with every occurrence of a pattern
replaced from the left.
-/

namespace ApiClient.Text

def join (sep : String) : List String → String
  | [] => ""
  | [s] => s
  | s :: t :: rest => s ++ sep ++ join sep (t :: rest)

@[simp] theorem join_nil (sep : String) : join sep [] = "" := rfl

@[simp] theorem join_singleton (sep s : String) : join sep [s] = s := rfl

theorem join_cons_cons (sep s t : String) (rest : List String) :
    join sep (s :: t :: rest) = s ++ sep ++ join sep (t :: rest) := rfl

/-- The characters after `pattern`, if the text begins with it. -/
def dropPrefix? : List Char → List Char → Option (List Char)
  | [], cs => some cs
  | _ :: _, [] => none
  | p :: pattern, c :: cs => if p = c then dropPrefix? pattern cs else none

theorem length_of_dropPrefix? {pattern cs rest : List Char}
    (h : dropPrefix? pattern cs = some rest) : cs.length = pattern.length + rest.length := by
  induction pattern generalizing cs with
  | nil => simp_all [dropPrefix?]
  | cons p pattern ih =>
    match cs with
    | [] => simp [dropPrefix?] at h
    | c :: cs =>
      rw [dropPrefix?] at h
      split at h
      · have := ih h
        simp only [List.length_cons]
        omega
      · simp at h

/-- Replaces the pattern `p :: pattern` from the left; occurrences do not overlap. -/
def replace (p : Char) (pattern : List Char) (other : List Char) (cs : List Char) : List Char :=
  match cs with
  | [] => []
  | c :: rest =>
    match _ : dropPrefix? (p :: pattern) (c :: rest) with
    | some after => other ++ replace p pattern other after
    | none => c :: replace p pattern other rest
termination_by cs.length
decreasing_by
  · rename_i h
    have := length_of_dropPrefix? h
    simp only [List.length_cons] at this ⊢
    omega
  · simp

def splitOn (sep : Char) : List Char → List (List Char)
  | [] => [[]]
  | c :: rest =>
    match splitOn sep rest with
    | [] => [[c]]
    | piece :: pieces => if c = sep then [] :: piece :: pieces else (c :: piece) :: pieces

end ApiClient.Text
