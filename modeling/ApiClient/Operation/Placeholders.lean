/-!
# Placeholders

A path and the address of a server name parts of themselves in braces. A placeholder goes from an
opening brace to the next closing one.
-/

namespace ApiClient

inductive Piece where
  | text (cs : List Char)
  | name (cs : List Char)
deriving DecidableEq, Repr

namespace Piece

def source : Piece → List Char
  | .text cs => cs
  | .name cs => '\x7b' :: (cs ++ ['\x7d'])

/-- The text before the first placeholder, the name in it, and the text after it. -/
def first? (cs : List Char) : Option (List Char × List Char × List Char) :=
  match cs.dropWhile (· != '\x7b') with
  | [] => none
  | _ :: inside =>
    match inside.dropWhile (· != '\x7d') with
    | [] => none
    | _ :: after => some (cs.takeWhile (· != '\x7b'), inside.takeWhile (· != '\x7d'), after)

theorem length_dropWhile_le {α : Type} (p : α → Bool) (xs : List α) :
    (xs.dropWhile p).length ≤ xs.length := by
  induction xs with
  | nil => simp
  | cons x xs ih =>
    rw [List.dropWhile_cons]
    split
    · exact Nat.le_succ_of_le ih
    · exact Nat.le_refl _

theorem length_of_first? {cs before name after : List Char}
    (h : first? cs = some (before, name, after)) : after.length < cs.length := by
  unfold first? at h
  split at h
  · simp at h
  · rename_i c inside h₁
    split at h
    · simp at h
    · rename_i d rest h₂
      have a := length_dropWhile_le (· != '\x7b') cs
      have b := length_dropWhile_le (· != '\x7d') inside
      simp_all
      omega

/-- A text piece, unless there is no text. -/
def ofText (cs : List Char) : List Piece :=
  if cs.isEmpty then [] else [.text cs]

def split (cs : List Char) : List Piece :=
  match _ : first? cs with
  | some (before, inside, after) => ofText before ++ .name inside :: split after
  | none => ofText cs
termination_by cs.length
decreasing_by exact length_of_first? (by assumption)

end Piece

end ApiClient
