import ApiClient.Text.Alphabetic
import ApiClient.Text.Case

/-!
# Words and camel case

A text falls into words at characters that are neither letters nor numbers, at the border between
an ASCII digit and a letter, and where the case of letters says so: before a capital that follows
small letters (`petId`), and before the last of several capitals when a small letter follows it
(`XMLDoc`). Camel case joins the words, the first in small letters and each later one capitalized.
-/

namespace ApiClient.Text

/-- Whether a word ends between `a` and `b` because exactly one of them is an ASCII digit and the
other a letter. -/
def digitBorder (a b : Char) : Bool :=
  (a.isDigit && isAlphabetic b) || (isAlphabetic a && b.isDigit)

/-- Puts a space on every border between a digit and a letter. -/
def splitDigits : List Char → List Char
  | a :: b :: rest =>
    if digitBorder a b then a :: ' ' :: splitDigits (b :: rest) else a :: splitDigits (b :: rest)
  | cs => cs

/-- What the letters of the current word tell about the next border. -/
inductive Casing where
  | undecided
  | small
  | capital
deriving DecidableEq

/-- The casing after reading `c`, if no word ends there. -/
def Casing.next (mode : Casing) (c : Char) : Casing :=
  if isLowercase c then .small else if isUppercase c then .capital else mode

/-- Cuts a run of letters and numbers at its case borders; `word` holds the current word so far,
last character first. -/
def cutAtCase (mode : Casing) (word : List Char) : List Char → List (List Char)
  | [] => []
  | [c] => [(c :: word).reverse]
  | c :: d :: rest =>
    if mode.next c = .small && isUppercase d then
      (c :: word).reverse :: cutAtCase .undecided [] (d :: rest)
    else if mode = .capital && isUppercase c && isLowercase d then
      word.reverse :: cutAtCase .undecided [c] (d :: rest)
    else
      cutAtCase (mode.next c) (c :: word) (d :: rest)

/-- The runs of characters between those that satisfy `sep`, empty runs included. -/
def splitWhere (sep : Char → Bool) : List Char → List (List Char)
  | [] => [[]]
  | c :: rest =>
    match splitWhere sep rest with
    | [] => [[c]]
    | run :: runs => if sep c then [] :: run :: runs else (c :: run) :: runs

def words (cs : List Char) : List (List Char) :=
  (splitWhere (fun c => !isAlphanumeric c) (splitDigits cs)).flatMap (cutAtCase .undecided [])

/-- A word in small letters; a capital sigma at its end becomes the final small sigma. -/
def lowerWord : List Char → List Char
  | [] => []
  | [c] => if c.toNat = 0x3A3 then [Char.ofNat 0x3C2] else toLower c
  | c :: rest => toLower c ++ lowerWord rest

/-- A word with a capital first letter and small letters after it. -/
def capitalWord : List Char → List Char
  | [] => []
  | c :: rest => toUpper c ++ lowerWord rest

/-- The words of a text run together, each after the first with a capital. -/
def camelCase (s : String) : String :=
  match words s.toList with
  | [] => ""
  | first :: rest => String.ofList (lowerWord first ++ rest.flatMap capitalWord)

/-- A text with its first character in capital form and the rest untouched. -/
def upperFirst (s : String) : String :=
  match s.toList with
  | [] => ""
  | c :: rest => String.ofList (toUpper c ++ rest)

end ApiClient.Text
