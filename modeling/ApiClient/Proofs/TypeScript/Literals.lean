import ApiClient.Proofs.TypeScript.Enclosed
import ApiClient.Tree.CoreSchema

/-!
# Reading literals

A text in quotes and a template between backquotes both stand for a text. Their characters stand for
themselves but for escapes and, in a template, for line ends. A dollar sign and a brace in a
template open a hole: it goes to the brace that matches, and the text of the value of the expression
in it takes its place.
-/

namespace ApiClient.TypeScript

inductive Quote where
  | double
  | back
deriving DecidableEq

def Quote.char : Quote → Char
  | .double => '"'
  | .back => '\x60'

/-- What a literal stands for consists of characters and of the values of expressions, of which the
text is given. -/
inductive Item where
  | char (c : Char)
  | hole (code : List Char)
deriving DecidableEq

/-- Puts a character in front of the code of the hole that comes first. -/
def extendHole (c : Char) : List Item → List Item
  | .hole code :: items => .hole (c :: code) :: items
  | items => items

/-- What a character behind a backslash stands for. Escapes of line ends and those by number other
than `\u` with four digits are not read. -/
def escaped? (c : Char) : Option Char :=
  match c with
  | 'n' => some '\n'
  | 'r' => some '\r'
  | 't' => some '\t'
  | 'b' => some (Char.ofNat 8)
  | 'f' => some (Char.ofNat 12)
  | 'v' => some (Char.ofNat 11)
  | 'u' | 'x' | '\n' | '\r' | '\u2028' | '\u2029' => none
  | c => if c.isDigit then none else some c

/-- The character with a code of four hexadecimal digits, unless it is half of a pair. -/
def unit? (digits : List Char) : Option Char :=
  ((CoreSchema.nat? 16 digits).filter Nat.isValidChar).map Char.ofNat

/-- Where the reader of a literal stands. -/
inductive Place where
  | inside (q : Quote)
  /-- Behind a backslash. -/
  | escape (q : Quote)
  /-- In an escape by number, behind some of its digits. -/
  | digits (q : Quote) (read : List Char)
  /-- Between the dollar sign and the brace that open a hole. -/
  | opening
  /-- In a hole. -/
  | code (frames : List Frame)
  | behind

/-- Reads a literal from a place on, to the end of the text. -/
def readFrom : Place → List Char → Option (List Item)
  | .behind, [] => some []
  | .behind, _ :: _ => none
  | _, [] => none
  | .inside q, c :: rest =>
    if c = q.char then readFrom .behind rest
    else if c = '\\' then readFrom (.escape q) rest
    else
      match q with
      | .double =>
        if c = '\n' ∨ c = '\r' then none
        else (readFrom (.inside .double) rest).map (.char c :: ·)
      | .back =>
        if c = '$' ∧ rest.head? = some '\x7b' then readFrom .opening rest
        else if c = '\r' then
          -- the two characters of a line end stand for one
          if rest.head? = some '\n' then readFrom (.inside .back) rest
          else (readFrom (.inside .back) rest).map (.char '\n' :: ·)
        else (readFrom (.inside .back) rest).map (.char c :: ·)
  | .escape q, c :: rest =>
    if c = 'u' then readFrom (.digits q []) rest
    else
      match escaped? c with
      | some d => (readFrom (.inside q) rest).map (.char d :: ·)
      | none => none
  | .digits q read, c :: rest =>
    if read.length < 3 then readFrom (.digits q (read ++ [c])) rest
    else
      match unit? (read ++ [c]) with
      | some d => (readFrom (.inside q) rest).map (.char d :: ·)
      | none => none
  | .opening, _ :: rest => readFrom (.code [.brace]) rest
  | .code frames, c :: rest =>
    match Frame.step frames c with
    | none => none
    | some [] => (readFrom (.inside .back) rest).map (.hole [] :: ·)
    | some frames => (readFrom (.code frames) rest).map (extendHole c)

/-- Reads the text of a literal. -/
def readLiteral (s : String) : Option (List Item) :=
  match s.toList with
  | '"' :: rest => readFrom (.inside .double) rest
  | '\x60' :: rest => readFrom (.inside .back) rest
  | _ => none

namespace Item

/-- The text of a character, or of the value of an expression if it has one. -/
def text? (value : String → Option String) : Item → Option (List Char)
  | .char c => some [c]
  | .hole code => (value (String.ofList code)).map String.toList

end Item

/-- The text that a literal stands for, where expressions have values. -/
def literalText (value : String → Option String) (s : String) : Option String :=
  ((readLiteral s).bind fun items ↦ items.mapM (Item.text? value)).map fun texts ↦
    String.ofList texts.flatten

/-! ## Texts in quotes -/

section

variable {q : Quote} {c : Char} {rest : List Char}

theorem readFrom_closing (q : Quote) : readFrom (.inside q) [q.char] = some [] := by
  cases q <;> rfl

theorem readFrom_backslash (q : Quote) (rest : List Char) :
    readFrom (.inside q) ('\\' :: rest) = readFrom (.escape q) rest := by
  cases q <;> rfl

theorem readFrom_unit {a b d e : Char} (h : unit? [a, b, d, e] = some c) :
    readFrom (.inside q) ('\\' :: 'u' :: a :: b :: d :: e :: rest) =
      (readFrom (.inside q) rest).map (.char c :: ·) := by
  rw [readFrom_backslash]
  simp [readFrom, h]

theorem controlEscape_eq (hc : c.toNat < 0x20) : Json.controlEscape c =
    ['\\', 'u', '0', '0', (c.toNat / 16).digitChar, (c.toNat % 16).digitChar] := by
  have htable : ∀ n < 0x20, (if n < 0x10 then ['0'] else []) ++ Nat.toDigits 16 n =
      [(n / 16).digitChar, (n % 16).digitChar] := by
    decide
  rw [Json.controlEscape, List.cons_append, List.cons_append, List.cons_append, List.cons_append,
    htable _ hc]

theorem unit?_control (hc : c.toNat < 0x20) :
    unit? ['0', '0', (c.toNat / 16).digitChar, (c.toNat % 16).digitChar] = some c := by
  have htable : ∀ n < 0x20, unit? ['0', '0', (n / 16).digitChar, (n % 16).digitChar] =
      some (Char.ofNat n) := by
    decide
  rw [htable _ hc, Char.ofNat_toNat]

theorem readFrom_escapeChar (c : Char) (rest : List Char) :
    readFrom (.inside .double) (Json.escapeChar c ++ rest) =
      (readFrom (.inside .double) rest).map (.char c :: ·) := by
  unfold Json.escapeChar
  by_cases hquote : c = '"'
  · subst hquote
    rfl
  by_cases hbackslash : c = '\\'
  · subst hbackslash
    rfl
  by_cases hline : c = '\n'
  · subst hline
    rfl
  by_cases hreturn : c = '\r'
  · subst hreturn
    rfl
  by_cases htab : c = '\t'
  · subst htab
    rfl
  rw [if_neg hquote, if_neg hbackslash, if_neg hline, if_neg hreturn, if_neg htab]
  have hcode {n : Nat} (hn : c.toNat = n) : c = Char.ofNat n := by
    rw [← hn, Char.ofNat_toNat]
  split
  next hback => rw [hcode hback]; rfl
  split
  next hfeed => rw [hcode hfeed]; rfl
  split
  next hcontrol =>
    rw [controlEscape_eq hcontrol]
    exact readFrom_unit (unit?_control hcontrol)
  next =>
    have hends : ¬(c = '\n' ∨ c = '\r') := not_or.2 ⟨hline, hreturn⟩
    have hdouble : c ≠ Quote.double.char := hquote
    rw [List.singleton_append, readFrom, if_neg hdouble, if_neg hbackslash]
    simp only [if_neg hends]

end

theorem readLiteral_quote (s : String) :
    readLiteral (Json.quote s) = some (s.toList.map .char) := by
  have hread : ∀ cs : List Char, readFrom (.inside .double) (cs.flatMap Json.escapeChar ++ ['"']) =
      some (cs.map .char) := by
    intro cs
    induction cs with
    | nil => exact readFrom_closing .double
    | cons c cs ih =>
      rw [List.flatMap_cons, List.append_assoc, readFrom_escapeChar, ih]
      rfl
  rw [readLiteral, Json.quote, String.toList_ofList]
  exact hread s.toList

end ApiClient.TypeScript
