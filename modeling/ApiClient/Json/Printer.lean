import ApiClient.Json.Value
import ApiClient.Text.Join

/-!
# The text of a JSON value

A value is written without blanks. In a string the quote, the backslash and the controls below the
space are escaped and every other character stands for itself. A double always shows that it is one:
by a point or by an exponent, which begins below `1e-5` and at `1e+16`.
-/

namespace ApiClient.Json

/-- The lower-case hexadecimal digits of a control character. -/
def controlEscape (c : Char) : List Char :=
  '\\' :: 'u' :: '0' :: '0' :: (if c.toNat < 0x10 then ['0'] else []) ++ Nat.toDigits 16 c.toNat

def escapeChar (c : Char) : List Char :=
  if c = '"' then ['\\', '"']
  else if c = '\\' then ['\\', '\\']
  else if c = '\n' then ['\\', 'n']
  else if c = '\r' then ['\\', 'r']
  else if c = '\t' then ['\\', 't']
  else if c.toNat = 8 then ['\\', 'b']
  else if c.toNat = 12 then ['\\', 'f']
  else if c.toNat < 0x20 then controlEscape c
  else [c]

def quote (s : String) : String :=
  String.ofList ('"' :: (s.toList.flatMap escapeChar ++ ['"']))

/-- Doubles are written out from `1e-5` to below `1e16`, whole ones end in `.0`, and exponents
carry a sign. -/
def realLayout : Decimal.Layout where
  least := -5
  greatest := 15
  point := true
  plus := true

def Number.text : Number → String
  | .int n => toString n
  | .real x => String.ofList (realLayout.text x)

mutual

def Value.text : Value → String
  | .null => "null"
  | .bool b => if b then "true" else "false"
  | .num n => n.text
  | .str s => quote s
  | .arr items => "[" ++ Text.join "," (itemTexts items) ++ "]"
  | .obj members => "\x7b" ++ Text.join "," (memberTexts members) ++ "\x7d"

def itemTexts : List Value → List String
  | [] => []
  | v :: rest => v.text :: itemTexts rest

def memberTexts : List (String × Value) → List String
  | [] => []
  | (k, v) :: rest => (quote k ++ ":" ++ v.text) :: memberTexts rest

end

end ApiClient.Json
