import ApiClient.Tree.Node

/-!
# The core schema

Text without quotes is null, a boolean, an integer, a double or a string, whichever it can be first.
A number with a needless leading zero is a string. An integer beyond 64 bits is refused up to 128
bits and a double from there on.
-/

namespace ApiClient.CoreSchema

def nullWords : List String := ["null", "Null", "NULL", "~"]

def bool? (text : String) : Option Bool :=
  if ["true", "True", "TRUE"].contains text then some true
  else if ["false", "False", "FALSE"].contains text then some false
  else none

def digit? (c : Char) : Option Nat :=
  if c.isDigit then some (c.toNat - 48)
  else if 'a' ≤ c ∧ c ≤ 'f' then some (c.toNat - 87)
  else if 'A' ≤ c ∧ c ≤ 'F' then some (c.toNat - 55)
  else none

/-- The number written by digits of a base, after the number `n`. -/
def digitsFrom (base n : Nat) : List Char → Option Nat
  | [] => some n
  | c :: rest =>
    match digit? c with
    | some d => if d < base then digitsFrom base (n * base + d) rest else none
    | none => none

/-- The number written by one or more digits of a base. -/
def nat? (base : Nat) : List Char → Option Nat
  | [] => none
  | cs => digitsFrom base 0 cs

/-- Whether the digits after an optional sign begin with a needless zero. -/
def hasNeedlessZero (cs : List Char) : Bool :=
  let digits := match cs with
    | '+' :: rest => rest
    | '-' :: rest => rest
    | rest => rest
  match digits with
  | '0' :: c :: rest => (c :: rest).all Char.isDigit
  | _ => false

/-- An integer below `bound`, in one of the bases sixteen, eight, two and ten. -/
def natural? (bound : Nat) (cs : List Char) : Option Nat :=
  let based (base : Nat) (digits : List Char) := (nat? base digits).filter (· < bound)
  let unsigned := match cs with
    | '+' :: rest => rest
    | rest => rest
  match unsigned with
  | '0' :: 'x' :: digits => based 16 digits
  | '0' :: 'o' :: digits => based 8 digits
  | '0' :: 'b' :: digits => based 2 digits
  | digits => if hasNeedlessZero cs then none else based 10 digits

/-- The absolute value of a negative integer, at most `bound`. -/
def negative? (bound : Nat) (cs : List Char) : Option Nat :=
  let based (base : Nat) (digits : List Char) := (nat? base digits).filter (· ≤ bound)
  match cs with
  | '-' :: '0' :: 'x' :: digits => based 16 digits
  | '-' :: '0' :: 'o' :: digits => based 8 digits
  | '-' :: '0' :: 'b' :: digits => based 2 digits
  | '-' :: digits => if hasNeedlessZero cs then none else based 10 digits
  | _ => none

/-- The integer that a text writes. The outer option says whether it writes one of up to 128 bits,
the inner one whether that has at most 64. -/
def int? (cs : List Char) : Option (Option Scalar) :=
  match natural? (Nat.pow 2 64) cs, negative? (Nat.pow 2 63) cs with
  | some n, _ => some (some (.num (.int n)))
  | none, some 0 => some (some .negativeZero)
  | none, some n => some (some (.num (.int (-n))))
  | none, none =>
    let wide := (natural? (Nat.pow 2 128) cs).isSome || (negative? (Nat.pow 2 127) cs).isSome
    if wide then some none else none

/-- Splits off an exponent: a letter, a sign and at least one digit. -/
def exponent? : List Char → Option Int
  | [] => some 0
  | c :: rest =>
    if c = 'e' ∨ c = 'E' then
      match rest with
      | '-' :: digits => (nat? 10 digits).map fun n => -(n : Int)
      | '+' :: digits => (nat? 10 digits).map fun n => (n : Int)
      | digits => (nat? 10 digits).map fun n => (n : Int)
    else none

def unsignedReal? (negative : Bool) (cs : List Char) : Option Binary64 :=
  let whole := cs.takeWhile Char.isDigit
  let rest := cs.dropWhile Char.isDigit
  let (places, rest) := match rest with
    | '.' :: more => (more.takeWhile Char.isDigit, more.dropWhile Char.isDigit)
    | more => ([], more)
  match nat? 10 (whole ++ places), exponent? rest with
  | some n, some e => Binary64.ofDecimal negative n (e - places.length)
  | _, _ => none

def real? (cs : List Char) : Option Scalar :=
  let finite (negative : Bool) (digits : List Char) :=
    (unsignedReal? negative digits).map fun x => Scalar.num (.real x)
  if [".inf", ".Inf", ".INF", "+.inf", "+.Inf", "+.INF", "-.inf", "-.Inf", "-.INF",
      ".nan", ".NaN", ".NAN"].contains (String.ofList cs) then some .nonFinite
  else match cs with
    | '+' :: digits => finite false digits
    | '-' :: digits => finite true digits
    | digits => finite false digits

/-- The typed scalar that text without quotes and without a tag stands for. -/
def resolvePlain (text : String) : Except Fault Scalar :=
  if text.isEmpty || nullWords.contains text then .ok .null
  else match bool? text, int? text.toList with
    | some b, _ => .ok (.bool b)
    | none, some (some n) => .ok n
    | none, some none => .error .mismatch
    | none, none =>
      if hasNeedlessZero text.toList then .ok (.str text)
      else .ok ((real? text.toList).getD (.str text))

def resolveTagged (text : String) : CoreTag → Except Fault Scalar
  | .text => .ok (.str text)
  | .null => if nullWords.contains text then .ok .null else .error .mismatch
  | .bool =>
    match bool? text with
    | some b => .ok (.bool b)
    | none => .error .mismatch
  | .int =>
    match int? text.toList with
    | some (some n) => .ok n
    | _ => .error .mismatch
  | .float =>
    match real? text.toList with
    | some s => .ok s
    | none => .error .mismatch
  | .untyped => resolvePlain text

end ApiClient.CoreSchema

namespace ApiClient

def Scalar.typed : Scalar → Except Fault Scalar
  | .plain text none => CoreSchema.resolvePlain text
  | .plain text (some tag) => CoreSchema.resolveTagged text tag
  | .quoted text _ none => .ok (.str text)
  | .quoted text _ (some .untyped) => .ok (.str text)
  | .quoted text _ (some tag) => CoreSchema.resolveTagged text tag
  | s => .ok s

end ApiClient
