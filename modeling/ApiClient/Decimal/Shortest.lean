import ApiClient.Decimal.Binary64

/-!
# The shortest decimal that reads back

The text of a double has the fewest digits that still read back as that double, and of those the
digits nearest to it. The search tries one digit, then two, and so on: on the grid of decimals with
that many digits only the two neighbours of the value can be the nearest. The way the digits are
laid out is one record.
-/

namespace ApiClient.Decimal

/-- The value `digits * 10 ^ exponent`. -/
structure Digits where
  digits : Nat
  exponent : Int
deriving DecidableEq, Repr

def ratioLt (a b c d : Nat) : Bool := a * d < c * b

def ratioLe (a b c d : Nat) : Bool := a * d ≤ c * b

def power (c : Nat) (e : Int) : Nat × Nat :=
  if e < 0 then (c, Nat.pow 10 (-e).toNat) else (c * Nat.pow 10 e.toNat, 1)

/-- The least `p` with `n / d < 10 ^ p`. -/
def magnitude (n d : Nat) : Int :=
  let guess := ((n.log2 : Int) - d.log2 - 1) * 30103 / 100000
  let below (p : Int) := let (a, b) := power 1 p; ratioLt n d a b
  if below guess then guess
  else if below (guess + 1) then guess + 1
  else if below (guess + 2) then guess + 2
  else guess + 3

/-- Whether `c * 10 ^ e` rounds to the double, read off the middle points between it and its
neighbours. -/
def readsBack (x : Binary64) (c : Nat) (e : Int) : Bool :=
  let m := x.significand
  let gap := if m = Nat.pow 2 52 ∧ Binary64.minExponent < x.exponent then 1 else 2
  let low := Binary64.scale (4 * m - gap) 1 (2 - x.exponent)
  let high := Binary64.scale (4 * m + 2) 1 (2 - x.exponent)
  let (a, b) := power c e
  if m % 2 = 0 then ratioLe low.1 low.2 a b && ratioLe a b high.1 high.2
  else ratioLt low.1 low.2 a b && ratioLt a b high.1 high.2

/-- The neighbour of the value on the grid of multiples of `10 ^ e` that reads back, the nearer one
when both do and the even one when they are equally near. -/
def onGrid (x : Binary64) (e : Int) : Option Nat :=
  let (n, d) := x.fraction
  let (a, b) := if e < 0 then (n * Nat.pow 10 (-e).toNat, d) else (n, d * Nat.pow 10 e.toNat)
  let c := a / b
  let twice := 2 * (a % b)
  match readsBack x c e, readsBack x (c + 1) e with
  | false, false => none
  | true, false => some c
  | false, true => some (c + 1)
  | true, true => some (if twice < b ∨ (twice = b ∧ c % 2 = 0) then c else c + 1)

/-- Tries `count` more grids, beginning with the one of unit `10 ^ e`. -/
def search (x : Binary64) : Nat → Int → Digits
  | 0, e => ⟨(onGrid x e).getD 0, e⟩
  | count + 1, e =>
    match onGrid x e with
    | some c => ⟨c, e⟩
    | none => search x count (e - 1)

/-- The shortest decimal that reads back as a double other than zero. -/
def shortest (x : Binary64) : Digits :=
  let (n, d) := x.fraction
  search x 17 (magnitude n d - 1)

/-- How the digits of a number are set out. -/
structure Layout where
  /-- The least exponent of the leading digit that is written without an exponent. -/
  least : Int
  /-- The greatest exponent of the leading digit that is written without an exponent. -/
  greatest : Int
  /-- Whether whole numbers end in `.0`. -/
  point : Bool
  /-- Whether exponents that are not negative carry a plus sign. -/
  plus : Bool

def stripZeros (digits : List Char) : List Char :=
  match (digits.reverse.dropWhile (· == '0')).reverse with
  | [] => ['0']
  | ds => ds

/-- Sets out an absolute value whose leading digit stands for `10 ^ lead`. -/
def Layout.set (layout : Layout) (digits : List Char) (lead : Int) : List Char :=
  if layout.least ≤ lead ∧ lead ≤ layout.greatest then
    if lead < 0 then
      '0' :: '.' :: (List.replicate (-lead - 1).toNat '0' ++ digits)
    else
      let whole := digits.take (lead.toNat + 1)
      let padded := whole ++ List.replicate (lead.toNat + 1 - whole.length) '0'
      match digits.drop (lead.toNat + 1) with
      | [] => if layout.point then padded ++ ['.', '0'] else padded
      | places => padded ++ '.' :: places
  else
    let head :=
      match digits with
      | d :: e :: places => d :: '.' :: e :: places
      | ds => ds
    let sign := if lead < 0 then ['-'] else if layout.plus then ['+'] else []
    head ++ 'e' :: (sign ++ Nat.toDigits 10 lead.natAbs)

def Layout.text (layout : Layout) (x : Binary64) : List Char :=
  let sign := if x.negative then ['-'] else []
  if x.significand = 0 then sign ++ layout.set ['0'] 0 else
  let short := shortest x
  let digits := Nat.toDigits 10 short.digits
  sign ++ layout.set (stripZeros digits) (short.exponent + digits.length - 1)

end ApiClient.Decimal
