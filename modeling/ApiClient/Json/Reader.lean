import ApiClient.Text.Utf8
import ApiClient.Tree.Reading

/-!
# The tree of a JSON text

A text is read from the left, and the first fault ends it. Three kinds of value are fine to pass
over and faulty to read: numbers out of range, strings with half of a surrogate pair, and lists and
maps nested deeper than 127 levels.

A number with a point, an exponent or too many digits is a double. Its leading digits are taken as
long as they fit 64 bits and scaled by a power of ten, each rounded on its own.
-/

namespace ApiClient.Json

/-- What may stand between tokens. -/
def isSpace (c : Char) : Bool :=
  c == ' ' || c == '\n' || c == '\t' || c == '\r'

/-- The text after its leading blanks. -/
def skipSpace (cs : List Char) : List Char :=
  cs.dropWhile isSpace

/-! ## Strings -/

/-- The state of a string literal that has been read up to some point. -/
structure StringLiteral where
  /-- The characters read so far, last first. -/
  read : List Char := []
  /-- The first half of a surrogate pair, if it has just been read. -/
  half : Option Nat := none
  /-- Whether half of a surrogate pair stood alone. -/
  halved : Bool := false

/-- Whether a code unit is the first half of a surrogate pair. -/
def isHigh (n : Nat) : Bool := 0xD800 ≤ n && n < 0xDC00

/-- Whether a code unit is the second half of a surrogate pair. -/
def isLow (n : Nat) : Bool := 0xDC00 ≤ n && n < 0xE000

namespace StringLiteral

/-- The literal when something other than a code unit follows. -/
def settle (lit : StringLiteral) : StringLiteral :=
  if lit.half.isSome then { lit with half := none, halved := true } else lit

def add (lit : StringLiteral) (c : Char) : StringLiteral :=
  let lit := lit.settle
  { lit with read := c :: lit.read }

def addUnit (lit : StringLiteral) (n : Nat) : StringLiteral :=
  match lit.half with
  | some m =>
    if isLow n then
      let c := Char.ofNat (0x10000 + (m - 0xD800) * 0x400 + (n - 0xDC00))
      { lit with read := c :: lit.read, half := none }
    else lit.settle
  | none =>
    if isHigh n then { lit with half := some n }
    else if isLow n then { lit with halved := true }
    else { lit with read := Char.ofNat n :: lit.read }

end StringLiteral

def escaped? : Char → Option Char
  | '"' => some '"'
  | '\\' => some '\\'
  | '/' => some '/'
  | 'b' => some (Char.ofNat 8)
  | 'f' => some (Char.ofNat 12)
  | 'n' => some '\n'
  | 'r' => some '\r'
  | 't' => some '\t'
  | _ => none

/-- Reads a string literal after its opening quote: the literal as far as it goes, and the text
after it or the fault that ends it. -/
def readString : StringLiteral → List Char → StringLiteral × Except Fault (List Char)
  | lit, [] => (lit, .error .truncated)
  | lit, '"' :: rest => (lit.settle, .ok rest)
  | lit, ['\\'] => (lit, .error .truncated)
  | lit, '\\' :: 'u' :: a :: b :: c :: d :: rest =>
    match CoreSchema.nat? 16 [a, b, c, d] with
    | some n => readString (lit.addUnit n) rest
    | none => (lit, .error .malformed)
  | lit, '\\' :: 'u' :: rest =>
    (lit, .error (if (Text.Utf8.encode rest).length < 4 then .truncated else .malformed))
  | lit, '\\' :: c :: rest =>
    match escaped? c with
    | some c => readString (lit.add c) rest
    | none => (lit.settle, .error .malformed)
  | lit, c :: rest =>
    if c.toNat < 0x20 then (lit.settle, .error .malformed) else readString (lit.add c) rest

def stringNode (cs : List Char) : Node × List Char :=
  match readString {} cs with
  | (lit, .ok rest) =>
    (if lit.halved then .bad .malformed none
      else .scalar (.str (String.ofList lit.read.reverse)), rest)
  | (lit, .error fault) => (.bad (if lit.halved then .malformed else fault) (some fault), [])

/-! ## Numbers -/

/-- Digits taken into a number of 64 bits, and how many were left over. -/
def takeDigits : Nat → List Char → Nat × List Char
  | n, [] => (n, [])
  | n, c :: rest =>
    let m := n * 10 + (c.toNat - 48)
    if m < Nat.pow 2 64 then takeDigits m rest else (n, c :: rest)

structure Numeral where
  negative : Bool
  whole : List Char
  places : Option (List Char)
  exponent : Option Int

/-- The number that a numeral stands for, if it is in range. -/
def Numeral.number? (numeral : Numeral) : Option Number :=
  let (n, surplus) := takeDigits 0 numeral.whole
  if numeral.places.isNone && numeral.exponent.isNone && surplus.isEmpty &&
      (!numeral.negative || (0 < n && n ≤ Nat.pow 2 63)) then
    some (.int (if numeral.negative then -n else n))
  else
    let places := numeral.places.getD []
    let (m, left) := takeDigits n places
    let shift : Int := surplus.length - (places.length - left.length : Nat)
    (Binary64.ofScaled numeral.negative m (shift + numeral.exponent.getD 0)).map .real

/-- The node of a numeral that breaks off before `rest`. -/
def brokenNumeral (rest : List Char) : Node × List Char :=
  (.bad (if rest.isEmpty then .truncated else .malformed) (some .malformed), [])

/-- The node of a numeral, whose value matters only to a reader. -/
def numeralNode (numeral : Numeral) (rest : List Char) : Node × List Char :=
  match numeral.number? with
  | some n => (.scalar (.num n), rest)
  | none => (.bad .malformed none, rest)

/-- Reads the exponent of a numeral, if it has one, and ends it. -/
def exponentNode (numeral : Numeral) (cs : List Char) : Node × List Char :=
  match cs with
  | [] => numeralNode numeral []
  | c :: rest =>
    if c = 'e' ∨ c = 'E' then
      let (negative, digits) := match rest with
        | '-' :: more => (true, more)
        | '+' :: more => (false, more)
        | more => (false, more)
      match CoreSchema.nat? 10 (digits.takeWhile Char.isDigit) with
      | some n =>
        numeralNode { numeral with exponent := some (if negative then -n else n) }
          (digits.dropWhile Char.isDigit)
      | none => brokenNumeral digits
    else numeralNode numeral cs

def numberNode (cs : List Char) : Node × List Char :=
  let (negative, cs) := match cs with
    | '-' :: rest => (true, rest)
    | rest => (false, rest)
  let whole := cs.takeWhile Char.isDigit
  let rest := cs.dropWhile Char.isDigit
  match whole with
  | [] => brokenNumeral rest
  | '0' :: _ :: _ => (.bad .malformed (some .malformed), [])
  | _ =>
    match rest with
    | '.' :: more =>
      match more.takeWhile Char.isDigit with
      | [] => brokenNumeral more
      | places => exponentNode ⟨negative, whole, some places, none⟩ (more.dropWhile Char.isDigit)
    | rest => exponentNode ⟨negative, whole, none, none⟩ rest

/-! ## Values -/

/-- The node of a word after its first letter, of which `word` is still to come. -/
def wordNode (value : Scalar) : List Char → List Char → Node × List Char
  | [], rest => (.scalar value, rest)
  | _ :: _, [] => (.bad .truncated (some .truncated), [])
  | w :: word, c :: rest =>
    if w = c then wordNode value word rest else (.bad .malformed (some .malformed), [])

def broken (fault : Fault) : Node × List Char :=
  (.bad fault (some fault), [])

def tooDeep (node : Node) : Node :=
  .bad .malformed node.skip

def maxDepth : Nat := 127

mutual

/-- The node at the start of a text, and the text after it. The first argument bounds the number of
steps, the second says how many more levels may be read. -/
def readValue : Nat → Nat → List Char → Node × List Char
  | 0, _, _ => broken .truncated
  | steps + 1, depth, cs =>
    match skipSpace cs with
    | [] => broken .truncated
    | 'n' :: rest => wordNode .null "ull".toList rest
    | 't' :: rest => wordNode (.bool true) "rue".toList rest
    | 'f' :: rest => wordNode (.bool false) "alse".toList rest
    | '"' :: rest => stringNode rest
    | '[' :: rest =>
      let (items, stop, rest) := readItems steps (depth - 1) true rest
      let node := .seq items stop true
      (if depth = 0 then tooDeep node else node, rest)
    | '\x7b' :: rest =>
      let (members, stop, rest) := readMembers steps (depth - 1) true rest
      let node := .map members stop
      (if depth = 0 then tooDeep node else node, rest)
    | c :: rest => if c = '-' ∨ c.isDigit then numberNode (c :: rest) else broken .malformed

/-- The items of a list up to its closing bracket; `first` says that no item has come yet. -/
def readItems : Nat → Nat → Bool → List Char → List Node × Option Fault × List Char
  | 0, _, _, _ => ([], some .truncated, [])
  | steps + 1, depth, first, cs =>
    match skipSpace cs with
    | [] => ([], some .truncated, [])
    | ']' :: rest => ([], none, rest)
    | c :: rest =>
      if first then nextItem steps depth (c :: rest)
      else if c = ',' then
        match skipSpace rest with
        | ']' :: _ => ([(broken .malformed).1], none, [])
        | rest => nextItem steps depth rest
      else ([], some .malformed, [])

def nextItem : Nat → Nat → List Char → List Node × Option Fault × List Char
  | 0, _, _ => ([], some .truncated, [])
  | steps + 1, depth, cs =>
    let (item, rest) := readValue steps depth cs
    match item with
    | .bad fault (some skipped) => ([.bad fault (some skipped)], none, [])
    | item =>
      let (items, stop, rest) := readItems steps depth false rest
      (item :: items, stop, rest)

/-- The members of a map up to its closing brace; `first` says that no member has come yet. -/
def readMembers : Nat → Nat → Bool → List Char → List (Node × Node) × Option Fault × List Char
  | 0, _, _, _ => ([], some .truncated, [])
  | steps + 1, depth, first, cs =>
    match skipSpace cs with
    | [] => ([], some .truncated, [])
    | '\x7d' :: rest => ([], none, rest)
    | c :: rest =>
      if first then nextMember steps depth (c :: rest)
      else if c = ',' then nextMember steps depth (skipSpace rest)
      else ([], some .malformed, [])

def nextMember : Nat → Nat → List Char → List (Node × Node) × Option Fault × List Char
  | 0, _, _ => ([], some .truncated, [])
  | _ + 1, _, [] => ([], some .truncated, [])
  | steps + 1, depth, '"' :: cs =>
    let (key, rest) := stringNode cs
    match key with
    | .bad fault (some skipped) => ([(.bad fault (some skipped), .scalar .null)], none, [])
    | key =>
      match skipSpace rest with
      | [] => ([(key, (broken .truncated).1)], none, [])
      | ':' :: rest =>
        let (value, rest) := readValue steps depth rest
        match value with
        | .bad fault (some skipped) => ([(key, .bad fault (some skipped))], none, [])
        | value =>
          let (members, stop, rest) := readMembers steps depth false rest
          ((key, value) :: members, stop, rest)
      | _ => ([(key, (broken .malformed).1)], none, [])
  | _ + 1, _, _ :: _ => ([], some .malformed, [])

end

/-- The tree of a text, and the fault of what follows the value. -/
def document (text : String) : Node × Option Fault :=
  let cs := text.toList
  let (node, rest) := readValue (3 * cs.length + 3) maxDepth cs
  (node, if (skipSpace rest).isEmpty then none else some .malformed)

def parse (text : String) : Except Fault Value := do
  let (node, after) := document text
  let value ← Read.result node.value
  Node.raise after
  return value

end ApiClient.Json
