/-!
# UTF-8

The bytes of a text, and the reading of arbitrary bytes as text. The reading replaces every longest
piece that begins a character but cannot be finished by one replacement character, so it always
succeeds and is the identity on the bytes of a text.
-/

namespace ApiClient.Text.Utf8

def encodeChar (c : Char) : List Nat :=
  let n := c.toNat
  if n < 0x80 then [n]
  else if n < 0x800 then [0xC0 + n / 0x40, 0x80 + n % 0x40]
  else if n < 0x10000 then [0xE0 + n / 0x1000, 0x80 + n / 0x40 % 0x40, 0x80 + n % 0x40]
  else [0xF0 + n / 0x40000, 0x80 + n / 0x1000 % 0x40, 0x80 + n / 0x40 % 0x40, 0x80 + n % 0x40]

def encode (cs : List Char) : List Nat :=
  cs.flatMap encodeChar

/-- A character of which only the first bytes have been read. -/
structure Pending where
  code : Nat
  missing : Nat
  /-- The least byte that may come next. -/
  low : Nat := 0x80
  /-- The greatest byte that may come next. -/
  high : Nat := 0xBF

def replacement : Char := Char.ofNat 0xFFFD

/-- The effect of a byte that begins a character: what is read, and what is left pending. -/
def start (b : Nat) : List Char × Option Pending :=
  if b < 0x80 then ([Char.ofNat b], none)
  else if 0xC2 ≤ b ∧ b ≤ 0xDF then ([], some ⟨b - 0xC0, 1, 0x80, 0xBF⟩)
  else if b = 0xE0 then ([], some ⟨0, 2, 0xA0, 0xBF⟩)
  else if b = 0xED then ([], some ⟨0xD, 2, 0x80, 0x9F⟩)
  else if 0xE1 ≤ b ∧ b ≤ 0xEF then ([], some ⟨b - 0xE0, 2, 0x80, 0xBF⟩)
  else if b = 0xF0 then ([], some ⟨0, 3, 0x90, 0xBF⟩)
  else if b = 0xF4 then ([], some ⟨4, 3, 0x80, 0x8F⟩)
  else if 0xF1 ≤ b ∧ b ≤ 0xF3 then ([], some ⟨b - 0xF0, 3, 0x80, 0xBF⟩)
  else ([replacement], none)

/-- The effect of a byte after a pending character. A byte that cannot continue it ends it as a
replacement character and then begins a character itself. -/
def extend (p : Pending) (b : Nat) : List Char × Option Pending :=
  if p.low ≤ b ∧ b ≤ p.high then
    let code := p.code * 0x40 + (b - 0x80)
    if p.missing = 1 then ([Char.ofNat code], none)
    else ([], some ⟨code, p.missing - 1, 0x80, 0xBF⟩)
  else
    let (read, rest) := start b
    (replacement :: read, rest)

def decodeFrom : Option Pending → List Nat → List Char
  | none, [] => []
  | some _, [] => [replacement]
  | none, b :: bs =>
    let (read, rest) := start b
    read ++ decodeFrom rest bs
  | some p, b :: bs =>
    let (read, rest) := extend p b
    read ++ decodeFrom rest bs

def decode (bytes : List Nat) : List Char :=
  decodeFrom none bytes

end ApiClient.Text.Utf8
