import ApiClient.Text.Utf8
import ApiClient.Tree.CoreSchema
import ApiClient.Yaml.Cursor

/-!
# Anchors, tags and directives

The parts of a YAML text that say something about a node or about the document. A tag is made of
bytes, since it may hold escaped ones that are no text.
-/

namespace ApiClient.Yaml

/-- Reads the name of an anchor or an alias after its first character. -/
def readAnchor (c : Cursor) : Option (String × Cursor) :=
  let name := c.takeWhile isNameChar
  let c := c.skip name.length
  let ends := match c.rest with
    | [] => true
    | d :: _ => endsWord [d] || "?:,]\x7d%@".toList.contains d || d.toNat == 0x60
  if name.isEmpty || !ends then none else some (String.ofList name, c)

/-- Whether a character may stand in a tag. In a tag between angle brackets some marks of the flow
style may too. -/
def isTagChar (verbatim : Bool) (c : Char) : Bool :=
  isNameChar c || ";/?:@&=+$.%!~*'()".toList.contains c || (verbatim && ",[]".toList.contains c)

/-- Reads a byte that is written as a percent sign and two digits. -/
def readByte : List Char → Option (Nat × List Char)
  | '%' :: a :: b :: rest => (CoreSchema.nat? 16 [a, b]).map (·, rest)
  | _ => none

/-- How many bytes a character has that begins with a byte. -/
def byteCount? (b : Nat) : Option Nat :=
  if b < 0x80 then some 1
  else if 0xC0 ≤ b ∧ b < 0xE0 then some 2
  else if 0xE0 ≤ b ∧ b < 0xF0 then some 3
  else if 0xF0 ≤ b ∧ b < 0xF8 then some 4
  else none

def readContinuation : Nat → List Char → Option (List Nat × List Char)
  | 0, cs => some ([], cs)
  | n + 1, cs => do
    let (b, rest) ← readByte cs
    if 0x80 ≤ b ∧ b < 0xC0 then
      let (bs, rest) ← readContinuation n rest
      return (b :: bs, rest)
    else none

def readEscapedChar (cs : List Char) : Option (List Nat × List Char) := do
  let (b, rest) ← readByte cs
  let n ← byteCount? b
  let (bs, rest) ← readContinuation (n - 1) rest
  return (b :: bs, rest)

/-- Reads the bytes of a tag. The first argument bounds the number of steps. -/
def readTagBytesFrom (verbatim : Bool) : Nat → Cursor → Option (List Nat × Cursor)
  | 0, _ => none
  | steps + 1, c =>
    match c.rest with
    | [] => some ([], c)
    | d :: _ =>
      if !isTagChar verbatim d then some ([], c)
      else if d == '%' then do
        let (escaped, rest) ← readEscapedChar c.rest
        let (bytes, c) ← readTagBytesFrom verbatim steps (c.skip (c.rest.length - rest.length))
        return (escaped ++ bytes, c)
      else do
        let (bytes, c) ← readTagBytesFrom verbatim steps c.skip
        return (Text.Utf8.encodeChar d ++ bytes, c)

def readTagBytes (verbatim : Bool) (c : Cursor) : Option (List Nat × Cursor) :=
  readTagBytesFrom verbatim (c.size + 1) c

/-- The bytes before the first NUL. A tag counts only so far. -/
def beforeNul (bytes : List Nat) : List Nat :=
  bytes.takeWhile (· != 0)

/-- Reads what may be the handle of a tag: an exclamation mark, a name, and another exclamation mark
if there is one. -/
def readHandle (c : Cursor) : Option (List Char × Cursor) :=
  if c.peek == some '!' then
    let c := c.skip
    let name := c.takeWhile isNameChar
    let c := c.skip name.length
    if c.peek == some '!' then some ('!' :: (name ++ ['!']), c.skip) else some ('!' :: name, c)
  else none

/-- Whether the characters after the first exclamation mark end in another one. -/
def isHandle (cs : List Char) : Bool :=
  1 < cs.length && cs.getLast? == some '!'

/-- Reads a tag: its handle and what follows it. A tag between angle brackets, and the tag that is
nothing but an exclamation mark, have no handle. -/
def readTag (inFlow : Bool) (c : Cursor) : Option (String × List Nat × Cursor) := do
  let (handle, suffix, c) ←
    match c.rest with
    | '!' :: '<' :: _ => do
      let (bytes, c) ← readTagBytes true (c.skip 2)
      if bytes.isEmpty || c.peek != some '>' then none else some ("", beforeNul bytes, c.skip)
    | _ => do
      let (head, c) ← readHandle c
      let (bytes, c) ← readTagBytes false c
      if isHandle head then
        if bytes.isEmpty then none else some (String.ofList head, beforeNul bytes, c)
      else
        match beforeNul (Text.Utf8.encode (head.drop 1) ++ bytes) with
        | [] => some ("", Text.Utf8.encode ['!'], c)
        | suffix => some ("!", suffix, c)
  if (inFlow && c.peek == some ',') || endsWord c.rest then some (handle, suffix, c) else none

/-- What a tag says about its node. -/
inductive Tag where
  | core (type : CoreTag)
  /-- The node is of a kind that is not known to the core schema. -/
  | label
deriving DecidableEq, Repr

/-- What the bytes of a tag say. A tag that begins with an exclamation mark is a label. If its bytes
are no text, it says nothing. -/
def Tag.ofBytes (bytes : List Nat) : Tag :=
  match Text.Utf8.decode bytes with
  | '!' :: rest => if Text.Utf8.encode ('!' :: rest) = bytes then .label else .core .untyped
  | cs =>
    match String.ofList cs with
    | "tag:yaml.org,2002:bool" => .core .bool
    | "tag:yaml.org,2002:int" => .core .int
    | "tag:yaml.org,2002:float" => .core .float
    | "tag:yaml.org,2002:null" => .core .null
    | _ => .core .text

inductive Directive where
  | version (major minor : Nat)
  /-- What a handle of tags stands for. -/
  | tag (handle : String) (start : List Nat)
deriving DecidableEq, Repr

def readVersionNumber (c : Cursor) : Option (Nat × Cursor) :=
  let digits := c.takeWhile Char.isDigit
  if digits.length > 9 then none
  else (CoreSchema.nat? 10 digits).map (·, c.skip digits.length)

def readDirectiveValue (name : String) (c : Cursor) : Option (Directive × Cursor) := do
  let c := c.skipWhile isBlank
  if name = "YAML" then
    let (major, c) ← readVersionNumber c
    if c.peek != some '.' then none else
    let (minor, c) ← readVersionNumber c.skip
    return (.version major minor, c)
  else if name = "TAG" then
    let (handle, c) ← readHandle c
    if !(isHandle handle || handle == ['!']) || !c.peek.any isBlank then none else
    let (bytes, c) ← readTagBytes true (c.skipWhile isBlank)
    if bytes.isEmpty || !endsWord c.rest then none else
    return (.tag (String.ofList handle) (beforeNul bytes), c)
  else none

/-- Reads a directive after its percent sign, up to the end of its line. -/
def readDirective (c : Cursor) : Option (Directive × Cursor) := do
  let name := c.takeWhile isNameChar
  let c := c.skip name.length
  if name.isEmpty || !endsWord c.rest then none else
  let (directive, c) ← readDirectiveValue (String.ofList name) c
  return (directive, ← c.skipLineRest)

end ApiClient.Yaml
