/-!
# A place in a YAML text

Indentation and the reach of keys depend on places, so the text that is left is kept together with
the number of bytes before it in UTF-8, the line and the column. Columns count characters.
-/

namespace ApiClient.Yaml

def isBreak (c : Char) : Bool :=
  c == '\n' || c == '\r' || c.toNat == 0x85 || c.toNat == 0x2028 || c.toNat == 0x2029

def isBlank (c : Char) : Bool :=
  c == ' ' || c == '\t'

/-- Whether a character may stand in the names of anchors, handles and directives. -/
def isNameChar (c : Char) : Bool :=
  c.isAlphanum || c == '_' || c == '-'

def isAllowed (c : Char) : Bool :=
  let n := c.toNat
  n == 0x09 || n == 0x0A || n == 0x0D || (0x20 ≤ n && n ≤ 0x7E) || n == 0x85
    || (0xA0 ≤ n && n ≤ 0xD7FF) || (0xE000 ≤ n && n ≤ 0xFFFD) || (0x10000 ≤ n && n ≤ 0x10FFFF)

/-- The mark that may begin a text or a line. -/
def byteOrderMark : Char := Char.ofNat 0xFEFF

def byteLength (cs : List Char) : Nat :=
  cs.foldl (fun n c => n + c.utf8Size) 0

/-- A place in a text. -/
structure Cursor where
  rest : List Char
  /-- How long the whole text is. This bounds the steps that can be made. -/
  size : Nat := rest.length
  /-- How many bytes come before it. -/
  offset : Nat := 0
  line : Nat := 0
  column : Nat := 0

namespace Cursor

def peek (c : Cursor) : Option Char := c.rest.head?

/-- Goes over `n` characters of a line. -/
def skip (c : Cursor) (n : Nat := 1) : Cursor :=
  { c with
    rest := c.rest.drop n
    offset := c.offset + byteLength (c.rest.take n)
    column := c.column + n }

/-- Goes over the end of a line. -/
def skipBreak (c : Cursor) : Cursor :=
  match c.rest with
  | '\r' :: '\n' :: rest => { c with rest, offset := c.offset + 2, line := c.line + 1, column := 0 }
  | rest =>
    { c with
      rest := rest.drop 1
      offset := c.offset + byteLength (rest.take 1)
      line := c.line + 1
      column := 0 }

/-- Goes over the characters that satisfy `p`, all on one line. -/
def skipWhile (c : Cursor) (p : Char → Bool) : Cursor :=
  c.skip (c.rest.takeWhile p).length

def takeWhile (c : Cursor) (p : Char → Bool) : List Char :=
  c.rest.takeWhile p

def atEnd (c : Cursor) : Bool := c.rest.isEmpty

/-- Whether the line ends here. -/
def atBreak (c : Cursor) : Bool := c.peek.any isBreak

end Cursor

/-- Whether a text begins with a blank, the end of a line or its own end. -/
def endsWord : List Char → Bool
  | [] => true
  | c :: _ => isBlank c || isBreak c

/-- Whether a line begins with the mark of the start or end of a document. -/
def Cursor.atDocumentMark (c : Cursor) : Bool :=
  c.column == 0 &&
    match c.rest with
    | '-' :: '-' :: '-' :: rest => endsWord rest
    | '.' :: '.' :: '.' :: rest => endsWord rest
    | _ => false

/-- The characters that the end of a line stands for. Only the separators of lines and paragraphs
keep their own. -/
def Cursor.breakText (c : Cursor) : List Char :=
  match c.peek with
  | some b => if b.toNat == 0x2028 || b.toNat == 0x2029 then [b] else ['\n']
  | none => []

/-- Goes over blanks, a comment and the end of a line, which must follow. -/
def Cursor.skipLineRest (c : Cursor) : Option Cursor :=
  let c := c.skipWhile isBlank
  let c := if c.peek == some '#' then c.skipWhile (fun d => !isBreak d) else c
  if c.atEnd then some c else if c.atBreak then some c.skipBreak else none

end ApiClient.Yaml
