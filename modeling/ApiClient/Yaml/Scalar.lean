import ApiClient.Tree.CoreSchema
import ApiClient.Yaml.Cursor

/-!
# Scalars of a YAML text

A scalar in quotes and one without may go over several lines. A single end of a line in it stands
for a space, and of several all but the first stand. A scalar in a block keeps its lines or folds
them.
-/

namespace ApiClient.Yaml

inductive Style where
  | plain
  | quoted
  | literal
  | folded
deriving DecidableEq, Repr

/-- Blanks and ends of lines within a scalar. The characters stand last first. -/
inductive Gap where
  | none
  | blanks (cs : List Char)
  /-- The first end of a line, which may have been taken back, and those after it. -/
  | breaks (first : List Char) (more : List Char)

namespace Gap

/-- The characters that a gap stands for, last first. -/
def text : Gap → List Char
  | .none => []
  | .blanks cs => cs
  | .breaks ['\n'] [] => [' ']
  | .breaks ['\n'] more => more
  | .breaks first more => more ++ first

/-- Adds a blank. Blanks at the start of a line do not count. -/
def addBlank (b : Char) : Gap → Gap
  | .none => .blanks [b]
  | .blanks cs => .blanks (b :: cs)
  | gap => gap

def addBreak (b : List Char) : Gap → Gap
  | .breaks first more => .breaks first (b ++ more)
  | _ => .breaks b []

def isBroken : Gap → Bool
  | .breaks _ _ => true
  | _ => false

end Gap

/-! ## Without quotes -/

/-- Whether a scalar without quotes ends before these characters. -/
def endsPlain (inFlow : Bool) : List Char → Bool
  | [] => true
  | ':' :: rest => endsWord rest
  | c :: _ => inFlow && (c == ',' || c == '[' || c == ']' || c == '\x7b' || c == '\x7d')

/-- Whether a colon before a mark of the flow style makes a scalar ambiguous. -/
def isAmbiguous (inFlow : Bool) : List Char → Bool
  | ':' :: c :: _ =>
    inFlow && (c == ',' || c == '?' || c == '[' || c == ']' || c == '\x7b' || c == '\x7d')
  | _ => false

/-- Reads a scalar without quotes whose further lines begin at column `indent` or later. The text
comes last character first, together with what follows it. -/
def readPlain (inFlow : Bool) (indent : Int) :
    Nat → Cursor → List Char → Gap → Option (List Char × Gap × Cursor)
  | 0, _, _, _ => none
  | steps + 1, c, text, gap =>
    match c.rest with
    | [] => some (text, gap, c)
    | d :: rest =>
      if isBreak d then readPlain inFlow indent steps c.skipBreak text (gap.addBreak c.breakText)
      else if isBlank d then
        if gap.isBroken && c.column < indent && d == '\t' then none
        else readPlain inFlow indent steps c.skip text (gap.addBlank d)
      else
        let starts := match gap with | .none => false | _ => true
        if starts && ((!inFlow && (c.column : Int) < indent) || c.atDocumentMark || d == '#') then
          some (text, gap, c)
        else if isAmbiguous inFlow (d :: rest) then none
        else if endsPlain inFlow (d :: rest) then some (text, gap, c)
        else readPlain inFlow indent steps c.skip (d :: gap.text ++ text) .none

/-! ## In quotes -/

def escapedChar? : Char → Option Char
  | '0' => some (Char.ofNat 0)
  | 'a' => some (Char.ofNat 7)
  | 'b' => some (Char.ofNat 8)
  | 't' | '\t' => some '\t'
  | 'n' => some '\n'
  | 'v' => some (Char.ofNat 11)
  | 'f' => some (Char.ofNat 12)
  | 'r' => some '\r'
  | 'e' => some (Char.ofNat 27)
  | ' ' => some ' '
  | '"' => some '"'
  | '/' => some '/'
  | '\\' => some '\\'
  | 'N' => some (Char.ofNat 0x85)
  | '_' => some (Char.ofNat 0xA0)
  | 'L' => some (Char.ofNat 0x2028)
  | 'P' => some (Char.ofNat 0x2029)
  | _ => none

/-- How many digits follow the letter of a numeric escape. -/
def escapeLength? : Char → Option Nat
  | 'x' => some 2
  | 'u' => some 4
  | 'U' => some 8
  | _ => none

/-- Reads an escape after its backslash: the character, and how long the escape is. -/
def readEscape : List Char → Option (Char × Nat)
  | [] => none
  | d :: rest =>
    match escapedChar? d, escapeLength? d with
    | some e, _ => some (e, 1)
    | none, none => none
    | none, some n =>
      let digits := rest.take n
      match CoreSchema.nat? 16 digits with
      | none => none
      | some code =>
        if digits.length = n ∧ Nat.isValidChar code then some (Char.ofNat code, n + 1) else none

/-- Reads a scalar in quotes after its opening quote. The text comes last character first. -/
def readQuoted (quote : Char) : Nat → Cursor → List Char → Gap → Option (List Char × Cursor)
  | 0, _, _, _ => none
  | steps + 1, c, text, gap =>
    if c.atDocumentMark then none else
    match c.rest with
    | [] => none
    | d :: rest =>
      if isBreak d then readQuoted quote steps c.skipBreak text (gap.addBreak c.breakText)
      else if isBlank d then readQuoted quote steps c.skip text (gap.addBlank d)
      else
        let text := gap.text ++ text
        if d == quote then
          if quote == '\'' && rest.head? == some '\'' then
            readQuoted quote steps (c.skip 2) ('\'' :: text) .none
          else some (text, c.skip)
        else if d == '\\' && quote == '"' then
          if rest.head?.any isBreak then
            readQuoted quote steps c.skip.skipBreak text (.breaks [] [])
          else
            match readEscape rest with
            | some (e, n) => readQuoted quote steps (c.skip (n + 1)) (e :: text) .none
            | none => none
        else readQuoted quote steps c.skip (d :: text) .none

/-! ## In blocks -/

/-- What becomes of the ends of lines at the end of a block. -/
inductive Chomping where
  | clip
  | strip
  | keep
deriving DecidableEq

/-- The header of a block: what becomes of its last lines, and how far it is indented, if it says
so. -/
structure BlockHeader where
  chomping : Chomping := .clip
  increment : Option Nat := none

/-- Reads the sign in the header of a block. -/
def readChomping (c : Cursor) : Option (Chomping × Cursor) :=
  match c.peek with
  | some '+' => some (.keep, c.skip)
  | some '-' => some (.strip, c.skip)
  | _ => none

/-- Reads the digit in the header of a block, which must not be zero; the outer option says whether
the header can be read. -/
def readIncrement (c : Cursor) : Option (Option Nat × Cursor) :=
  match c.peek with
  | some d =>
    if d == '0' then none
    else if d.isDigit then some (some (d.toNat - 48), c.skip)
    else some (none, c)
  | none => some (none, c)

/-- Reads the header of a block after its first character, with its sign and digit in any order. -/
def readBlockHeader (c : Cursor) : Option (BlockHeader × Cursor) := do
  match readChomping c with
  | some (chomping, c) =>
    let (increment, c) ← readIncrement c
    return (⟨chomping, increment⟩, ← c.skipLineRest)
  | none =>
    let (increment, c) ← readIncrement c
    match increment, readChomping c with
    | some _, some (chomping, c) => return (⟨chomping, increment⟩, ← c.skipLineRest)
    | _, _ => return (⟨.clip, increment⟩, ← c.skipLineRest)

/-- Goes over indentation and empty lines. The result has the ends of those lines, last first, and
the greatest column that was reached. An indentation of zero is one that is not known yet. -/
def readBlockBreaks (indent : Nat) :
    Nat → Cursor → List Char → Nat → Option (List Char × Nat × Cursor)
  | 0, _, _, _ => none
  | steps + 1, c, breaks, reached =>
    match c.peek with
    | some d =>
      let inside := indent == 0 || c.column < indent
      if inside && d == ' ' then
        readBlockBreaks indent steps c.skip breaks (max reached (c.column + 1))
      else if inside && d == '\t' then none
      else if isBreak d then
        readBlockBreaks indent steps c.skipBreak (c.breakText ++ breaks) (max reached c.column)
      else some (breaks, max reached c.column, c)
    | none => some (breaks, max reached c.column, c)

/-- The end of a line that waits for the next one, and the empty lines after it, last first. -/
structure BlockTail where
  first : List Char := []
  more : List Char := []

/-- The characters between two lines of a block, last first. In a folded block the end of a line
becomes a space, unless empty lines follow it or one of the lines begins with a blank. -/
def BlockTail.text (tail : BlockTail) (fold : Bool) : List Char :=
  if fold && tail.first == ['\n'] then
    if tail.more.isEmpty then [' '] else tail.more
  else tail.more ++ tail.first

/-- Reads the lines of a block that is indented by `indent`. The text comes last character first. -/
def readBlockLines (folded : Bool) (indent : Nat) :
    Nat → Cursor → List Char → BlockTail → Bool → Option (List Char × BlockTail × Cursor)
  | 0, _, _, _, _ => none
  | steps + 1, c, text, tail, afterBlank =>
    if c.column == indent && !c.atEnd then do
      let blank := c.peek.any isBlank
      let text := tail.text (folded && !afterBlank && !blank) ++ text
      let line := c.takeWhile fun d => !isBreak d
      let c := c.skip line.length
      let first := c.breakText
      let c := if c.atEnd then c else c.skipBreak
      let (more, _, c) ← readBlockBreaks indent (c.size + 1) c [] 0
      readBlockLines folded indent steps c (line.reverse ++ text) ⟨first, more⟩ blank
    else some (text, tail, c)

/-- Reads a block after its first character, inside a block that is indented by `outer`. -/
def readBlock (folded : Bool) (outer : Int) (c : Cursor) : Option (String × Cursor) := do
  let (header, c) ← readBlockHeader c
  let given := header.increment.elim 0 fun n => (max outer 0).toNat + n
  let (more, reached, c) ← readBlockBreaks given (c.size + 1) c [] 0
  let indent := if given = 0 then max (max reached (outer + 1).toNat) 1 else given
  let (text, tail, c) ← readBlockLines folded indent (c.size + 1) c [] ⟨[], more⟩ false
  let text := match header.chomping with
    | .strip => text
    | .clip => tail.first ++ text
    | .keep => tail.more ++ tail.first ++ text
  return (String.ofList text.reverse, c)

end ApiClient.Yaml
