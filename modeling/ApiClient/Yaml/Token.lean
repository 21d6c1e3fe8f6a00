import ApiClient.Yaml.Scalar
import ApiClient.Yaml.Tag

/-!
# Tokens of a YAML text

Indentation becomes tokens of its own: a token where a block of entries or of keys begins and one
where it ends. A node that turns out to be a key gets its token when the colon after it is met, so
the places at which a key may begin are remembered, one for each level of brackets. A key has to
stand on one line and to be no longer than 1024 bytes in UTF-8.
-/

namespace ApiClient.Yaml

inductive Token where
  | directive (d : Directive)
  | documentStart
  | documentEnd
  | blockSequenceStart
  | blockMappingStart
  | blockEnd
  | flowSequenceStart
  | flowSequenceEnd
  | flowMappingStart
  | flowMappingEnd
  | blockEntry
  | flowEntry
  | key
  | value
  | link (name : String)
  | anchor (name : String)
  | tag (handle : String) (suffix : List Nat)
  | scalar (text : String) (style : Style)
deriving DecidableEq, Repr

structure KeyPlace where
  /-- How many tokens come before it. -/
  token : Nat
  /-- Whether there must be a key. -/
  required : Bool
  /-- How many bytes come before it. -/
  offset : Nat
  line : Nat
  column : Nat

/-- How far a text has been cut into tokens. -/
structure Lexing where
  cursor : Cursor
  tokens : Array Token := #[]
  /-- Whether a key may begin at the cursor. -/
  keyAllowed : Bool := true
  /-- The place of the key on each level of brackets, the innermost first. -/
  keys : List (Option KeyPlace) := [none]
  /-- The column of the innermost block. -/
  indent : Int := -1
  /-- The columns of the blocks around it, the innermost first. -/
  indents : List Int := []

namespace Lexing

def inFlow (l : Lexing) : Bool := l.keys.length > 1

def push (l : Lexing) (t : Token) : Lexing := { l with tokens := l.tokens.push t }

/-- Adds a token and goes over the `n` characters that it consists of. -/
def pushOver (l : Lexing) (t : Token) (n : Nat := 1) : Lexing :=
  { l with tokens := l.tokens.push t, cursor := l.cursor.skip n }

def allowKey (l : Lexing) (b : Bool) : Lexing := { l with keyAllowed := b }

/-- Gives up the key of the innermost level, which must not be required. -/
def dropKey (l : Lexing) : Option Lexing :=
  match l.keys with
  | some place :: rest => if place.required then none else some { l with keys := none :: rest }
  | _ => some l

def saveKey (l : Lexing) : Option Lexing :=
  if l.keyAllowed then do
    let l ← l.dropKey
    let c := l.cursor
    let place : KeyPlace :=
      ⟨l.tokens.size, !l.inFlow && l.indent == (c.column : Int), c.offset, c.line, c.column⟩
    return { l with keys := some place :: l.keys.drop 1 }
  else some l

/-- Whether the cursor is too far away from the place of a key. -/
def isStale (c : Cursor) (place : KeyPlace) : Bool :=
  place.line < c.line || place.offset + 1024 < c.offset

/-- Gives up the keys that are too far away, none of which must be required. -/
def dropStaleKeys (l : Lexing) : Option Lexing := do
  let keys ← l.keys.mapM fun key =>
    match key with
    | some place =>
      if isStale l.cursor place then if place.required then none else some none
      else some (some place)
    | none => some none
  return { l with keys }

/-- Begins a block at a column, unless it goes on there. The token stands before the token with the
given number. -/
def rollIndent (l : Lexing) (column : Nat) (start : Token) (at_ : Nat) : Lexing :=
  if !l.inFlow && l.indent < column then
    { l with
      tokens := l.tokens.insertIdxIfInBounds at_ start
      indent := column
      indents := l.indent :: l.indents }
  else l

def unrollIndents (column : Int) : List Int → Int → Array Token → List Int × Int × Array Token
  | [], indent, tokens => ([], indent, tokens)
  | outer :: rest, indent, tokens =>
    if column < indent then unrollIndents column rest outer (tokens.push .blockEnd)
    else (outer :: rest, indent, tokens)

def unrollIndent (l : Lexing) (column : Int) : Lexing :=
  if l.inFlow then l
  else
    let (indents, indent, tokens) := unrollIndents column l.indents l.indent l.tokens
    { l with indents, indent, tokens }

/-- Goes over blanks, comments and ends of lines. A tab is a blank only where no key may begin. -/
def skipToToken : Nat → Lexing → Lexing
  | 0, l => l
  | steps + 1, l =>
    let c := l.cursor
    let c := if c.column == 0 && c.peek == some byteOrderMark then c.skip else c
    let c := c.skipWhile fun d => d == ' ' || ((l.inFlow || !l.keyAllowed) && d == '\t')
    let c := if c.peek == some '#' then c.skipWhile fun d => !isBreak d else c
    if c.atBreak then
      skipToToken steps { l with cursor := c.skipBreak, keyAllowed := l.keyAllowed || !l.inFlow }
    else { l with cursor := c }

def openFlow (l : Lexing) (t : Token) : Option Lexing := do
  let l ← l.saveKey
  return ({ l with keys := none :: l.keys }.allowKey true).pushOver t

def closeFlow (l : Lexing) (t : Token) : Option Lexing := do
  let l ← l.dropKey
  let keys := match l.keys with
    | _ :: outer :: rest => outer :: rest
    | keys => keys
  return ({ l with keys }.allowKey false).pushOver t

def blockEntry (l : Lexing) : Option Lexing := do
  if !l.inFlow && !l.keyAllowed then none else
  let l := l.rollIndent l.cursor.column .blockSequenceStart l.tokens.size
  let l ← l.dropKey
  return (l.allowKey true).pushOver .blockEntry

def explicitKey (l : Lexing) : Option Lexing := do
  if !l.inFlow && !l.keyAllowed then none else
  let l := l.rollIndent l.cursor.column .blockMappingStart l.tokens.size
  let l ← l.dropKey
  return (l.allowKey (!l.inFlow)).pushOver .key

/-- The token of a colon, and that of the key before it if the key had none. -/
def valueMark (l : Lexing) : Option Lexing :=
  match l.keys with
  | some place :: rest =>
    let l := { l with
      tokens := l.tokens.insertIdxIfInBounds place.token .key, keys := none :: rest }
    let l := l.rollIndent place.column .blockMappingStart place.token
    some ((l.allowKey false).pushOver .value)
  | _ =>
    if !l.inFlow && !l.keyAllowed then none else
    let l := l.rollIndent l.cursor.column .blockMappingStart l.tokens.size
    some ((l.allowKey (!l.inFlow)).pushOver .value)

def documentMark (l : Lexing) (t : Token) : Option Lexing := do
  let l ← (l.unrollIndent (-1)).dropKey
  return (l.allowKey false).pushOver t 3

def directive (l : Lexing) : Option Lexing := do
  let l ← (l.unrollIndent (-1)).dropKey
  let (d, c) ← readDirective l.cursor.skip
  return { l.allowKey false with cursor := c, tokens := l.tokens.push (.directive d) }

def plain (l : Lexing) : Option Lexing := do
  let l ← l.saveKey
  let (text, gap, c) ← readPlain l.inFlow (l.indent + 1) (l.cursor.size + 1) l.cursor [] .none
  return {
    l.allowKey gap.isBroken with
    cursor := c
    tokens := l.tokens.push (.scalar (String.ofList text.reverse) .plain) }

def quoted (l : Lexing) (quote : Char) : Option Lexing := do
  let l ← l.saveKey
  let (text, c) ← readQuoted quote (l.cursor.size + 1) l.cursor.skip [] .none
  return {
    l.allowKey false with
    cursor := c
    tokens := l.tokens.push (.scalar (String.ofList text.reverse) .quoted) }

def block (l : Lexing) (folded : Bool) : Option Lexing := do
  let l ← l.dropKey
  let (text, c) ← readBlock folded l.indent l.cursor.skip
  return {
    l.allowKey true with
    cursor := c
    tokens := l.tokens.push (.scalar text (if folded then .folded else .literal)) }

def name (l : Lexing) (token : String → Token) : Option Lexing := do
  let l ← l.saveKey
  let (name, c) ← readAnchor l.cursor.skip
  return { l.allowKey false with cursor := c, tokens := l.tokens.push (token name) }

def tag (l : Lexing) : Option Lexing := do
  let l ← l.saveKey
  let (handle, suffix, c) ← readTag l.inFlow l.cursor
  return { l.allowKey false with cursor := c, tokens := l.tokens.push (.tag handle suffix) }

/-- Whether a scalar without quotes may begin with a character before the given text. -/
def startsPlain (inFlow : Bool) (d : Char) (rest : List Char) : Bool :=
  if isBlank d then false
  else if d == '-' then !(rest.head?.any isBlank)
  else if d == '?' || d == ':' then !inFlow && !endsWord rest
  else !(",[]\x7b\x7d#&*!|>'\"%@".toList.contains d || d.toNat == 0x60)

/-- Adds the token that begins with a character at the cursor. -/
def token (l : Lexing) (d : Char) (rest : List Char) : Option Lexing :=
  if l.cursor.column == 0 && d == '%' then l.directive
  else if l.cursor.atDocumentMark then
    l.documentMark (if d == '-' then .documentStart else .documentEnd)
  else if d == '[' then l.openFlow .flowSequenceStart
  else if d == '\x7b' then l.openFlow .flowMappingStart
  else if d == ']' then l.closeFlow .flowSequenceEnd
  else if d == '\x7d' then l.closeFlow .flowMappingEnd
  else if d == ',' then do
    let l ← l.dropKey
    return (l.allowKey true).pushOver .flowEntry
  else if d == '-' && endsWord rest then l.blockEntry
  else if d == '?' && (l.inFlow || endsWord rest) then l.explicitKey
  else if d == ':' && (l.inFlow || endsWord rest) then l.valueMark
  else if d == '*' then l.name .link
  else if d == '&' then l.name .anchor
  else if d == '!' then l.tag
  else if d == '|' && !l.inFlow then l.block false
  else if d == '>' && !l.inFlow then l.block true
  else if d == '\'' || d == '"' then l.quoted d
  else if startsPlain l.inFlow d rest then l.plain
  else none

/-- Ends the last line, all blocks and all keys. -/
def finish (l : Lexing) : Option (List Token) := do
  let l ← (l.unrollIndent (-1)).dropKey
  return l.tokens.toList

/-- Adds all tokens. The first argument bounds their number. -/
def run : Nat → Lexing → Option (List Token)
  | 0, _ => none
  | steps + 1, l => do
    let l := skipToToken (l.cursor.size + 1) l
    let l ← l.dropStaleKeys
    let l := l.unrollIndent l.cursor.column
    match l.cursor.rest with
    | [] => l.finish
    | d :: rest => run steps (← l.token d rest)

end Lexing

/-- The tokens of a text, if it can be cut into tokens. -/
def tokens (text : String) : Option (List Token) :=
  let cs := text.toList
  if cs.all isAllowed then Lexing.run (cs.length + 1) { cursor := { rest := cs } } else none

end ApiClient.Yaml
