import ApiClient.Table
import ApiClient.Yaml.Token

/-!
# The tree of a YAML text

Tokens make up nodes: scalars, sequences and maps, written in blocks or between brackets. A node may
have an anchor, and an alias stands for the node with that anchor. An alias may stand inside the
very node that it stands for, so aliases stay in the tree as numbers of anchors.

An anchor gets the number of different names that came before it. A name that is used again gets a
new number but is not counted again, so two anchors may share a number; the later one counts then.
-/

namespace ApiClient.Yaml

inductive Tree where
  /-- The node with the anchor of this number. -/
  | link (anchor : Nat)
  | scalar (text : String) (style : Style) (tag : Option Tag)
  | seq (tag : Option Tag) (items : List Tree)
  | map (tag : Option Tag) (members : List (Tree × Tree))
deriving Inhabited

/-- The node that stands where nothing is written. -/
def Tree.nothing (tag : Option Tag := none) : Tree := .scalar "" .plain tag

structure Anchors where
  /-- The numbers of the names. -/
  numbers : Table Nat := []
  /-- The nodes with anchors in the order in which they begin, each with its number. -/
  nodes : Array (Nat × Tree) := #[]

namespace Anchors

def declare (anchors : Anchors) (name : String) : Anchors :=
  let number := anchors.numbers.length
  ⟨anchors.numbers.put name number, anchors.nodes.push (number, .link number)⟩

def complete (anchors : Anchors) (place : Nat) (node : Tree) : Anchors :=
  { anchors with nodes := anchors.nodes.modify place fun (number, _) => (number, node) }

def trees (anchors : Anchors) : Array Tree :=
  anchors.nodes.foldl (fun trees (number, node) => trees.setIfInBounds number node)
    (Array.replicate (anchors.numbers.length + 1) .nothing)

end Anchors

/-- What is left of the tokens while trees are read, and what holds for them. -/
structure Remainder where
  tokens : List Token
  /-- What the handles of tags stand for. -/
  handles : Table (List Nat)
  anchors : Anchors := {}

/-- A step that reads tokens and fails where they do not fit. -/
abbrev Parse := StateT Remainder Option

namespace Parse

def peek : Parse (Option Token) := do return (← get).tokens.head?

def advance : Parse Unit := modify fun r => { r with tokens := r.tokens.drop 1 }

/-- Goes over the next token if it is the given one, and says whether it was. -/
def accept (token : Token) : Parse Bool := do
  if (← peek) = some token then
    advance
    return true
  else return false

def number (name : String) : Parse Nat := do
  match (← get).anchors.numbers.get? name with
  | some number => return number
  | none => failure

def declare (name : String) : Parse Nat := do
  let place := (← get).anchors.nodes.size
  modify fun r => { r with anchors := r.anchors.declare name }
  return place

def complete (place : Option Nat) (node : Tree) : Parse Unit :=
  match place with
  | some place => modify fun r => { r with anchors := r.anchors.complete place node }
  | none => pure ()

def anchor? : Parse (Option Nat) := do
  match ← peek with
  | some (.anchor name) =>
    advance
    return some (← declare name)
  | _ => return none

def tag? : Parse (Option Tag) := do
  match ← peek with
  | some (.tag handle suffix) =>
    advance
    if handle.isEmpty then return some (.ofBytes suffix)
    match (← get).handles.get? handle with
    | some start => return some (.ofBytes (start ++ suffix))
    | none => failure
  | _ => return none

/-- Reads the anchor and the tag before a node, in any order. -/
def properties : Parse (Option Nat × Option Tag) := do
  match ← anchor? with
  | some place => return (some place, ← tag?)
  | none =>
    let tag ← tag?
    if tag.isSome then return (← anchor?, tag) else return (none, none)

mutual

/-- Reads a node. `block` says whether it may be written as a block, and `compact` whether the
entries of a sequence may follow without a block of their own. -/
def node : Nat → Bool → Bool → Parse Tree
  | 0, _, _ => failure
  | steps + 1, block, compact => do
    match ← peek with
    | some (.link name) =>
      advance
      return .link (← number name)
    | _ =>
      let (place, tag) ← properties
      let tree ← content steps block compact (place.isSome || tag.isSome) tag
      complete place tree
      return tree

/-- Reads a node after its anchor and tag. If it has one of them, nothing needs to follow. -/
def content : Nat → Bool → Bool → Bool → Option Tag → Parse Tree
  | 0, _, _, _, _ => failure
  | steps + 1, block, compact, described, tag => do
    match ← peek with
    | some (.scalar text style) =>
      advance
      return .scalar text style tag
    | some .flowSequenceStart =>
      advance
      return .seq tag (← flowItems steps true [])
    | some .flowMappingStart =>
      advance
      return .map tag (← flowMembers steps true [])
    | next =>
      if compact && next = some .blockEntry then
        return .seq tag (← compactItems steps [])
      else if block && next = some .blockSequenceStart then
        advance
        return .seq tag (← blockItems steps [])
      else if block && next = some .blockMappingStart then
        advance
        return .map tag (← blockMembers steps [])
      else if described then return .nothing tag
      else failure

/-- Reads a node, or nothing before one of the given tokens. -/
def nodeBefore : Nat → Bool → Bool → List Token → Parse Tree
  | 0, _, _, _ => failure
  | steps + 1, block, compact, stops => do
    if (← peek).any stops.contains then return .nothing else node steps block compact

def valueBefore : Nat → Bool → List Token → Parse Tree
  | 0, _, _ => failure
  | steps + 1, block, stops => do
    if ← accept .value then nodeBefore steps block block stops else return .nothing

def blockItems : Nat → List Tree → Parse (List Tree)
  | 0, _ => failure
  | steps + 1, items => do
    if ← accept .blockEntry then
      let item ← nodeBefore steps true false [.blockEntry, .blockEnd]
      blockItems steps (item :: items)
    else if ← accept .blockEnd then return items.reverse
    else failure

def compactItems : Nat → List Tree → Parse (List Tree)
  | 0, _ => failure
  | steps + 1, items => do
    if ← accept .blockEntry then
      let item ← nodeBefore steps true false [.blockEntry, .key, .value, .blockEnd]
      compactItems steps (item :: items)
    else return items.reverse

def blockMembers : Nat → List (Tree × Tree) → Parse (List (Tree × Tree))
  | 0, _ => failure
  | steps + 1, members => do
    if ← accept .key then
      let stops := [.key, .value, .blockEnd]
      let key ← nodeBefore steps true true stops
      let value ← valueBefore steps true stops
      blockMembers steps ((key, value) :: members)
    else if ← accept .blockEnd then return members.reverse
    else failure

/-- Reads the items between brackets. `first` says that none has come yet. -/
def flowItems : Nat → Bool → List Tree → Parse (List Tree)
  | 0, _, _ => failure
  | steps + 1, first, items => do
    if ← accept .flowSequenceEnd then return items.reverse
    else if !first && !(← accept .flowEntry) then failure
    else if ← accept .flowSequenceEnd then return items.reverse
    else if ← accept .key then
      let pair ← flowPair steps
      flowItems steps false (.map none [pair] :: items)
    else
      let item ← node steps false false
      flowItems steps false (item :: items)

/-- Reads a key and its value that stand as an item between brackets. Where the key is missing, the
token after it is passed over. -/
def flowPair : Nat → Parse (Tree × Tree)
  | 0 => failure
  | steps + 1 => do
    let stops := [.value, .flowEntry, .flowSequenceEnd]
    let key ← if (← peek).any stops.contains then do
        advance
        pure .nothing
      else node steps false false
    return (key, ← valueBefore steps false [.flowEntry, .flowSequenceEnd])

/-- Reads the members between braces. `first` says that none has come yet. -/
def flowMembers : Nat → Bool → List (Tree × Tree) → Parse (List (Tree × Tree))
  | 0, _, _ => failure
  | steps + 1, first, members => do
    if ← accept .flowMappingEnd then return members.reverse
    else if !first && !(← accept .flowEntry) then failure
    else if ← accept .flowMappingEnd then return members.reverse
    else if ← accept .key then
      let key ← nodeBefore steps false false [.value, .flowEntry, .flowMappingEnd]
      let value ← valueBefore steps false [.flowEntry, .flowMappingEnd]
      flowMembers steps false ((key, value) :: members)
    else
      let key ← node steps false false
      flowMembers steps false ((key, .nothing) :: members)

end

end Parse

structure Document where
  root : Tree
  anchors : Anchors := {}

namespace Document

/-- Reads the directives before a document. There is at most one version, which must be 1.1 or 1.2,
and at most one directive for a handle. -/
def directives : List Token → Bool → Table (List Nat) →
    Option (Table (List Nat) × List Token)
  | .directive (.version major minor) :: rest, versioned, handles =>
    if !versioned && major = 1 && (minor = 1 || minor = 2) then directives rest true handles
    else none
  | .directive (.tag handle start) :: rest, versioned, handles =>
    if handles.has handle then none else directives rest versioned (handles.put handle start)
  | rest, _, handles => some (handles, rest)

/-- What the handles of tags stand for in a document with directives for some of them. -/
def allHandles (given : Table (List Nat)) : Table (List Nat) :=
  let known := [("!", "!"), ("!!", "tag:yaml.org,2002:")]
  given ++ known.map fun (handle, start) => (handle, Text.Utf8.encode start.toList)

/-- Reads the node of a document, after which nothing but marks of its end may follow. -/
def ofRest (handles : Table (List Nat)) (tokens : List Token) : Option Document := do
  let (root, after) ← (Parse.node (4 * tokens.length + 4) true false).run
    { tokens, handles := allHandles handles }
  if after.tokens.all (· == .documentEnd) then return ⟨root, after.anchors⟩ else none

/-- Reads a document from its tokens. A text without tokens is a document in which nothing is
written. -/
def ofTokens : List Token → Option Document
  | [] => some { root := .nothing }
  | first :: tokens =>
    let explicit := match first with
      | .directive _ => true
      | .documentStart => true
      | _ => false
    if explicit then do
      match ← directives (first :: tokens) false [] with
      | (handles, .documentStart :: rest) =>
        if rest.all (· == .documentEnd) then return { root := .nothing } else ofRest handles rest
      | _ => none
    else ofRest [] (first :: tokens)

def ofText (text : String) : Option Document := do
  ofTokens (← tokens text)

end Document

end ApiClient.Yaml
