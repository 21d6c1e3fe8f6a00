import ApiClient.Tree.Reading
import ApiClient.Yaml.Tree

/-!
# Aliases resolved

A YAML document becomes a tree in which an alias says where the node stands that it means. Lists and
maps that are nested too deeply become faults. An alias lets the node begin at its own depth, so a
node that contains itself is nested too deeply somewhere.

How often aliases are followed depends on the reader: it passes over some without a look at what
they mean. So it is the reader that gives up after too many.
-/

namespace ApiClient.Yaml

def maxDepth : Nat := 128

/-- How many aliases may be followed for each part of a document. -/
def aliasesPerPart : Nat := 100

def underTag (tag : Option Tag) (node : Node) : Node :=
  if tag = some .label then .labelled node else node

def scalarNode (text : String) (style : Style) (tag : Option Tag) : Node :=
  let type := match tag with
    | some (.core type) => some type
    | _ => none
  underTag tag <| .scalar <| match style with
    | .plain => .plain text type
    | .literal => .quoted text true type
    | .quoted => .quoted text false type
    | .folded => .quoted text false type

/-- The tree of what cannot be read. Passing over it does no harm. -/
def unreadable : Node := .bad .mismatch none

mutual

/-- The tree of a node, `depth` levels of which may be nested. Behind an alias stands what `target`
has for the depth and the anchor. -/
def Tree.expand (target : Nat → Nat → Node) (depth : Nat) : Tree → Node
  | .link anchor => .shared (target depth anchor)
  | .scalar text style tag => scalarNode text style tag
  | .seq tag items =>
    if depth = 0 then unreadable
    else underTag tag (.seq (expandItems target (depth - 1) items) none false)
  | .map tag members =>
    if depth = 0 then unreadable
    else underTag tag (.map (expandMembers target (depth - 1) members) none)

def Tree.expandItems (target : Nat → Nat → Node) (depth : Nat) : List Tree → List Node
  | [] => []
  | t :: rest => expand target depth t :: expandItems target depth rest

def Tree.expandMembers (target : Nat → Nat → Node) (depth : Nat) :
    List (Tree × Tree) → List (Node × Node)
  | [] => []
  | (k, v) :: rest =>
    (expand target depth k, expand target depth v) :: expandMembers target depth rest

end

mutual

/-- How many parts a node has. The two ends of a list or a map count. -/
def Tree.parts : Tree → Nat
  | .link _ => 1
  | .scalar .. => 1
  | .seq _ items => partsOfItems items + 2
  | .map _ members => partsOfMembers members + 2

def Tree.partsOfItems : List Tree → Nat
  | [] => 0
  | t :: rest => parts t + partsOfItems rest

def Tree.partsOfMembers : List (Tree × Tree) → Nat
  | [] => 0
  | (k, v) :: rest => parts k + parts v + partsOfMembers rest

end

/-- The trees of the nodes with anchors, for each depth at which they may begin and in the order of
their numbers. Each is made when it is first needed. -/
structure Targets where
  levels : Array (Thunk (Array (Thunk Node)))

namespace Targets

def get (targets : Targets) (depth anchor : Nat) : Node :=
  match targets.levels[depth]? with
  | none => unreadable
  | some level =>
    match level.get[anchor]? with
    | none => unreadable
    | some node => node.get

/-- The trees of nodes for all depths below a bound. What is nested in a node is less deep, so an
alias in it finds its tree on a level below. -/
def below (trees : Array Tree) : Nat → Targets
  | 0 => ⟨#[]⟩
  | depth + 1 =>
    let targets := below trees depth
    let level := Thunk.mk fun _ => trees.map fun t => Thunk.mk fun _ => t.expand targets.get depth
    ⟨targets.levels.push level⟩

end Targets

def Document.node (doc : Document) : Node :=
  doc.root.expand (Targets.below doc.anchors.trees (maxDepth + 1)).get maxDepth

def read? {α : Type} (reading : Node → Read α) (text : String) : Option α := do
  let doc ← Document.ofText text
  (Read.result (reading doc.node) (aliasesPerPart * doc.root.parts)).toOption

end ApiClient.Yaml
