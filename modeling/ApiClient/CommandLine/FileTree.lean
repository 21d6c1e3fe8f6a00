import ApiClient.CommandLine.Path

/-!
# Files

What commands need of files is a few operations. They can be carried out on real files, or on a tree
of files that is a value.
-/

namespace ApiClient

/-- Access to files by their paths. -/
class FileSystem (m : Type → Type) where
  /-- Whether there is a file or a directory. -/
  has : String → m Bool
  /-- The text of a file, if it can be read. -/
  read? : String → m (Option String)
  /-- Creates a directory with those around it, and says whether it is there then. -/
  createDirectory : String → m Bool
  /-- Writes a file. The result says why that is impossible. -/
  write : String → String → m (Option String)

/-- A place in a tree of files: the names on the way to it. Two dots lead out of the directory in
which the tree begins, and a slash at the start leads to the root. -/
abbrev Place := List String

namespace Place

def parent (place : Place) : Place :=
  if place = ["/"] then place
  else if place.all (· == "..") then ".." :: place
  else place.dropLast

end Place

structure FileTree where
  directories : List Place := []
  files : List (Place × String) := []

namespace FileTree

/-- Whether a place is a directory. The directory in which the tree begins and those around it
are. -/
def isDirectory (tree : FileTree) (place : Place) : Bool :=
  place == ["/"] || place.all (· == "..") || tree.directories.contains place

def text? (tree : FileTree) (place : Place) : Option String :=
  (tree.files.find? fun file => file.1 == place).map (·.2)

/-- The directory in which a path begins, and the segments of the path. -/
def start (path : String) : Place × List String :=
  let segments := path.splitOn "/"
  if segments.head? == some "" then (["/"], segments) else ([], segments)

/-- Goes from a directory to the next one. -/
def enter (tree : FileTree) (place : Place) (segment : String) : Option Place :=
  if segment.isEmpty || segment == "." then some place
  else if segment == ".." then some place.parent
  else if tree.isDirectory (place ++ [segment]) then some (place ++ [segment])
  else none

/-- The directory to which a path leads, and the name in it, unless the path says nothing but the
directory. -/
def locate (tree : FileTree) (path : String) : Option (Place × Option String) :=
  if path.isEmpty || (Path.obstacle? path).isSome then none else
  let (place, segments) := start path
  match segments.dropLast.foldlM tree.enter place, segments.getLast? with
  | some place, some last =>
    if ["", ".", ".."].contains last then (tree.enter place last).map (·, none)
    else some (place, some last)
  | _, _ => none

def has (tree : FileTree) (path : String) : Bool :=
  match tree.locate path with
  | some (place, some name) =>
    tree.isDirectory (place ++ [name]) || (tree.text? (place ++ [name])).isSome
  | some (_, none) => true
  | none => false

def read? (tree : FileTree) (path : String) : Option String :=
  match tree.locate path with
  | some (place, some name) => tree.text? (place ++ [name])
  | _ => none

/-- Creates a directory with those around it, up to a name that a file has or no directory may
have. -/
def createDirectory (tree : FileTree) (path : String) : Bool × FileTree :=
  if (Path.obstacle? path).isSome then (false, tree) else
  let (place, segments) := start path
  let step (state : Option Place × FileTree) (segment : String) : Option Place × FileTree :=
    match state with
    | (none, tree) => (none, tree)
    | (some place, tree) =>
      match tree.enter place segment with
      | some next => (some next, tree)
      | none =>
        let next := place ++ [segment]
        if (tree.text? next).isSome || !Path.isName segment then (none, tree)
        else (some next, { tree with directories := next :: tree.directories })
  let (reached, tree) := segments.foldl step (some place, tree)
  (reached.isSome, tree)

def put (tree : FileTree) (place : Place) (text : String) : FileTree :=
  { tree with files := (place, text) :: tree.files.filter fun file => file.1 != place }

def write (tree : FileTree) (path text : String) : Option String × FileTree :=
  match tree.locate path with
  | some (place, some name) =>
    if tree.isDirectory (place ++ [name]) then (some "Is a directory (os error 21)", tree)
    else if !Path.isName name then (some Path.tooLong, tree)
    else (none, tree.put (place ++ [name]) text)
  | some (_, none) => (some "Is a directory (os error 21)", tree)
  | none => (some ((Path.obstacle? path).getD "No such file or directory (os error 2)"), tree)

instance : FileSystem (StateM FileTree) where
  has path := return (← get).has path
  read? path := return (← get).read? path
  createDirectory path := modifyGet fun tree => tree.createDirectory path
  write path text := modifyGet fun tree => tree.write path text

end FileTree

end ApiClient
