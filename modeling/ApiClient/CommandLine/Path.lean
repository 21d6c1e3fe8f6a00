/-!
# Paths

A path is text with slashes between its segments. Doubled slashes, slashes at the end and segments
that are a single dot say nothing, except that a path may begin with either.

There are limits to what a path can name: no character may be NUL, a path has to be shorter than
4096 bytes in UTF-8, and a name in it may have at most 255.
-/

namespace ApiClient.Path

/-- The segments of a path up to the last one that says something. -/
def significant (segments : List String) : List String :=
  let rec trim : List String → List String
    | [] => []
    | [first] => [first]
    | last :: rest => if last.isEmpty || last == "." then trim rest else last :: rest
  (trim segments.reverse).reverse

/-- The last segment of a path, unless the path is empty or the root. -/
def lastSegment? (path : String) : Option String :=
  (significant (path.splitOn "/")).getLast?.filter fun segment => !segment.isEmpty

/-- The path without its last segment. It is empty if there was only one. -/
def parent? (path : String) : Option String := do
  let _ ← lastSegment? path
  match significant (significant (path.splitOn "/")).dropLast with
  | [""] => return "/"
  | segments => return "/".intercalate segments

/-- The part of the last segment after its last dot, if there is something before that dot. -/
def extension? (path : String) : Option String := do
  let segment ← lastSegment? path
  if segment == ".." then none else
  match segment.splitOn "." with
  | [_] => none
  | ["", _] => none
  | parts => parts.getLast?

/-- What is said of a path or a name beyond the limits. -/
def tooLong : String := "File name too long (os error 36)"

/-- Why a path can name nothing, whatever files there are, if that is so. -/
def obstacle? (path : String) : Option String :=
  if path.toList.contains (Char.ofNat 0) then some "file name contained an unexpected NUL byte"
  else if 4096 ≤ path.utf8ByteSize then some tooLong
  else none

/-- Whether a file or a directory may have a name. -/
def isName (name : String) : Bool := name.utf8ByteSize ≤ 255

end ApiClient.Path
