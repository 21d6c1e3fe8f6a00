/-!
# Options

What a user may choose about a client module.
-/

namespace ApiClient

/-- The choices that change what is put out. -/
structure Options where
  /-- If present, only operations with one of these tags are put out. -/
  include? : Option (List String) := none
  /-- Operations with one of these tags are left out. -/
  exclude : List String := []
  /-- Enumerations get a declaration of their own where they have a name. -/
  namedEnums : Bool := false
  /-- Each schema has one type instead of one for each mode. -/
  singleMode : Bool := false
  /-- Optional members may also be undefined. -/
  withUndefined : Bool := false
  /-- Calls hand over the data of a response that is in order. -/
  optimistic : Bool := false
deriving DecidableEq

def Options.skips (options : Options) (tags : List String) : Bool :=
  tags.any options.exclude.contains ||
    match options.include? with
    | some wanted => !tags.any wanted.contains
    | none => false

end ApiClient
