/-!
# Modes

A schema is compiled in one of three modes. In the base mode an object has the properties that are
neither read-only nor write-only; the read mode is the side of responses and the write mode that of
requests, and each adds the properties of its side.
-/

namespace ApiClient

/-- Which properties of an object a type shows. -/
inductive Mode where
  | base
  | read
  | write
deriving DecidableEq, Repr

/-- What the name of a type in a mode ends in. -/
def Mode.ending : Mode → String
  | .base => ""
  | .read => "Read"
  | .write => "Write"

/-- Whether something is read-only and whether it is write-only. -/
structure Flags where
  readOnly : Bool := false
  writeOnly : Bool := false
deriving DecidableEq, Repr

namespace Flags

/-- Neither read-only nor write-only. -/
def none : Flags := {}

/-- Both marks together. -/
def join (a b : Flags) : Flags :=
  ⟨a.readOnly || b.readOnly, a.writeOnly || b.writeOnly⟩

/-- Whether nothing can be added. -/
def both (flags : Flags) : Bool :=
  flags.readOnly && flags.writeOnly

end Flags

/-- Whether a property with these marks is shown. -/
def Mode.keeps (mode : Mode) (flags : Flags) : Bool :=
  match mode with
  | .base => !flags.readOnly && !flags.writeOnly
  | .read => flags.readOnly || !flags.writeOnly
  | .write => flags.writeOnly || !flags.readOnly

end ApiClient
