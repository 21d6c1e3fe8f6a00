import ApiClient.Compile.Context

/-!
# Plans

Compiling goes from a schema to the schemas that it refers to, wherever they stand in the document.
A plan says what is done between one reference and the next and leaves the references themselves
open. What a reference means is said by another plan, so running a plan comes down to running plans.
-/

namespace ApiClient

open TypeScript

/-- What makes the type of a reference in a mode. The flag asks for the type without the
discriminator. -/
abbrev Follow := String → Mode → Bool → Build Ty

/-- A compilation with open references. -/
inductive Plan (α : Type) : Type 1 where
  | done (a : α)
  | act {σ : Type} (action : Build σ) (next : σ → Plan α)
  /-- The type of a reference in a mode is needed; the flag asks for it without the discriminator.
  -/
  | meet (path : String) (mode : Mode) (plain : Bool) (next : Ty → Plan α)

namespace Plan

variable {α β : Type}

def bind : Plan α → (α → Plan β) → Plan β
  | done a, f => f a
  | act action next, f => act action fun x => (next x).bind f
  | meet path mode plain next, f => meet path mode plain fun t => (next t).bind f

instance : Monad Plan where
  pure := done
  bind := bind

instance : MonadLift Build Plan where
  monadLift action := act action done

def follow (path : String) (mode : Mode) (plain : Bool := false) : Plan Ty :=
  meet path mode plain done

/-- Carries out a plan, given what makes the types of references. -/
def run (answer : Follow) : Plan α → Build α
  | done a => pure a
  | act action next => do (next (← action)).run answer
  | meet path mode plain next => do (next (← answer path mode plain)).run answer

end Plan

end ApiClient
