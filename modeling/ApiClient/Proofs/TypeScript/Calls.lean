import ApiClient.Proofs.Decimal.Integers
import ApiClient.Proofs.TypeScript.Templates

/-!
# Calls without properties

A function that takes an object apart can be called with the empty object. Its variables then hold
the values that stand in for missing properties, and a template shows the text of these values. The
language has doubles only and sets them out in its own way.
-/

namespace ApiClient

namespace Json.Number

/-- Doubles are written out from `1e-6` to below `1e21`, whole ones without a point. -/
def shownLayout : Decimal.Layout where
  least := -6
  greatest := 20
  point := false
  plus := true

/-- The text of a double in a template. Zero has no sign there. -/
def shownDouble (x : Binary64) : String :=
  if x.significand = 0 then "0" else String.ofList (shownLayout.text x)

/-- The text of a number in a template. An integer stands for the double nearest to it. -/
def shown : Number → String
  | .int n =>
    (Binary64.nearest (n < 0) n.natAbs 1).elim (if n < 0 then "-Infinity" else "Infinity")
      shownDouble
  | .real x => shownDouble x

theorem shownDouble_ofInteger (negative : Bool) {n : Nat} (hn : 0 < n) (hsmall : n < 2 ^ 53) :
    shownDouble (.ofInteger negative n) = (if negative then "-" else "") ++ toString n := by
  have hsignificand : (Binary64.ofInteger negative n).significand ≠ 0 :=
    Nat.ne_of_gt (Nat.mul_pos hn (Nat.two_pow_pos _))
  rw [shownDouble, if_neg hsignificand,
    Decimal.Layout.text_ofInteger (by decide) (by decide) rfl negative hn hsmall,
    Nat.toString_eq_ofList_toDigits, String.ofList_append]
  cases negative <;> rfl

/-- Integers below `2 ^ 53` look the same in a template as in a document. -/
theorem shown_int {n : Int} (h : n.natAbs < 2 ^ 53) : shown (.int n) = (Number.int n).text := by
  cases n with
  | ofNat n =>
    cases n with
    | zero => decide +kernel
    | succ n =>
      have hsign : decide (Int.ofNat (n + 1) < 0) = false := rfl
      have hnearest : Binary64.nearest false (Int.ofNat (n + 1)).natAbs 1 = _ :=
        Binary64.nearest_integer false (Nat.succ_pos n) h
      rw [shown, hsign, hnearest]
      exact (shownDouble_ofInteger false (Nat.succ_pos n) h).trans String.empty_append
  | negSucc n =>
    have hsign : decide (Int.negSucc n < 0) = true := decide_eq_true (Int.negSucc_lt_zero n)
    have hnearest : Binary64.nearest true (Int.negSucc n).natAbs 1 = _ :=
      Binary64.nearest_integer true (Nat.succ_pos n) h
    rw [shown, hsign, hnearest]
    exact shownDouble_ofInteger true (Nat.succ_pos n) h

end Json.Number

namespace TypeScript

/-- The text of a literal in a template. -/
def Literal.shown : Literal → String
  | .str s => s
  | .num n => n.shown
  | .bool b => if b then "true" else "false"
  | .null => "null"

/-- The text of a variable that a missing property is bound to. It is known if a literal or nothing
stands in for the property. -/
def Binding.missing? (binding : Binding Expr) : Option String :=
  match binding.fallback with
  | none => some "undefined"
  | some (.literal l) => some l.shown
  | some _ => none

def missing? (bindings : List (Binding Expr)) (name : String) : Option String :=
  (bindings.find? fun binding ↦ binding.name == name).bind Binding.missing?

/-- The text that a function from an object to a template gives for the empty object. -/
def Expr.callEmpty? : Expr → Option String
  | .arrow [⟨.object bindings, _, _, _⟩] body => literalText (missing? bindings) body.render
  | _ => none

end TypeScript

end ApiClient
