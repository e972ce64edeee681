/-!
# Decimal numbers

Unsigned numbers written with ASCII digits, bounded to 32 bits, and their shortest written form.
-/

namespace AddonPlanner.Decimal

/-- The number that one or more ASCII digits stand for; leading zeros carry no weight. -/
def digits? (text : List Char) : Option Nat :=
  if text ≠ [] ∧ text.all Char.isDigit then some (Nat.ofDigitChars 10 text 0) else none

/-- The number that a text of digits stands for, which one plus sign may precede. -/
def unsigned? : List Char → Option Nat
  | '+' :: text => digits? text
  | text => digits? text

/-- The 32-bit number that a text stands for; a number that needs more bits is refused. -/
def word? (text : List Char) : Option UInt32 :=
  match unsigned? text with
  | some n => if h : n < UInt32.size then some (UInt32.ofNatLT n h) else none
  | none => none

/-- The digits of a number, without sign or leading zeros. -/
def written (n : UInt32) : String :=
  Nat.repr n.toNat

end AddonPlanner.Decimal
