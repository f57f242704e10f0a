/-!
Runs of digits.

Main definitions:
* `Text.isHexDigit`, `Text.digitValue`: the digits up to base sixteen, in either case;
* `Text.digitsValue`: the number that a run of digits stands for.
-/
namespace AresSyntax.Text

def isHexDigit (c : Char) : Bool :=
  c.isDigit || ('a' ≤ c && c ≤ 'f') || ('A' ≤ c && c ≤ 'F')

/-- The value of a digit. -/
def digitValue (c : Char) : Nat :=
  if c.isDigit then c.toNat - '0'.toNat
  else if 'a' ≤ c then c.toNat - 'a'.toNat + 10
  else c.toNat - 'A'.toNat + 10

/-- The value of a run of digits in a base, the most significant digit first. -/
def digitsValue (base : Nat) (ds : List Char) : Nat :=
  ds.foldl (fun n d => n * base + digitValue d) 0

end AresSyntax.Text
