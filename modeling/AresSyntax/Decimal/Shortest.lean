import AresSyntax.Decimal.Binary64
import AresSyntax.Text.Digits

/-!
The decimal text of a double: the fewest digits that read back as the same number, and of these
the nearest.

Main definitions:
* `Decimal.shortest`: digits and place of that decimal;
* `Decimal.Layout`: where positional writing ends and how an exponent is written;
* `Binary64.render`, `Binary64.read?`: the text of a number, and the number of a text.
-/
namespace AresSyntax

/-- The number `digits * 10 ^ place`. -/
structure Decimal where
  digits : Nat
  place : Int
  deriving DecidableEq, Repr

namespace Decimal

def readsBackAs (x : Binary64) (d : Decimal) : Bool :=
  Binary64.ofDecimal x.isNegative d.digits d.place == x

/-- The better of the two decimals with `n` digits beside `x` that reads back as `x`, if one does.
Their grid has its last digit at `place`. -/
def withDigits? (x : Binary64) (n : Nat) : Option Decimal :=
  let place := x.magnitude.exponent 10 - n + 1
  let scaled := x.magnitude.divPow 10 place
  let near := scaled.nearest
  let far := if near = scaled.floor then near + 1 else scaled.floor
  [⟨near, place⟩, ⟨far, place⟩].find? (readsBackAs x)

/-- The decimal with the fewest digits that reads back as `x`; seventeen are always enough. -/
def shortest (x : Binary64) : Decimal :=
  if x.magnitudeBits = 0 then ⟨0, 0⟩
  else ((List.range 17).findSome? fun n => withDigits? x (n + 1)).getD ⟨0, 0⟩

/-- The digits without zeros at the end. -/
def significant (d : Decimal) : List Char :=
  ((Nat.toDigits 10 d.digits).reverse.dropWhile (· == '0')).reverse

/-- The power of ten of the first digit. -/
def leading (d : Decimal) : Int :=
  (Nat.toDigits 10 d.digits).length - 1 + d.place

/-- How decimals are laid out: positionally if the power of the first digit is from `low` up to,
and not including, `high`; else with an exponent of at least `width` digits. -/
structure Layout where
  low : Int
  high : Int
  width : Nat

/-- Digits with a point after the one for units; zeros fill the gaps and a whole number keeps one
zero behind the point. -/
def positional (ds : List Char) (leading : Int) : String :=
  if leading < 0 then
    String.ofList ("0.".toList ++ List.replicate (-leading - 1).toNat '0' ++ ds)
  else
    let units := leading.toNat + 1
    let whole := ds.take units ++ List.replicate (units - ds.length) '0'
    let part := ds.drop units
    String.ofList (whole ++ '.' :: if part.isEmpty then ['0'] else part)

/-- One digit, the others behind a point, and a signed exponent. -/
def scientific (width : Nat) (ds : List Char) (leading : Int) : String :=
  let part := ds.drop 1
  let power := Nat.toDigits 10 leading.natAbs
  String.ofList (ds.take 1 ++ (if part.isEmpty then [] else '.' :: part) ++
    ['e', if leading < 0 then '-' else '+'] ++ List.replicate (width - power.length) '0' ++ power)

def render (layout : Layout) (d : Decimal) : String :=
  if d.digits = 0 then "0.0"
  else if layout.low ≤ d.leading ∧ d.leading < layout.high then positional d.significant d.leading
  else scientific layout.width d.significant d.leading

end Decimal

namespace Binary64

/-- The text of a double in a layout. -/
def render (layout : Decimal.Layout) (x : Binary64) : String :=
  if x.isNaN then "nan"
  else (if x.isNegative then "-" else "") ++
    if x.isInfinite then "inf" else (Decimal.shortest x).render layout

/-- The double nearest to the decimal `whole.part`. -/
def ofDigits (negative : Bool) (whole part : List Char) (power : Int) : Binary64 :=
  ofDecimal negative (Text.digitsValue 10 (whole ++ part)) (power - part.length)

/-- Reads an exponent, which may be missing, up to the end of the text. -/
def exponent? : List Char → Option Int
  | [] => some 0
  | e :: cs =>
    if e = 'e' ∨ e = 'E' then
      let (sign, ds) := match cs with
        | '-' :: ds => (-1, ds)
        | '+' :: ds => (1, ds)
        | ds => (1, ds)
      if !ds.isEmpty && ds.all Char.isDigit then
        some (sign * (Text.digitsValue 10 ds : Int))
      else none
    else none

/-- Reads a decimal with an optional part behind a point and an optional exponent. -/
def readMagnitude? (negative : Bool) (cs : List Char) : Option Binary64 :=
  let whole := cs.takeWhile Char.isDigit
  let behind := cs.dropWhile Char.isDigit
  let (part, behind) := match behind with
    | '.' :: ds => (ds.takeWhile Char.isDigit, ds.dropWhile Char.isDigit)
    | ds => ([], ds)
  if whole.isEmpty && part.isEmpty then none
  else (exponent? behind).map (ofDigits negative whole part)

/-- Reads the text of a double: a sign, then a decimal, `inf` or `nan`. -/
def read? (s : String) : Option Binary64 :=
  let (negative, cs) := match s.toList with
    | '-' :: cs => (true, cs)
    | '+' :: cs => (false, cs)
    | cs => (false, cs)
  if cs = "inf".toList then some (ofParts negative infinityBits)
  else if cs = "nan".toList then some nan
  else readMagnitude? negative cs

end Binary64
end AresSyntax
