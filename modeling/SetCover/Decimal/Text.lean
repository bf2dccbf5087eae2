import SetCover.Decimal.Shortest

/-!
# Decimal text of doubles

Doubles are written with their shortest digits.  Two styles are in use.  Sentences for the reader
write every number in positional form and whole numbers without a fraction.  Diagnostics mark whole
numbers with `.0` and write very large and very small numbers with an exponent.
-/

namespace SetCover.Decimal

/-- The decisions of a written form that the digits themselves leave open. -/
structure Style where
  /-- What follows the digits of a whole number in positional form. -/
  wholeMark : String
  /-- The leading places that are written in positional form. -/
  positional : Int → Bool

/-- Plain text has no exponents and no mark on whole numbers. -/
def plain : Style where
  wholeMark := ""
  positional _ := true

/-- Diagnostic text marks whole numbers and is positional from `0.0001` to below `10^16`. -/
def diagnostic : Style where
  wholeMark := ".0"
  positional place := -4 ≤ place && place < 16

/-- The digits in positional form, the leading one standing at `place`. -/
def positionalText (style : Style) (digits : List Char) (place : Int) : String :=
  if place < 0 then
    "0." ++ String.ofList (List.replicate (-place - 1).toNat '0' ++ digits)
  else
    let whole := place.toNat + 1
    let zeros := List.replicate (whole - digits.length) '0'
    let front := String.ofList (digits.take whole ++ zeros)
    match digits.drop whole with
    | [] => front ++ style.wholeMark
    | rest => front ++ "." ++ String.ofList rest

/-- The digits with an exponent, one digit before the point. -/
def scientificText (digits : List Char) (place : Int) : String :=
  match digits.drop 1 with
  | [] => s!"{String.ofList (digits.take 1)}e{place}"
  | rest => s!"{String.ofList (digits.take 1)}.{String.ofList rest}e{place}"

def text (style : Style) (decimal : Decimal) : String :=
  if style.positional decimal.leadingPlace then
    positionalText style decimal.significantDigits decimal.leadingPlace
  else
    scientificText decimal.significantDigits decimal.leadingPlace

def exponentField (value : Float) : Nat :=
  value.toBits.toNat / 0x10000000000000 % 0x800

def fractionField (value : Float) : Nat :=
  value.toBits.toNat % 0x10000000000000

/-- Whether the sign bit of a double is set, also on a negative zero. -/
def isSigned (value : Float) : Bool :=
  0x8000000000000000 ≤ value.toBits.toNat

def magnitudeText (style : Style) (value : Float) : String :=
  let exponent := exponentField value
  let fraction := fractionField value
  if exponent = 0 then
    if fraction = 0 then
      "0" ++ style.wholeMark
    else
      (Interval.ofBinary fraction (-1074) false).shortest.text style
  else
    let binary := Interval.ofBinary (0x10000000000000 + fraction) ((exponent : Int) - 1075)
      (fraction = 0 && 1 < exponent)
    binary.shortest.text style

/-- The text of a double in the given style. -/
def floatText (style : Style) (value : Float) : String :=
  let sign := if isSigned value then "-" else ""
  if exponentField value = 2047 then
    if fractionField value = 0 then sign ++ "inf" else "NaN"
  else
    sign ++ magnitudeText style value

end SetCover.Decimal
