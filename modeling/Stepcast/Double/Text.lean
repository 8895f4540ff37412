import Stepcast.Double.Shortest
import Stepcast.Text.Blank
import Stepcast.Text.Numeral

/-!
# Doubles as text

Two ways of writing a double: plain text, which is always positional, and the form of a number in
a JSON document, which turns to an exponent for very large and very small numbers. One way of
reading: decimal numerals with an optional point and exponent, and names for the infinities.
-/

namespace Stepcast

namespace Double

/-! ## Writing -/

/-- The digits with `point` of them before the decimal point, filled up with zeros; no point when
nothing follows it. -/
def placePoint (digits : List Char) (point : Int) : List Char :=
  if point ≤ 0 then '0' :: '.' :: (List.replicate (-point).toNat '0' ++ digits)
  else if digits.length ≤ point.toNat then
    digits ++ List.replicate (point.toNat - digits.length) '0'
  else digits.take point.toNat ++ '.' :: digits.drop point.toNat

/-- Plain text: the shortest digits, a tie upward, written positionally. -/
def plain (bits : UInt64) : String :=
  match value bits with
  | .nan => "NaN"
  | .infinite negative => if negative then "-inf" else "inf"
  | .finite negative mantissa exponent =>
    let d := shortest (fun _ => true) mantissa exponent
    let digits := d.text
    let text := if mantissa = 0 then ['0'] else placePoint digits (digits.length + d.exponent)
    String.ofList (if negative then '-' :: text else text)

/-- The exponents of the leading digit for which a JSON number is written positionally. -/
def positionalRange (leading : Int) : Bool := -5 ≤ leading && leading ≤ 15

/-- A JSON number: the shortest digits, a tie to the even one; a whole number keeps one zero after
the point. There is none for infinities and for what is not a number. -/
def jsonNumber? (bits : UInt64) : Option String :=
  match value bits with
  | .nan | .infinite _ => none
  | .finite negative mantissa exponent =>
    let d := shortest (fun n => n % 2 == 1) mantissa exponent
    let digits := d.text
    let leading : Int := digits.length + d.exponent - 1
    let text :=
      if mantissa = 0 then ['0', '.', '0']
      else if positionalRange leading then
        if 0 ≤ d.exponent then placePoint digits (leading + 1) ++ ['.', '0']
        else placePoint digits (leading + 1)
      else
        placePoint digits 1 ++ 'e' :: (if leading < 0 then '-' else '+') ::
          Nat.toDigits 10 leading.natAbs
    some (String.ofList (if negative then '-' :: text else text))

/-! ## Reading -/

/-- The digits at the head of a text and the rest. -/
def splitDigits (text : List Char) : List Char × List Char :=
  (text.takeWhile Char.isDigit, text.dropWhile Char.isDigit)

/-- The exponent at the end of a numeral: none, or a mark and a signed number. -/
def readExponent (text : List Char) : Option Int :=
  match text with
  | [] => some 0
  | mark :: rest =>
    if mark = 'e' || mark = 'E' then
      let (negative, digits) := splitSign rest
      (digits? digits).map (fun n => if negative then -(n : Int) else n)
    else none

/-- The double nearest to an unsigned decimal numeral. There must be a digit before or after the
point. -/
def readMagnitude (negative : Bool) (text : List Char) : Option UInt64 :=
  let (whole, rest) := splitDigits text
  let (fraction, rest) := match rest with
    | '.' :: rest => splitDigits rest
    | rest => ([], rest)
  if whole.isEmpty && fraction.isEmpty then none
  else (readExponent rest).map (fun e =>
    ofDecimal negative (digitsValue (whole ++ fraction)) (e - fraction.length))

/-- The double that a text spells: a signed numeral, `inf`, `infinity` or `nan` in any case. -/
def read (s : String) : Option UInt64 :=
  let (negative, text) := splitSign s.toList
  match lowerAscii (String.ofList text) with
  | "inf" | "infinity" => some (withSign negative infinity)
  | "nan" => some (withSign negative nan)
  | _ => readMagnitude negative text

end Double

end Stepcast
