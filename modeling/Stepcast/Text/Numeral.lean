/-!
# Decimal numerals

Whole numbers in text are ASCII digits, after a sign where one is allowed. Nothing else may stand
in a numeral: no blanks, no grouping, no empty digit string.
-/

namespace Stepcast

/-- The number that a string of digits denotes. -/
def digitsValue (digits : List Char) : Nat :=
  digits.foldl (fun n c => 10 * n + (c.toNat - '0'.toNat)) 0

/-- The number of a nonempty string of digits. -/
def digits? (text : List Char) : Option Nat :=
  if !text.isEmpty && text.all Char.isDigit then some (digitsValue text) else none

/-- A sign, if there is one, and what follows it. -/
def splitSign (text : List Char) : Bool × List Char :=
  match text with
  | '-' :: rest => (true, rest)
  | '+' :: rest => (false, rest)
  | _ => (false, text)

/-- An unsigned number of at most `limit`; a plus sign may stand before it. -/
def readUnsigned (limit : Nat) (s : String) : Option Nat :=
  let text := match s.toList with
    | '+' :: rest => rest
    | text => text
  (digits? text).filter (· ≤ limit)

/-- A number from `low` to `high`, with an optional sign. -/
def readSigned (low high : Int) (s : String) : Option Int :=
  let (negative, text) := splitSign s.toList
  let value := (digits? text).map (fun n => if negative then -(n : Int) else n)
  value.filter (fun n => low ≤ n && n ≤ high)

end Stepcast
