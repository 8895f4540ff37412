import Stepcast.Json
import Stepcast.Text.Hex

/-!
# Reading JSON

`Json.parse?` accepts exactly the texts of JSON documents: no comments, no trailing commas, no
leading zeros, no control characters in strings. Each call takes at least one character or closes a
bracket, so twice the length of the text bounds the number of calls.
-/

namespace Stepcast

namespace Json

/-! ## Blanks, words and numerals -/

/-- A blank between tokens. -/
def isGap (c : Char) : Bool := c == ' ' || c == '\n' || c == '\t' || c == '\r'

/-- The input after its leading blanks. -/
def skip (input : List Char) : List Char := input.dropWhile isGap

/-- The input after the given word. -/
def word? (word input : List Char) : Option (List Char) :=
  if word.isPrefixOf input then some (input.drop word.length) else none

/-- The digits of the whole part of a numeral: zero stands alone. -/
def wholePart? (input : List Char) : Option (List Char × List Char) :=
  match Double.splitDigits input with
  | ([], _) => none
  | ('0' :: _ :: _, _) => none
  | (digits, rest) => some (digits, rest)

/-- A mark, if there is one, with the digits that have to follow it. -/
def fractionPart? (input : List Char) : Option (List Char × List Char) :=
  match input with
  | '.' :: rest =>
    match Double.splitDigits rest with
    | ([], _) => none
    | (digits, rest) => some ('.' :: digits, rest)
  | _ => some ([], input)

/-- An exponent, if there is one. -/
def exponentPart? (input : List Char) : Option (List Char × List Char) :=
  match input with
  | mark :: rest =>
    if mark = 'e' || mark = 'E' then
      let (sign, rest) := match rest with
        | '+' :: rest => (['+'], rest)
        | '-' :: rest => (['-'], rest)
        | rest => ([], rest)
      match Double.splitDigits rest with
      | ([], _) => none
      | (digits, rest) => some (mark :: sign ++ digits, rest)
    else some ([], input)
  | [] => some ([], input)

/-- A numeral and the text after it. -/
def numeral? (input : List Char) : Option (Json × List Char) := do
  let (sign, input) := match input with
    | '-' :: rest => (['-'], rest)
    | input => ([], input)
  let (whole, input) ← wholePart? input
  let (fraction, input) ← fractionPart? input
  let (exponent, input) ← exponentPart? input
  return (number (String.ofList (sign ++ whole ++ fraction ++ exponent)), input)

/-! ## Strings -/

/-- The number of four hexadecimal digits. -/
def hexUnit? (a b c d : Char) : Option Nat := do
  return (((← hexDigit? a) * 16 + (← hexDigit? b)) * 16 + (← hexDigit? c)) * 16 + (← hexDigit? d)

/-- The character of a one-letter escape. -/
def shortEscape? : Char → Option Char
  | '"' => some '"'
  | '\\' => some '\\'
  | '/' => some '/'
  | 'b' => some '\x08'
  | 'f' => some '\x0c'
  | 'n' => some '\n'
  | 'r' => some '\r'
  | 't' => some '\t'
  | _ => none

/-- A piece of a string: a character, or a UTF-16 unit named by an escape. -/
inductive Piece where
  | char (c : Char)
  | unit (n : Nat)

/-- The pieces up to the closing quote and the text after it. -/
def pieces? : List Char → Option (List Piece × List Char)
  | [] => none
  | '"' :: rest => some ([], rest)
  | '\\' :: 'u' :: a :: b :: c :: d :: rest => do
    let n ← hexUnit? a b c d
    let (pieces, rest) ← pieces? rest
    return (.unit n :: pieces, rest)
  | '\\' :: e :: rest => do
    let c ← shortEscape? e
    let (pieces, rest) ← pieces? rest
    return (.char c :: pieces, rest)
  | c :: rest =>
    if c.toNat < 0x20 || c = '\\' then none
    else (pieces? rest).map (fun (pieces, rest) => (.char c :: pieces, rest))

/-- The characters of the pieces; nothing when half of a surrogate pair stands alone. -/
def join? : List Piece → Option (List Char)
  | [] => some []
  | .char c :: rest => (join? rest).map (c :: ·)
  | .unit high :: .unit low :: rest =>
    if 0xD800 ≤ high && high < 0xDC00 then
      if 0xDC00 ≤ low && low < 0xE000 then
        (join? rest).map
          (Char.ofNat (0x10000 + (high - 0xD800) * 0x400 + (low - 0xDC00)) :: ·)
      else none
    else if 0xDC00 ≤ high && high < 0xE000 then none
    else (join? (.unit low :: rest)).map (Char.ofNat high :: ·)
  | .unit n :: rest =>
    if 0xD800 ≤ n && n < 0xE000 then none else (join? rest).map (Char.ofNat n :: ·)

/-- A string after its opening quote, and the text after it. -/
def string? (input : List Char) : Option (Option String × List Char) :=
  (pieces? input).map (fun (pieces, rest) => ((join? pieces).map String.ofList, rest))

/-! ## Documents -/

mutual

/-- A document at the head of a text without leading blanks, and the text after it. -/
def value? : (fuel : Nat) → List Char → Option (Json × List Char)
  | 0, _ => none
  | fuel + 1, input =>
    match input with
    | 'n' :: rest => (word? ['u', 'l', 'l'] rest).map (fun rest => (null, rest))
    | 't' :: rest => (word? ['r', 'u', 'e'] rest).map (fun rest => (bool true, rest))
    | 'f' :: rest => (word? ['a', 'l', 's', 'e'] rest).map (fun rest => (bool false, rest))
    | '"' :: rest => (string? rest).map (fun (s, rest) => (.text s, rest))
    | '[' :: rest =>
      match skip rest with
      | ']' :: rest => some (list [], rest)
      | rest => (items? fuel rest).map (fun (items, rest) => (list items, rest))
    | '\x7b' :: rest =>
      match skip rest with
      | '\x7d' :: rest => some (object [], rest)
      | rest => (members? fuel rest).map (fun (members, rest) => (object members, rest))
    | _ => numeral? input

/-- The items of a list up to its closing bracket, from an item on. -/
def items? : (fuel : Nat) → List Char → Option (List Json × List Char)
  | 0, _ => none
  | fuel + 1, input => do
    let (item, rest) ← value? fuel input
    match skip rest with
    | ']' :: rest => return ([item], rest)
    | ',' :: rest =>
      let (items, rest) ← items? fuel (skip rest)
      return (item :: items, rest)
    | _ => none

/-- The members of an object up to its closing bracket, from a member on. -/
def members? : (fuel : Nat) → List Char → Option (List (Option String × Json) × List Char)
  | 0, _ => none
  | fuel + 1, input => do
    let '"' :: rest := input | none
    let (key, rest) ← string? rest
    let ':' :: rest := skip rest | none
    let (value, rest) ← value? fuel (skip rest)
    match skip rest with
    | '\x7d' :: rest => return ([(key, value)], rest)
    | ',' :: rest =>
      let (members, rest) ← members? fuel (skip rest)
      return ((key, value) :: members, rest)
    | _ => none

end

/-- The document that a text spells. -/
def parse? (s : String) : Option Json := do
  let input := s.toList
  let (value, rest) ← value? (2 * input.length + 2) (skip input)
  if (skip rest).isEmpty then return value else none

end Json

end Stepcast
