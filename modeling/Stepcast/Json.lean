import Stepcast.Double.Text

/-!
# JSON documents

A document keeps what its text says: numbers as they are written, members in the order in which
they stand. What a number means is decided by those who read it (`Json.Number`). A string in which
an escape names half of a surrogate pair has no value, which is no fault as long as nobody asks for
it.
-/

namespace Stepcast

/-- A JSON document. -/
inductive Json where
  | null
  | bool (value : Bool)
  | number (literal : String)
  | text (value : Option String)
  | list (items : List Json)
  | object (members : List (Option String × Json))
deriving Inhabited

namespace Json

/-! ## Building -/

def ofText (s : String) : Json := text (some s)

def ofNat (n : Nat) : Json := number (toString n)

def ofInt (n : Int) : Json := number (toString n)

/-- The number nearest to a double; null for what no number can express. -/
def ofDouble (bits : UInt64) : Json :=
  match Double.jsonNumber? bits with
  | some literal => number literal
  | none => null

def ofOption {α : Type} (f : α → Json) : Option α → Json
  | some a => f a
  | none => null

/-- The object with the given members. -/
def ofMembers (members : List (String × Json)) : Json :=
  object (members.map (fun (key, value) => (some key, value)))

/-! ## Taking apart -/

/-- The last member with the given name. -/
def member? (j : Json) (key : String) : Option Json :=
  match j with
  | object members => (members.reverse.find? (fun m => m.1 == some key)).map Prod.snd
  | _ => none

def isNull : Json → Bool
  | null => true
  | _ => false

def toBool? : Json → Option Bool
  | bool b => some b
  | _ => none

def toText? : Json → Option String
  | text s => s
  | _ => none

def toList? : Json → Option (List Json)
  | list items => some items
  | _ => none

/-! ## Printing -/

/-- How a character stands in a string. -/
def escape (c : Char) : List Char :=
  if c = '"' then ['\\', '"']
  else if c = '\\' then ['\\', '\\']
  else if c = '\x08' then ['\\', 'b']
  else if c = '\x0c' then ['\\', 'f']
  else if c = '\n' then ['\\', 'n']
  else if c = '\r' then ['\\', 'r']
  else if c = '\t' then ['\\', 't']
  else if c.toNat < 0x20 then
    ['\\', 'u', '0', '0', Nat.digitChar (c.toNat / 16), Nat.digitChar (c.toNat % 16)]
  else [c]

/-- A string with its quotes. -/
def quote (s : String) : String := String.ofList ('"' :: s.toList.flatMap escape ++ ['"'])

mutual

/-- The text of a document behind `out`. -/
def print (out : String) : Json → String
  | null => out ++ "null"
  | bool true => out ++ "true"
  | bool false => out ++ "false"
  | number literal => out ++ literal
  | text s => out ++ quote (s.getD "")
  | list [] => out ++ "[]"
  | list (first :: rest) => printItems (print (out ++ "[") first) rest ++ "]"
  | object [] => out ++ "\x7b\x7d"
  | object ((key, value) :: rest) =>
    printMembers (print (out ++ "\x7b" ++ quote (key.getD "") ++ ":") value) rest ++ "\x7d"

def printItems (out : String) : List Json → String
  | [] => out
  | item :: rest => printItems (print (out ++ ",") item) rest

def printMembers (out : String) : List (Option String × Json) → String
  | [] => out
  | (key, value) :: rest =>
    printMembers (print (out ++ "," ++ quote (key.getD "") ++ ":") value) rest

end

/-- The text of a document, without blanks. -/
def compact (j : Json) : String := print "" j

end Json

end Stepcast
