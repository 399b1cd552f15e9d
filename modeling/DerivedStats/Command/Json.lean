import DerivedStats.Decimal.Layout
import DerivedStats.Decimal.Shortest
import DerivedStats.Number

/-!
# JSON output

JSON values written over several lines, two blanks deeper for each level. Numbers have the fewest
digits that read back; `plainRange` says which of them are written without a power of ten.
-/

namespace DerivedStats

/-- A JSON value of the kinds that commands print. -/
inductive Json where
  | string (s : String)
  /-- A finite number. -/
  | number (x : Float)
  | array (items : List Json)
  /-- An object, with its members in the order in which they are written. -/
  | object (members : List (String × Json))
deriving Inhabited

namespace Json

/-- A character inside quotes: quotes, backslashes and control characters are escaped. -/
def escape (c : Char) : List Char :=
  if c = '"' then ['\\', '"']
  else if c = '\\' then ['\\', '\\']
  else if c = '\n' then ['\\', 'n']
  else if c = '\r' then ['\\', 'r']
  else if c = '\t' then ['\\', 't']
  else if c = '\x08' then ['\\', 'b']
  else if c = '\x0c' then ['\\', 'f']
  else if c.toNat < 0x20 then
    ['\\', 'u'] ++ (Nat.toDigits 16 c.toNat).leftpad 4 '0'
  else [c]

/-- A text in quotes. -/
def quote (s : String) : String := String.ofList ('"' :: (s.toList.flatMap escape ++ ['"']))

/-- The powers of ten of the first digit with which a number is written without a power of ten. -/
def plainRange (e : Int) : Bool := -5 ≤ e && e < 16

/-- The digits of a finite number without its sign; a number without a fraction ends in `.0`. -/
def digits (x : Float) : List Char :=
  let m := Number.magnitude x
  if (Dyadic.ofFloat m).mantissa = 0 then ['0', '.', '0']
  else
    let d := Decimal.shortest .even m
    if plainRange d.leadingExponent then
      if d.exponent < 0 then d.positional else d.positional ++ ['.', '0']
    else d.scientific

/-- A finite number. -/
def numberText (x : Float) : String :=
  String.ofList (if Number.isNegative x then '-' :: digits x else digits x)

/-- A line end and the blanks in front of the next line. -/
def newline (depth : Nat) : String := "\n" ++ String.ofList (List.replicate (2 * depth) ' ')

mutual

/-- The value over several lines; `depth` is the level it stands on. -/
def pretty (depth : Nat) : Json → String
  | string s => quote s
  | number x => numberText x
  | array [] => "[]"
  | array (item :: items) =>
    "[" ++ newline (depth + 1) ++ item.pretty (depth + 1) ++ prettyItems (depth + 1) items
      ++ newline depth ++ "]"
  | object [] => "\x7b\x7d"
  | object ((key, value) :: members) =>
    "\x7b" ++ newline (depth + 1) ++ quote key ++ ": " ++ value.pretty (depth + 1)
      ++ prettyMembers (depth + 1) members ++ newline depth ++ "\x7d"

/-- Further items, each on a line of its own. -/
def prettyItems (depth : Nat) : List Json → String
  | [] => ""
  | item :: items => "," ++ newline depth ++ item.pretty depth ++ prettyItems depth items

/-- Further members, each on a line of its own. -/
def prettyMembers (depth : Nat) : List (String × Json) → String
  | [] => ""
  | (key, value) :: members =>
    "," ++ newline depth ++ quote key ++ ": " ++ value.pretty depth ++ prettyMembers depth members

end

/-- The value as a text of its own. -/
def text (j : Json) : String := j.pretty 0

end Json

end DerivedStats
