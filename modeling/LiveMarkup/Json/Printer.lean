import LiveMarkup.Decimal.Shortest
import LiveMarkup.Json.Value
import LiveMarkup.Text.Hex

/-!
# JSON text

Values are written without blanks. A string escapes the quote, the backslash and the control
characters, the common ones by a letter and the others by four hexadecimal digits.

* `Value.text` is the written form of a value;
* `Value.display` is the form shown to a reader: null is empty and a string stands for itself.
-/

namespace LiveMarkup

namespace Json

/-- How one character is written inside a string. -/
def escapeChar (c : Char) : List Char :=
  if c == '"' then ['\\', '"']
  else if c == '\\' then ['\\', '\\']
  else if c == '\x08' then ['\\', 'b']
  else if c == '\t' then ['\\', 't']
  else if c == '\n' then ['\\', 'n']
  else if c == '\x0c' then ['\\', 'f']
  else if c == '\r' then ['\\', 'r']
  else if c.toNat < 0x20 then
    ['\\', 'u', '0', '0', Text.hexDigit (c.toNat / 16), Text.hexDigit (c.toNat % 16)]
  else [c]

/-- The written form of a string. -/
def quote (s : String) : List Char :=
  '"' :: s.toList.flatMap escapeChar ++ ['"']

end Json

/-- The text of a number. -/
def Number.text : Number → String
  | .int i => toString i
  | .float x => Decimal.ofFloat x

namespace Value

mutual

/-- The characters of the written form of a value. -/
def chars : Value → List Char
  | null => ['n', 'u', 'l', 'l']
  | bool true => ['t', 'r', 'u', 'e']
  | bool false => ['f', 'a', 'l', 's', 'e']
  | number n => n.text.toList
  | string s => Json.quote s
  | array items => '[' :: itemChars true items ++ [']']
  | object fields => '\x7b' :: fieldChars true fields ++ ['\x7d']

/-- The items of an array, each but the first after a comma. -/
def itemChars (first : Bool) : List Value → List Char
  | [] => []
  | v :: vs => (if first then [] else [',']) ++ v.chars ++ itemChars false vs

/-- The fields of an object, each but the first after a comma. -/
def fieldChars (first : Bool) : List (String × Value) → List Char
  | [] => []
  | (name, v) :: rest =>
    (if first then [] else [',']) ++ Json.quote name ++ ':' :: v.chars ++ fieldChars false rest

end

/-- The written form of a value. -/
def text (v : Value) : String :=
  String.ofList v.chars

/-- The text of a value as shown in text nodes and attributes. -/
def display : Value → String
  | null => ""
  | string s => s
  | v => v.text

/-- The identity of a list item: its written form. -/
def key (v : Value) : String :=
  v.text

/-- Null, false, zero, not-a-number and the empty string are false; all else is true. -/
def truthy : Value → Bool
  | null => false
  | bool b => b
  | number n => let x := n.toFloat; x != 0 && !x.isNaN
  | string s => !s.isEmpty
  | array _ => true
  | object _ => true

/-- The items that an iterated value stands for. A number stands for the numbers below it. -/
def items : Value → List Value
  | array vs => vs
  | number n => (List.range n.count).map Value.nat
  | _ => []

end Value

end LiveMarkup
