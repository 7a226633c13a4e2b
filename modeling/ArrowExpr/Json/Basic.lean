import ArrowExpr.Text.Quoted
/-!
JSON documents and their compact text.
-/

namespace ArrowExpr

/-- A JSON document. A string is `none` if its escapes hold half of a surrogate pair: it is well
formed, but no text. -/
inductive Json where
  | null
  | bool (b : Bool)
  /-- A number as it is written. -/
  | number (text : List Char)
  | str (text : Option String)
  | array (items : List Json)
  | object (members : List (Option String × Json))

namespace Json

/-- The lower-case digits of a control character's code. -/
def hexDigits (n : Nat) : List Char := [Nat.digitChar (n / 16), Nat.digitChar (n % 16)]

/-- A string escapes the double quote, the backslash and the control characters. -/
def escape (c : Char) : List Char :=
  match c with
  | '"' => ['\\', '"']
  | '\\' => ['\\', '\\']
  | '\n' => ['\\', 'n']
  | '\t' => ['\\', 't']
  | '\r' => ['\\', 'r']
  | '\x08' => ['\\', 'b']
  | '\x0c' => ['\\', 'f']
  | c => if c.toNat < 0x20 then '\\' :: 'u' :: '0' :: '0' :: hexDigits c.toNat else [c]

/-- The text of a string. -/
def quoted : Option String → String
  | some text => Quoted.write escape text
  | none => "\"\\ud800\""

mutual

/-- The text of a document, without blanks. -/
def write : Json → String
  | null => "null"
  | bool true => "true"
  | bool false => "false"
  | number text => String.ofList text
  | str text => quoted text
  | array items => "[" ++ ",".intercalate (writeAll items) ++ "]"
  | object members => "\x7b" ++ ",".intercalate (writeMembers members) ++ "\x7d"

/-- The texts of several documents. -/
def writeAll : List Json → List String
  | [] => []
  | item :: rest => write item :: writeAll rest

/-- The texts of the members of an object. -/
def writeMembers : List (Option String × Json) → List String
  | [] => []
  | (key, value) :: rest => (quoted key ++ ":" ++ write value) :: writeMembers rest

end

end Json

end ArrowExpr
