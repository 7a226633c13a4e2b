import ArrowExpr.Decimal.FloatText
import ArrowExpr.Text.Separated
import ArrowExpr.Value.Basic
/-!
Values as text: `text?` is what `~` joins, `display` is what people read.
-/

namespace ArrowExpr

/-- A float has fourteen digits under `~`, without an exponent from `0.0001` up to `1e14`; a lone
digit in front of an exponent keeps `.0`. -/
def FloatStyle.joined : FloatStyle where
  digits := .rounded 14
  number := ⟨-4, 13, [], ['.', '0'], 'E', ['+']⟩
  notANumber := "NAN".toList
  infinity := "INF".toList

namespace Value

/-- The string that the value becomes under `~`. Lists and callables have none. -/
def text? : Value → Option String
  | null => some ""
  | bool false => some ""
  | bool true => some "1"
  | int n => some n.toInt.repr
  | float x => some (FloatStyle.joined.write x)
  | str s => some s
  | list _ => none
  | callable _ => none

mutual

/-- The value as readable text; a string stands for itself. -/
def display : Value → String
  | null => "null"
  | bool true => "true"
  | bool false => "false"
  | int n => n.toInt.repr
  | float x => FloatStyle.debug.write x
  | str s => s
  | list items => "[" ++ commaSeparated (displayAll items) ++ "]"
  | callable _ => "<callable>"

/-- The texts of several values. -/
def displayAll : List Value → List String
  | [] => []
  | item :: rest => display item :: displayAll rest

end

end Value

end ArrowExpr
