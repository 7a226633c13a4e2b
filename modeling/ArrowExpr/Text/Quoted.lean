/-!
Text between double quotes. Each format has its own table of escapes: what a character becomes
between the quotes.
-/

namespace ArrowExpr

namespace Quoted

/-- Each character becomes what the table says. -/
def escaped (escape : Char → List Char) (text : List Char) : List Char := text.flatMap escape

/-- The text between double quotes. -/
def write (escape : Char → List Char) (text : String) : String :=
  String.ofList ('"' :: (escaped escape text.toList ++ ['"']))

end Quoted

end ArrowExpr
