import ArrowExpr.Decimal.Precision
/-!
Floats as text. A format says in one record how a number is laid out (`NumberStyle`) and in another
how many digits it has and what the special values are called (`FloatStyle`).
-/

namespace ArrowExpr

/-- How a decimal number is laid out. -/
structure NumberStyle where
  /-- The least magnitude that is written without an exponent. -/
  least : Int
  /-- The greatest magnitude that is written without an exponent. -/
  greatest : Int
  /-- What follows a whole number that is written without an exponent. -/
  wholeEnd : List Char
  /-- What follows a lone digit in front of an exponent. -/
  loneDigitEnd : List Char
  /-- The letter of the exponent. -/
  mark : Char
  /-- What stands in front of an exponent that is not negative. -/
  plus : List Char

namespace NumberStyle

/-- The number `d.ddd * 10 ^ magnitude` without an exponent. -/
def positional (style : NumberStyle) (digits : List Char) (magnitude : Int) : List Char :=
  match magnitude with
  | .negSucc zeros => '0' :: '.' :: (List.replicate zeros '0' ++ digits)
  | .ofNat last =>
    if last + 1 < digits.length then digits.take (last + 1) ++ '.' :: digits.drop (last + 1)
    else digits ++ List.replicate (last + 1 - digits.length) '0' ++ style.wholeEnd

/-- The number `d.ddd * 10 ^ magnitude` with its exponent. -/
def scientific (style : NumberStyle) (digits : List Char) (magnitude : Int) : List Char :=
  let fraction :=
    match digits.drop 1 with
    | [] => style.loneDigitEnd
    | rest => '.' :: rest
  let sign := if magnitude < 0 then ['-'] else style.plus
  digits.take 1 ++ fraction ++ style.mark :: (sign ++ Nat.toDigits 10 magnitude.natAbs)

/-- The number `d.ddd * 10 ^ magnitude`. -/
def write (style : NumberStyle) (digits : List Char) (magnitude : Int) : List Char :=
  if style.least ≤ magnitude ∧ magnitude ≤ style.greatest then style.positional digits magnitude
  else style.scientific digits magnitude

end NumberStyle

/-- How many digits of a float are written. -/
inductive FloatDigits where
  /-- As few as read back as the same float. -/
  | shortest (tie : Tie)
  /-- The float rounded to a count of digits, zeros at the end left out. -/
  | rounded (count : Nat)

/-- How a float is written. -/
structure FloatStyle where
  digits : FloatDigits
  number : NumberStyle
  notANumber : List Char
  infinity : List Char

namespace FloatStyle

open Float.Model.UnpackedFloat (Sign)

/-- A minus in front of what is negative. -/
def signed : Sign → List Char → List Char
  | .negative, text => '-' :: text
  | .positive, text => text

/-- The positive float `mantissa * 2 ^ exponent` in the digits of the style. -/
def decimal (style : FloatStyle) (mantissa : Nat) (exponent : Int) (positive : 0 < mantissa) :
    Decimal :=
  let exact := Decimal.ofBinary mantissa exponent
  match style.digits with
  | .shortest tie =>
    let bits := (Float.Model.pack (.finite .positive mantissa exponent positive)).toBits
    exact.shortest tie fun d => d.toFloat.toBits == bits
  | .rounded count => exact.round count

/-- The text of a float. -/
def write (style : FloatStyle) (x : Float) : String :=
  String.ofList <|
    match x.toModel.unpack with
    | .notANumber => style.notANumber
    | .infinity sign => signed sign style.infinity
    | .zero sign => signed sign ('0' :: style.number.wholeEnd)
    | .finite sign mantissa exponent positive =>
      let d := (style.decimal mantissa exponent positive).normalize
      signed sign (style.number.write d.digits d.magnitude)

end FloatStyle

/-- The fewest digits that read back, without an exponent from `0.0001` up to `1e16`; a whole number
keeps `.0`, so that it is never read as an integer. -/
def FloatStyle.debug : FloatStyle where
  digits := .shortest .up
  number := ⟨-4, 15, ['.', '0'], [], 'e', []⟩
  notANumber := "NaN".toList
  infinity := "inf".toList

end ArrowExpr
