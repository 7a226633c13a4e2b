/-!
Lists in text.
-/

namespace ArrowExpr

/-- The items with a comma and a blank between them. -/
def commaSeparated (items : List String) : String := ", ".intercalate items

@[simp] theorem toList_commaSeparated (items : List String) :
    (commaSeparated items).toList = [',', ' '].intercalate (items.map String.toList) :=
  String.toList_intercalate

theorem intercalate_eq_flatMap (separator first : List Char) (rest : List (List Char)) :
    separator.intercalate (first :: rest) = first ++ rest.flatMap (separator ++ ·) := by
  induction rest generalizing first with
  | nil => simp
  | cons second others ih =>
    rw [List.intercalate_cons_cons, ih, List.flatMap_cons]
    simp only [List.append_assoc]

end ArrowExpr
