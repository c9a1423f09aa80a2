/-!
# Array marks

A column type is an array of another when the *array mark* `[]` stands at its
end, once or several times. Here are the test for the mark
(`SqlCatalog.ArrayMark.isMarked`) and the name without its marks, the type of
the elements (`SqlCatalog.ArrayMark.element`).
-/

namespace SqlCatalog

namespace ArrayMark

/-- The mark. -/
def mark : List Char := ['[', ']']

/-- **Whether a text ends in the array mark.** -/
def isMarked (text : String) : Bool :=
  mark.isSuffixOf text.toList

/-- A reversed text without the marks it begins with. -/
def dropMarks : List Char → List Char
  | [] => []
  | [c] => [c]
  | c :: d :: cs => if c = ']' ∧ d = '[' then dropMarks cs else c :: d :: cs

/-- **The type of the elements**: a type without the array marks at its
end. -/
def element (type : String) : String :=
  String.ofList (dropMarks type.toList.reverse).reverse

end ArrayMark

end SqlCatalog
