/-
  Serial names and the mark of a nullable type.

  A nullable type carries its name with a question mark behind it. `mark` puts it there. To get at
  the name again, `beforeMark?` gives what stands before a mark at the end, while `isMarked` only
  tells whether there is one and leaves it to `dropLast` to take it off.
-/

namespace TypeSchema

namespace Name

def mark (name : String) : String := name ++ "?"

/-- What stands before the mark, for a name that ends in one. -/
def beforeMark? (name : String) : Option String :=
  (['?'].isSuffixOf? name.toList).map String.ofList

def isMarked (name : String) : Bool := name.toList.getLast? = some '?'

/-- The name without its last character, whichever that is. -/
def dropLast (name : String) : String := String.ofList name.toList.dropLast

@[simp] theorem isMarked_mark (name : String) : isMarked (mark name) = true := by
  simp [isMarked, mark]

@[simp] theorem dropLast_mark (name : String) : dropLast (mark name) = name := by
  simp [dropLast, mark]

end Name

end TypeSchema
