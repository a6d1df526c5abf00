/-
  PatternGraph.Path.Anonymous

  Names of nodes and relationships that were written without one.  Such a
  name is a fixed stem and a decimal number.
-/

namespace PatternGraph

/-- What every anonymous name starts with. -/
def anonymousStem : String := "_anon_"

/-- The anonymous name of number `n`. -/
def anonymousName (n : Nat) : String := anonymousStem ++ toString n

/-- The name is the stem with one or more decimal digits after it, and nothing else. -/
def isAnonymous (name : String) : Bool :=
  match name.toList with
  | '_' :: 'a' :: 'n' :: 'o' :: 'n' :: '_' :: digits => !digits.isEmpty && digits.all Char.isDigit
  | _ => false

end PatternGraph
