/-!
The lines of a text. A newline ends a line, a carriage return directly before it belongs to it, and
a text that ends in a newline has no further, empty line.
-/

set_option autoImplicit false

namespace LogoLang.Text

def dropReturn : List Char → List Char
  | [] => []
  | ['\r'] => []
  | c :: cs => c :: dropReturn cs

/-- The lines of `cs` after the part `line` of its first line, which is kept newest first. -/
def linesAfter (line : List Char) : List Char → List String
  | [] => if line = [] then [] else [String.ofList line.reverse]
  | '\n' :: cs => String.ofList (dropReturn line.reverse) :: linesAfter [] cs
  | c :: cs => linesAfter (c :: line) cs

def lines (s : String) : List String := linesAfter [] s.toList

end LogoLang.Text
