/-!
# Names

A name starts with an ASCII letter or an underscore and goes on with ASCII letters, digits and
underscores. Names stand for variables and for the built-in constants.
-/

namespace LinearRelations.Text

def isLetter (c : Char) : Bool := c.isAlpha || c == '_'

def isLetterOrDigit (c : Char) : Bool := c.isAlphanum || c == '_'

/-- Whether the characters form a name. -/
def isNameChars : List Char → Bool
  | [] => false
  | c :: rest => isLetter c && rest.all isLetterOrDigit

def isName (text : String) : Bool := isNameChars text.toList

end LinearRelations.Text
