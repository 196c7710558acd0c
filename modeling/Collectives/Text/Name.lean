import Collectives.Text.Blank

/-!
# Names

Names are compared without regard to case and to blanks around them; the names of collectives and
algorithms also without regard to `_` and `-`. Case matters for ASCII letters only: the one other
character with a lower case in ASCII is the Kelvin sign, and no name has a `k`.
-/

namespace Collectives.Text

def loweredChars (cs : List Char) : List Char := (trim cs).map Char.toLower

def isJoiner (c : Char) : Bool := c = '_' || c = '-'

def compactChars (cs : List Char) : List Char := (loweredChars cs).filter (!isJoiner ·)

/-- A name in lower case, without blanks around it. -/
def lowered (name : String) : String := .ofList (loweredChars name.toList)

/-- A name in lower case, without blanks around it and without joiners. -/
def compact (name : String) : String := .ofList (compactChars name.toList)

end Collectives.Text
