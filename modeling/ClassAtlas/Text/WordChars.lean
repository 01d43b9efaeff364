import ClassAtlas.Text.AlphabeticChars
import ClassAtlas.Text.DigitChars
import ClassAtlas.Text.MarkChars

/-! # Word characters

What words are made of: alphabetic characters, marks, decimal digits, connecting punctuation such as
the underscore, and the two joiners.
-/

namespace ClassAtlas.Text

def connectorRanges : List CharRange :=
  [(95, 95), (8255, 8256), (8276, 8276), (65075, 65076), (65101, 65103), (65343, 65343)]

def joinerRanges : List CharRange := [(8204, 8205)]

def wordSet : CharSet :=
  .ofRanges (alphabeticRanges ++ markRanges ++ digitRanges ++ connectorRanges ++ joinerRanges)

def isWordChar (c : Char) : Bool := wordSet.contains c

end ClassAtlas.Text
