import ClassAtlas.Text.CharSet

/-! # White space -/

namespace ClassAtlas.Text

def spaceRanges : List CharRange :=
  [(9, 13), (32, 32), (133, 133), (160, 160), (5760, 5760), (8192, 8202), (8232, 8233),
    (8239, 8239), (8287, 8287), (12288, 12288)]

def spaceSet : CharSet := ⟨spaceRanges⟩

def isSpaceChar (c : Char) : Bool := spaceSet.contains c

end ClassAtlas.Text
