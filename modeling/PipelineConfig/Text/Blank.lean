/-!
# Blank characters

A text is blank when it has nothing but white space in it, in the sense of the
Unicode property of that name.
-/

namespace PipelineConfig.Text

/-- The codes of the white-space characters, as ascending ranges with both ends
included. -/
def blankRanges : List (Nat × Nat) :=
  [(0x9, 0xD), (0x20, 0x20), (0x85, 0x85), (0xA0, 0xA0), (0x1680, 0x1680), (0x2000, 0x200A),
   (0x2028, 0x2029), (0x202F, 0x202F), (0x205F, 0x205F), (0x3000, 0x3000)]

/-- Whether a character is white space. -/
def isBlank (c : Char) : Bool :=
  blankRanges.any fun (first, last) => first ≤ c.toNat && c.toNat ≤ last

/-- Whether a text has nothing but white space in it. -/
def allBlank (s : String) : Bool := s.toList.all isBlank

end PipelineConfig.Text
