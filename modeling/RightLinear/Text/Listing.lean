/-! # Lists and sets as text -/

namespace RightLinear.Text

/-- The items with `separator` between them. -/
def joined (separator : List Char) (items : List (List Char)) : List Char :=
  separator.intercalate items

/-- The items between braces, separated by a comma and a space. -/
def braced (items : List (List Char)) : List Char :=
  '\x7b' :: joined [',', ' '] items ++ ['\x7d']

/-- The text and a line feed. -/
def line (text : List Char) : List Char := text ++ ['\n']

end RightLinear.Text
