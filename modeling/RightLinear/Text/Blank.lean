/-! # White space, words and fields

Blank characters are the 25 code points with the Unicode property `White_Space`.  On top of that
class stand the cuts that the line format of grammars needs: `trim` drops blanks at both ends,
`words` lists the maximal runs without blanks, `fields` cuts at every separator. -/

namespace RightLinear.Text

/-- The Unicode property `White_Space`. -/
def isBlank (c : Char) : Bool :=
  let n := c.toNat
  (9 ≤ n && n ≤ 13) || n == 0x20 || n == 0x85 || n == 0xA0 || n == 0x1680 ||
    (0x2000 ≤ n && n ≤ 0x200A) || n == 0x2028 || n == 0x2029 || n == 0x202F || n == 0x205F ||
    n == 0x3000

/-! ### Trimming -/

/-- Drops the blanks in front. -/
def trimStart (s : List Char) : List Char := s.dropWhile isBlank

/-- Drops the blanks at the end. -/
def trimEnd (s : List Char) : List Char := (s.reverse.dropWhile isBlank).reverse

/-- Drops the blanks at both ends. -/
def trim (s : List Char) : List Char := trimEnd (trimStart s)

/-! ### Cutting -/

/-- Puts `c` in front of the first field. -/
def consFirst (c : Char) : List (List Char) → List (List Char)
  | [] => [[c]]
  | f :: fs => (c :: f) :: fs

/-- The texts between the characters of the class `p`: one more than there are such characters. -/
def cutWhere (p : Char → Bool) (s : List Char) : List (List Char) :=
  s.foldr (fun c fs => if p c then [] :: fs else consFirst c fs) [[]]

/-- The texts between the occurrences of `sep`. -/
def fields (sep : Char) (s : List Char) : List (List Char) := cutWhere (· == sep) s

/-- The maximal runs of characters that are not blank. -/
def words (s : List Char) : List (List Char) := (cutWhere isBlank s).filter fun w => !w.isEmpty

theorem cutWhere_cons (p : Char → Bool) (c : Char) (s : List Char) :
    cutWhere p (c :: s) = if p c then [] :: cutWhere p s else consFirst c (cutWhere p s) := rfl

end RightLinear.Text
