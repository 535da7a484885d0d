import RightLinear.Json.Text
import RightLinear.Text.Listing

/-! # Writing JSON

Values are written from the inside out: an array or an object is put together from the texts of its
parts and the depth at which it stands.  The compact style has no white space at all; the pretty
style puts every part on a line of its own, indented by two spaces a level. -/

namespace RightLinear.Json

/-- How the parts of a value are set apart. -/
inductive Style
  | compact
  | pretty
deriving Repr, DecidableEq

namespace Style

/-- What stands before a part at the given depth. -/
def indent : Style → Nat → List Char
  | compact, _ => []
  | pretty, depth => '\n' :: List.replicate (2 * depth) ' '

/-- What stands between a key and its value. -/
def colon : Style → List Char
  | compact => [':']
  | pretty => [':', ' ']

variable (style : Style)

/-- Parts between brackets, for a value at the given depth. -/
def enclosed (opening closing : Char) (depth : Nat) (parts : List (List Char)) : List Char :=
  if parts.isEmpty then [opening, closing]
  else
    opening :: Text.joined [','] (parts.map (style.indent (depth + 1) ++ ·)) ++
      style.indent depth ++ [closing]

/-- The array of the given elements. -/
def array (depth : Nat) (elements : List (List Char)) : List Char :=
  style.enclosed '[' ']' depth elements

/-- The object of the given keys and values. -/
def object (depth : Nat) (entries : List (List Char × List Char)) : List Char :=
  style.enclosed '\x7b' '\x7d' depth (entries.map fun e => encode e.1 ++ style.colon ++ e.2)

end Style

/-- A number in decimal digits. -/
def natural (n : Nat) : List Char := Nat.toDigits 10 n

end RightLinear.Json
