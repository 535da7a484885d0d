import RightLinear.Decimal.Shortest
import RightLinear.Text.Quoted

/-! # What can be wrong with a JSON text

A text can break the rules of the format, end too early, or hold something else than what is asked
for.  A mismatch says what was found and what was expected. -/

namespace RightLinear.Json

/-- What a text holds where something else is expected. -/
inductive Found
  | integer (n : Int)
  /-- A number outside the 64-bit integers, by the bits of its binary approximation. -/
  | float (bits : UInt64)
  | boolean (b : Bool)
  | null
  | text (s : List Char)
  | sequence
  | map
deriving Repr, DecidableEq

/-- Numbers in messages have an exponent below `10 ^ -5` and from `10 ^ 16` on. -/
def floatLayout : Decimal.Layout := ⟨-5, 15⟩

/-- What was found, in words. -/
def Found.describe : Found → String
  | .integer n => s!"integer `{n}`"
  | .float bits => "floating point `" ++ String.ofList (floatLayout.render bits) ++ "`"
  | .boolean b => s!"boolean `{b}`"
  | .null => "null"
  | .text s => "string " ++ String.ofList (Text.quoted s)
  | .sequence => "sequence"
  | .map => "map"

/-- How a text differs from what is asked for. -/
inductive Mismatch
  | missingField (name : String)
  | duplicateField (name : String)
  | wrongType (found : Found) (expected : String)
  | wrongValue (found : Found) (expected : String)
  | wrongLength (length : Nat) (expected : String)
deriving Repr, DecidableEq

/-- What a mismatch is, in words. -/
def Mismatch.message : Mismatch → String
  | .missingField name => s!"missing field `{name}`"
  | .duplicateField name => s!"duplicate field `{name}`"
  | .wrongType found expected => "invalid type: " ++ found.describe ++ ", expected " ++ expected
  | .wrongValue found expected => "invalid value: " ++ found.describe ++ ", expected " ++ expected
  | .wrongLength length expected => s!"invalid length {length}, expected " ++ expected

/-- What is wrong with a text. -/
inductive Fault
  | malformed
  | truncated
  | mismatch (mismatch : Mismatch)
deriving Repr, DecidableEq

/-- What a fault is, in words. -/
def Fault.message : Fault → String
  | .malformed => "malformed text"
  | .truncated => "unexpected end of text"
  | .mismatch m => m.message

end RightLinear.Json
