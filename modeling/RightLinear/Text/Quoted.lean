import RightLinear.Text.Unprintable

/-! # Text between quotation marks

How messages show a text unambiguously: between double quotes, with a backslash before a quote or
a backslash, short names for the common controls, and the code point in braces for every other
character that has no form of its own. -/

namespace RightLinear.Text

/-- The code point of `c` in lower-case hexadecimal, without leading zeros, in braces. -/
def codePoint (c : Char) : List Char :=
  '\\' :: 'u' :: '\x7b' :: Nat.toDigits 16 c.toNat ++ ['\x7d']

/-- How one character stands inside quotation marks. -/
def quotedChar (c : Char) : List Char :=
  if c = '"' ∨ c = '\\' then ['\\', c]
  else if c = '\x00' then ['\\', '0']
  else if c = '\t' then ['\\', 't']
  else if c = '\r' then ['\\', 'r']
  else if c = '\n' then ['\\', 'n']
  else if isUnprintable c then codePoint c
  else [c]

/-- The text between quotation marks. -/
def quoted (s : List Char) : List Char := '"' :: s.flatMap quotedChar ++ ['"']

end RightLinear.Text
