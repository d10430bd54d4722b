/-
  Quoted text: between double quotes, with an escape for each character that would not show.

  Four blanks and delimiters have escapes of two characters, and the null character has one too.
  Every other character that leaves no mark is named by its number.
-/
import TypeSchema.Text.Unprintable

namespace TypeSchema.Text

/-- The characters that stand for `c` between the quotes. -/
def escape (c : Char) : List Char :=
  if c = '\x00' then ['\\', '0']
  else if c = '\t' then ['\\', 't']
  else if c = '\n' then ['\\', 'n']
  else if c = '\r' then ['\\', 'r']
  else if c = '"' || c = '\\' then ['\\', c]
  else if isUnprintable c then
    ['\\', 'u', '\x7b'] ++ Nat.toDigits 16 c.toNat ++ ['\x7d']
  else [c]

def quote (s : String) : String :=
  String.ofList ('"' :: s.toList.flatMap escape ++ ['"'])

end TypeSchema.Text
