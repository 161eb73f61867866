import TesLang.Text.Printable
/-!
# Quoted texts

A text in a message stands between single quotes, or between double ones if it holds a single quote and no double
one.  The quote itself, backslashes, and the characters that do not print are escaped: three of them by a letter, and
the others by their code point in as many digits as the next larger of three sizes has.
-/
namespace TesLang.Text

/-- A number in `width` hexadecimal digits. -/
def hexDigits : (width : Nat) → Nat → List Char
  | 0,         _ => []
  | width + 1, n => hexDigits width (n / 16) ++ [Nat.digitChar (n % 16)]

/-- A character between two quotes `q`. -/
def escape (q c : Char) : List Char :=
  if c = q ∨ c = '\\' then ['\\', c]
  else if c = '\n' then ['\\', 'n']
  else if c = '\r' then ['\\', 'r']
  else if c = '\t' then ['\\', 't']
  else if isPrintable c then [c]
  else if c.toNat < 0x100 then '\\' :: 'x' :: hexDigits 2 c.toNat
  else if c.toNat < 0x10000 then '\\' :: 'u' :: hexDigits 4 c.toNat
  else '\\' :: 'U' :: hexDigits 8 c.toNat

def quoted (s : String) : String :=
  let q := if s.toList.contains '\x27' && !s.toList.contains '\x22' then '\x22' else '\x27'
  String.ofList (q :: s.toList.flatMap (escape q) ++ [q])

end TesLang.Text
