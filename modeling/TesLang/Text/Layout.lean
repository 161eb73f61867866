/-!
# Lines and columns

What a text looks like when it is laid out: line ends, the column of a position, fields of a fixed width, and a
list of lines as the text that prints them.
-/
namespace TesLang.Text

/-- Every line end, be it `\r\n`, `\r` or `\n`, as one `\n`. -/
def foldLineEnds : List Char → List Char
  | '\r' :: '\n' :: cs => '\n' :: foldLineEnds cs
  | '\r' :: cs         => '\n' :: foldLineEnds cs
  | c :: cs            => c :: foldLineEnds cs
  | []                 => []

/-- Where the line of position `pos` starts: after the last line end before it. -/
def lineStart (source : List Char) (pos : Nat) : Nat :=
  let before := source.take pos
  before.length - (before.reverse.takeWhile (· ≠ '\n')).length

/-- The column of a position, counted from one. -/
def column (source : List Char) (pos : Nat) : Nat :=
  pos - lineStart source pos + 1

/-- A run of `n` spaces. -/
def spaces (n : Nat) : String := String.ofList (List.replicate n ' ')

/-- A run of `n` copies of `c`, the rule under a heading. -/
def rule (n : Nat) (c : Char) : String := String.ofList (List.replicate n c)

/-- A field of at least `n` characters, filled up on the left. -/
def flushRight (n : Nat) (s : String) : String := spaces (n - s.length) ++ s

/-- A field of at least `n` characters, filled up on the right. -/
def flushLeft (n : Nat) (s : String) : String := s ++ spaces (n - s.length)

/-- The text that prints the given lines, each with its line end. -/
def unlines (ls : List String) : String :=
  ls.foldl (fun acc l => acc ++ l ++ "\n") ""

end TesLang.Text
