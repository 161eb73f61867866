import TesLang.Text.Layout
import TesLang.Token
/-!
# The token listing

A table of tokens, one to a line, under a heading.
-/
namespace TesLang.Token

open Text

/-- A row of the table; the columns are those of `source`. -/
def row (source : List Char) (t : Token) : String :=
  flushRight 6 (toString t.line) ++ " | " ++ flushRight 7 (toString (column source t.pos)) ++ " | " ++
    flushLeft 20 t.kind.name ++ " | " ++ t.text

def listing (source : List Char) (ts : List Token) : List String :=
  (flushRight 6 "Line" ++ " | " ++ flushRight 7 "Column" ++ " | " ++ flushLeft 20 "Token" ++ " | Value") ::
    rule 80 '-' :: ts.map (row source)

end TesLang.Token
