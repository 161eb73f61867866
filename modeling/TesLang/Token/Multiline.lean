/-!
# Strings over several lines

A string between triple double quotes may run over several lines.  No text that `Token.lex` reads holds one, because
two double quotes are an empty string already; the rule is for texts that were cut out by other means.
-/
namespace TesLang.Token

/-- What stands between the triple quotes of a text, and the number of line ends in the whole of it. -/
def multiline (cs : List Char) : List Char × Nat :=
  ((cs.drop 3).take (cs.length - 6), cs.count '\n')

end TesLang.Token
