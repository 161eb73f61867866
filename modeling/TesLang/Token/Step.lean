import TesLang.Fault
import TesLang.Text.Digit
import TesLang.Token
/-!
# One step of reading

At each position of a text one rule applies, and the first character tells which: a blank, a word, a number, a
string, a comment, a line end, a symbol, or else a stray run.  `step` finds the rule and how far it reaches.

A comment is opened by `</` and closed by `/>`, and comments nest.  A stray run is what no rule fits; it reaches to
the next space, tab, line end or semicolon, and there has to be one.

Two texts play a part.  Most rules look at the text being read, `c :: cs`.  The ends of comments and of stray runs
are sought in `there`, the text that the reader will go on with after the next token, at the same position.  The two
are one and the same text until a comment is found that is never closed (`Token.lex`).
-/
namespace TesLang.Token

open Text (isDigit ofDigits)

def isWordStart (c : Char) : Bool := c.isAlpha || c == '_'

def isWordPart (c : Char) : Bool := c.isAlphanum || c == '_'

/-- A string stands between two double quotes or between two single ones. -/
def isQuote (c : Char) : Bool := c == '\x22' || c == '\x27'

/-- The body of a string opened by the quote `q`, if it is closed before the line ends.  A backslash keeps the
character after it, so that a quote there does not close the string. -/
def quoted? (q : Char) : List Char → Option (List Char)
  | []            => none
  | '\n' :: _     => none
  | '\\' :: cs    =>
    match cs with
    | []          => none
    | '\n' :: _   => none
    | c :: cs     => (quoted? q cs).map fun body => '\\' :: c :: body
  | c :: cs       => if c = q then some [] else (quoted? q cs).map (c :: ·)

/-- How many characters, and how many line ends among them, it takes to close a comment and the `depth` comments
around it; nothing if the text ends before that. -/
def closing? (depth taken newlines : Nat) : List Char → Option (Nat × Nat)
  | []               => none
  | '<' :: '/' :: cs => closing? (depth + 1) (taken + 2) newlines cs
  | '/' :: '>' :: cs =>
    match depth with
    | 0         => some (taken + 2, newlines)
    | depth + 1 => closing? depth (taken + 2) newlines cs
  | c :: cs          => closing? depth (taken + 1) (if c = '\n' then newlines + 1 else newlines) cs

/-- The symbol at the head of a text, and its spelling. -/
def symbol? (cs : List Char) : Option (String × Kind) :=
  symbols.find? fun s => s.1.toList.isPrefixOf cs

/-- The characters that end a stray run. -/
def endsStray (c : Char) : Bool := c == ' ' || c == ';' || c == '\n' || c == '\t'

/-- The most digits that a number literal may have. -/
def maxDigits : Nat := 4300

/-- What a rule finds at one position.  `extra` counts the characters after the first that it covers. -/
inductive Step where
  /-- blanks, line ends or a closed comment -/
  | gap (extra newlines : Nat)
  | token (kind : Kind) (value : Value) (extra : Nat)
  /-- a run of characters that no rule fits -/
  | stray (run : List Char)
  /-- a comment that is never closed -/
  | unclosed
  | fault (f : Fault)
  deriving DecidableEq, Repr

/-- The stray run at the head of a text. -/
def strayStep (there : List Char) : Step :=
  let run := there.takeWhile (!endsStray ·)
  if run.length < there.length then .stray run else .fault .runsOff

/-- What stands at the head of the text `c :: cs`. -/
def step (c : Char) (cs there : List Char) : Step :=
  if c = ' ' ∨ c = '\t' then
    .gap 0 0
  else if isWordStart c then
    let word := c :: cs.takeWhile isWordPart
    .token (.ofWord (String.ofList word)) (.text (String.ofList word)) (word.length - 1)
  else if isDigit c then
    let digits := c :: cs.takeWhile isDigit
    if maxDigits < digits.length then .fault (.tooManyDigits digits.length)
    else .token .number (.number (ofDigits digits)) (digits.length - 1)
  else if c = '\n' then
    let run := (cs.takeWhile (· = '\n')).length
    .gap run (run + 1)
  else if c = '<' ∧ cs.head? = some '/' then
    match closing? 0 0 0 (there.drop 2) with
    | some (taken, newlines) => .gap (taken + 1) newlines
    | none                   => .unclosed
  else
    match if isQuote c then quoted? c cs else none with
    | some body => .token .string (.text (String.ofList body)) (body.length + 1)
    | none      =>
      match symbol? (c :: cs) with
      | some (spelling, kind) => .token kind (.text spelling) (spelling.length - 1)
      | none                  => strayStep there

end TesLang.Token
