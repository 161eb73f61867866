import TesLang.Token.Step
/-!
# Reading a text

`scan` reads a text from left to right into tokens, and notes the stray runs it had to skip.

A comment that is never closed is noted, and then read as part of the program, in a way of its own.  The text from
the comment on becomes the *next text*.  The text at hand is read once more from its start, up to its first token,
which so occurs twice; what follows that token is then taken from the next text, at the position where the token
ended.  While the text at hand is read once more, the ends of comments and stray runs are sought in the next text
already.  `replay` is that reading, and `restart` repeats it for as long as further unclosed comments are found.

Each unclosed comment makes the next text shorter, or leaves everything as it was; in the latter case the reading
would never end.  So as many restarts as the text is long, and two more, tell one from the other.
-/
namespace TesLang.Token

/-- What is worth a remark while a text is read. -/
inductive Notice where
  | stray (run : String) (line : Nat)
  | unclosed (line : Nat)
  deriving DecidableEq, Repr

def Notice.message : Notice → String
  | stray run line => "Illegal token \"" ++ run ++ "\" in line " ++ toString line
  | unclosed line  => "Error: Unclosed comment starting at line " ++ toString line

/-- How a reading ended. -/
inductive Stop where
  | finished
  | fault (f : Fault)
  /-- at a comment that is never closed, which starts at `pos` -/
  | unclosed (pos : Nat)
  deriving DecidableEq, Repr

/-- What a reading found: tokens and notices, the line on which it ended, and how. -/
structure Scan where
  tokens : List Token := []
  notices : List Notice := []
  line : Nat
  stop : Stop := .finished
  deriving DecidableEq, Repr

namespace Scan

/-- A token, then the rest of the reading. -/
def token (t : Token) (s : Scan) : Scan := { s with tokens := t :: s.tokens }

/-- A notice, then the rest of the reading. -/
def notice (n : Notice) (s : Scan) : Scan := { s with notices := n :: s.notices }

/-- A reading that ends at a fault. -/
def fault (f : Fault) (line : Nat) : Scan := { line, stop := .fault f }

/-- Goes on with `again` where a reading ended at an unclosed comment. -/
def orAgain (s : Scan) (again : Nat → Nat → Scan) : Scan :=
  match s.stop with
  | .unclosed pos =>
    let t := again pos s.line
    { t with tokens := s.tokens ++ t.tokens, notices := s.notices ++ t.notices }
  | _ => s

end Scan

/-- Reads a text, which starts at position `pos` on line `line`, after skipping its first `skip` characters. -/
def scan : List Char → (skip pos line : Nat) → Scan
  | [],      _,        _,   line => { line }
  | _ :: cs, skip + 1, pos, line => scan cs skip (pos + 1) line
  | c :: cs, 0,        pos, line =>
    match step c cs (c :: cs) with
    | .gap extra newlines     => scan cs extra (pos + 1) (line + newlines)
    | .token kind value extra => (scan cs extra (pos + 1) line).token ⟨kind, value, line, pos⟩
    | .stray run              => (scan cs (run.length - 1) (pos + 1) line).notice (.stray (String.ofList run) line)
    | .unclosed               => { line, notices := [.unclosed line], stop := .unclosed pos }
    | .fault f                => .fault f line

/-- Reads the text at hand once more, with the next text at the same position beside it.  After the first token
`next` reads on in the next text; `again` takes over at an unclosed comment. -/
def replay (next : List Char → Nat → Nat → Scan) (again : Nat → Nat → Scan) :
    List Char → List Char → (skip pos line : Nat) → Scan
  | [],      _,     _,        _,   line => { line }
  | _ :: cs, there, skip + 1, pos, line => replay next again cs there.tail skip (pos + 1) line
  | c :: cs, there, 0,        pos, line =>
    match step c cs there with
    | .gap extra newlines     => replay next again cs there.tail extra (pos + 1) (line + newlines)
    | .token kind value extra =>
      (next (there.drop (extra + 1)) (pos + extra + 1) line).token ⟨kind, value, line, pos⟩
    | .stray []               => (Scan.fault (.noRule c) line).notice (.stray "" line)
    | .stray run              =>
      (replay next again cs there.tail (run.length - 1) (pos + 1) line).notice (.stray (String.ofList run) line)
    | .unclosed               => (again pos line).notice (.unclosed line)
    | .fault f                => .fault f line

/-- Reads `whole` once more and goes on in `text`. -/
def restart : Nat → (whole text : List Char) → Nat → Scan
  | 0,          _,     _,    line => .fault .endless line
  | rounds + 1, whole, text, line =>
    replay
      (fun there pos line => (scan there 0 pos line).orAgain fun pos line => restart rounds text (text.drop pos) line)
      (fun pos line => restart rounds whole (text.drop pos) line)
      whole text 0 0 line

/-- The tokens of a text that starts on line `line`. -/
def lex (source : List Char) (line : Nat) : Scan :=
  (scan source 0 0 line).orAgain fun pos line => restart (source.length + 2) source (source.drop pos) line

end TesLang.Token
