import TesLang.Parser.Statement
import TesLang.Token.Scan
/-!
# Programs, and what is left of them after a syntax error

A syntax error is the first token that cannot continue what was read, or the end of the input.  At an offending token
everything read so far is given up, the token is dropped, and reading starts anew with the token after it, so the tree
in the end has only the functions after the last error.  At the end of the input there is no tree.

The first error is always reported.  A later one is reported only if at least three tokens were read since the
error before it, so that one mistake is not reported over and over.
-/
namespace TesLang

inductive SyntaxError where
  | unexpected (t : Token)
  | endOfInput
  deriving DecidableEq, Repr

namespace SyntaxError

/-- The keywords that are recognised in capital letters, to suggest the right spelling. -/
def shouted : List String := ["begin", "end", "if", "else", "while", "do", "for", "return"]

/-- What may have gone wrong at a token. -/
def hint (t : Token) : String :=
  match t.kind with
  | .id =>
    let lower := String.ofList (t.text.toList.map Char.toLower)
    if shouted.contains lower && t.text != lower then
      " — did you mean '" ++ lower ++ "'? Keywords must be lowercase"
    else
      " — unexpected identifier" ++ (if 1 < t.line then " — possible missing semicolon on the previous line" else "")
  | .leftBrace => " — did you mean to use 'begin' instead of '\x7b'?"
  | .leftParen => " — maybe you're missing [[ ]] for conditions?"
  | _          => ""

def message : SyntaxError → String
  | unexpected t =>
    let line := "Line " ++ toString t.line ++ ": "
    line ++ line ++ "Syntax error near '" ++ t.text ++ "' (token: " ++ t.kind.name ++ ")" ++ hint t
  | endOfInput   => "Syntax error: unexpected end of file"

end SyntaxError

/-- What parsing comes to: a tree or none, the errors reported, the nested functions entered, and the fault that
cut it short, if one did. -/
structure Parse where
  functions : Option (List Node) := none
  errors : List SyntaxError := []
  entered : List String := []
  fault : Option Fault := none

namespace Parse

/-- An error, perhaps reported, before the rest of the parse. -/
def after (errors : List SyntaxError) (entered : List String) (p : Parse) : Parse :=
  { p with errors := errors ++ p.errors, entered := entered ++ p.entered }

/-- Whether an error is reported that comes `read` tokens after the one before it, if there was one. -/
def reported (first : Bool) (read : Nat) : Bool := first || decide (3 ≤ read)

/-- Parses the tokens, and starts anew after each offending one.  `stop` tells what is found at their end. -/
def restarting : Nat → (first : Bool) → List Token → Token.Stop → Parse
  | 0,     _,     _,  _    => {}
  | n + 1, first, ts, stop =>
    match (Parser.program (Parser.depth ts)).run { tokens := ts } with
    | .ok fs s    =>
      match stop with
      | .fault f => { entered := s.entered, fault := some f }
      | _        => { functions := some fs, entered := s.entered }
    | .error _ s  =>
      let read := ts.length - s.tokens.length
      match s.tokens with
      | t :: rest =>
        (restarting n false rest stop).after (if reported first read then [.unexpected t] else []) s.entered
      | []        =>
        match stop with
        | .fault f => { entered := s.entered, fault := some f }
        | _        => { errors := if reported first read then [.endOfInput] else [], entered := s.entered }

end Parse

/-- The program that a reading holds. -/
def Token.Scan.parse (s : Token.Scan) : Parse :=
  Parse.restarting (s.tokens.length + 1) true s.tokens s.stop

end TesLang
