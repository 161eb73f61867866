import TesLang.Token
/-!
# Parsers

A parser takes tokens from the front of the input, and gets stuck at the first token that cannot continue what has
been read; it never goes back.  The input also keeps the names of the nested functions that were entered, in the
order in which they were, and these names survive when a parser gets stuck.

The parsers of the grammar call each other, so each takes a bound on the depth of its calls.  `Parser.depth` is a
bound that is always enough for the input at hand, and `Halt.spent` marks a bound that was not.
-/
namespace TesLang

/-- What a parser works on. -/
structure Input where
  tokens : List Token
  entered : List String := []
  deriving DecidableEq, Repr

/-- Why a parser halts. -/
inductive Halt where
  /-- the next token, or the end of the input, does not fit -/
  | stuck
  /-- the bound on the depth of calls was too small -/
  | spent
  deriving DecidableEq, Repr

abbrev Parser := EStateM Halt Input

namespace Parser

/-- The kind of the next token; nothing at the end of the input. -/
def peek : Parser (Option Kind) := fun s => .ok (s.tokens.head?.map (·.kind)) s

/-- Takes the next token, whatever it is. -/
def take : Parser Token := fun s =>
  match s.tokens with
  | []      => .error .stuck s
  | t :: ts => .ok t { s with tokens := ts }

/-- Takes the next token, which has to be of kind `k`. -/
def expect (k : Kind) : Parser Token := fun s =>
  match s.tokens with
  | []      => .error .stuck s
  | t :: ts => if t.kind = k then .ok t { s with tokens := ts } else .error .stuck s

/-- Takes the next token if it is of kind `k`. -/
def takeIf (k : Kind) : Parser (Option Token) := fun s =>
  match s.tokens with
  | []      => .ok none s
  | t :: ts => if t.kind = k then .ok (some t) { s with tokens := ts } else .ok none s

/-- Notes that the nested function `name` was entered. -/
def enter (name : String) : Parser Unit := fun s => .ok () { s with entered := s.entered ++ [name] }

/-- The end of the input. -/
def ending : Parser Unit := fun s => if s.tokens.isEmpty then .ok () s else .error .stuck s

def stuck {α : Type} : Parser α := throw .stuck

def spent {α : Type} : Parser α := throw .spent

/-- A depth of calls that is enough for the given tokens: no chain of calls is longer than eight without taking one. -/
def depth (ts : List Token) : Nat := 8 * (ts.length + 1)

end Parser
end TesLang
