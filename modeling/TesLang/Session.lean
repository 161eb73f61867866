import TesLang.Check.Walk
import TesLang.Code.Generator
import TesLang.Node.Outline
import TesLang.Parser.Recovery
import TesLang.Token.Listing
/-!
# Sessions

A session reads, checks and compiles texts one after another, and prints as it goes.  Four things outlive each text:

* the line count, which is never set back: a text starts on the line where the one before it ended;
* the list of parsing errors, which `compile` and `parseTree` start anew, and `compileToCode` does not;
* the nested functions entered, likewise;
* the name of the function at hand, which nothing sets but the session's user.

`compile` says what is wrong with a program, `parseTree` gives its tree, and `compileToCode` its code.  A program with
syntax errors may still have a tree, and `compileToCode` goes by the tree alone.
-/
namespace TesLang

structure Session where
  line : Nat := 1
  errors : List String := []
  entered : List String := []
  functionName : Option String := none
  /-- everything printed so far -/
  printed : String := ""
  deriving DecidableEq, Repr

abbrev SessionM := StateM Session

namespace Session

def print (ls : List String) : SessionM Unit := modify fun s => { s with printed := s.printed ++ Text.unlines ls }

/-- Reads a text. -/
def read (source : String) : SessionM Token.Scan := do
  let scan := Token.lex source.toList (← get).line
  modify fun s => { s with line := scan.line }
  print (scan.notices.map (·.message))
  pure scan

/-- Starts the errors, the nested functions and the name of the function at hand anew. -/
def startAnew : SessionM Unit := modify fun s => { s with errors := [], entered := [], functionName := none }

def addError (message : String) (line : Int) : SessionM Unit :=
  modify fun s =>
    { s with errors := s.errors ++ [if line = 0 then message else "Line " ++ toString line ++ ": " ++ message] }

/-- Parses a text, and keeps its errors and the nested functions entered. -/
def parse (source : String) : SessionM Parse := do
  let scan ← read source
  let p := scan.parse
  modify fun s => { s with errors := s.errors ++ p.errors.map (·.message), entered := s.entered ++ p.entered }
  pure p

/-- What is wrong with a program. -/
def compile (source : String) : SessionM (List String) := do
  startAnew
  let p ← parse source
  let outcome : Except Fault (List Diagnostic) :=
    match p.fault, p.functions with
    | some f, _       => .error f
    | none,   none    => .ok []
    | none,   some fs => check fs
  match outcome with
  | .ok found => pure ((← get).errors ++ found.map (·.message))
  | .error f  => do
    addError ("Parser error: " ++ f.message) 0
    pure (← get).errors

/-- The tree of a program, or `nothing`. -/
def parseTree (source : String) : SessionM Node := do
  startAnew
  let p ← parse source
  match p.fault, p.functions with
  | some f, _       => do
    print ["Parser error: " ++ f.message]
    pure .nothing
  | none,   some fs => pure (.program fs)
  | none,   none    => pure .nothing

/-- Generates the code of a tree. -/
def generate (tree : Node) : SessionM (Except Fault String) := do
  let warn (g : Code.Generator) : SessionM Unit := print (g.warnings.toList.map Code.warning)
  match (Code.Gen.visitTree tree).run {} with
  | .ok _ g    => do
    warn g
    pure (.ok (Code.render g.code.toList))
  | .error f g => do
    warn g
    pure (.error f)

/-- The code of a program, or what is wrong with it. -/
def compileToCode (source : String) : SessionM (Option String × List String) := do
  let failed (f : Fault) : Option String × List String := (none, ["Compiler error: " ++ f.message])
  let p ← parse source
  match p.fault, p.functions with
  | some f, _       => pure (failed f)
  | none,   none    => pure (none, [])
  | none,   some fs =>
    match check fs with
    | .error f  => pure (failed f)
    | .ok []    => do
      match ← generate (.program fs) with
      | .ok code => pure (some code, [])
      | .error f => pure (failed f)
    | .ok found => pure (none, found.map (·.message))

/-- Prints the table of a text's tokens, if it can be read to its end. -/
def printTokens (source : String) : SessionM (Option Fault) := do
  let scan ← read source
  match scan.stop with
  | .fault f => pure (some f)
  | _        => do
    print (Token.listing source.toList scan.tokens)
    pure none

/-- The innermost of the nested functions entered. -/
def innermost : SessionM (Option String) := do return (← get).entered.getLast?

/-- Leaves the innermost of the nested functions entered. -/
def leave : SessionM (Option String) := do
  let name := (← get).entered.getLast?
  modify fun s => { s with entered := s.entered.dropLast }
  pure name

def enter (name : String) : SessionM Unit := modify fun s => { s with entered := s.entered ++ [name] }

def insideFunction : SessionM Bool := do return (← get).functionName.isSome

end Session
end TesLang
