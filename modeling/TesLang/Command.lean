import TesLang.Directory
import TesLang.Session
import TesLang.Text.Utf8
/-!
# The command line

The command compiles one file.  It checks the program, shows its tree, generates its code and saves the code beside
the file.  The text is read anew for each of the three, so the notices of the reader may come three times, and the
lines of the tree are counted on from the end of the first reading.

`Command.run` is the command over a `Directory`, the files and folders around it.  `Command.start` is the command with
its arguments: unless there is exactly one, it says how it is used and starts anew, until the stack is used up.
-/
namespace TesLang

open Text

namespace Command

/-- A text in which each `old` is replaced by `new`, from left to right, after `skip` characters are dropped. -/
def replaceAll (old new : List Char) : (skip : Nat) → List Char → List Char
  | _,        []      => []
  | skip + 1, _ :: cs => replaceAll old new skip cs
  | 0,        c :: cs =>
    if old.isPrefixOf (c :: cs) then new ++ replaceAll old new (old.length - 1) cs
    else c :: replaceAll old new 0 cs

/-- Where the code of a file is saved. -/
def outputName (name : String) : String :=
  let swap (old : String) (cs : List Char) : List Char := replaceAll old.toList ".tsm".toList 0 cs
  let output := String.ofList (swap ".txt" (swap ".tl" name.toList))
  if output = name then name ++ ".tsm" else output

/-- Compiles a text.  The result is the code to be saved. -/
def process (name source : String) : SessionM (Option String) := do
  Session.print ["TesLang Compiler - Processing: " ++ name, rule 50 '=', "Step 1 & 2: Parsing and Semantic Analysis..."]
  match ← Session.compile source with
  | [] => do
    Session.print ["✓ Parsing and semantic analysis successful"]
    let tree ← Session.parseTree source
    Session.print (diagramOf "Abstract Syntax Tree (AST)" tree)
    Session.print ["", "Step 3: Generating Intermediate Code...", rule 30 '-']
    match ← Session.compileToCode source with
    | (code, []) => do
      Session.print ["✓ Code generation successful", "", "Generated Intermediate Code:", rule 50 '=',
        code.getD "None", rule 50 '=']
      pure code
    | (_, errors) => do
      Session.print ("Code generation errors:" :: errors)
      pure none
  | errors => do
    Session.print ("Compilation errors found:" :: rule 30 '-' :: errors)
    pure none

/-- What is printed when the code is saved, or is not. -/
def saving (output : String) : Except String Unit → List String
  | .ok ()        => ["", "✓ Intermediate code saved to: " ++ output]
  | .error reason => ["", "⚠ Could not save output file: " ++ reason]

def notFound (name : String) : String := "Error: File '" ++ name ++ "' not found"

def notReadable (reason : String) : String := "Error reading file: " ++ reason

/-- What is printed if the command is not given exactly one file. -/
def usage : List String :=
  ["Usage: python main.py <input_file>", "Or run without arguments to test the example code"]

/-- How a command ended. -/
structure Outcome where
  exit : Nat
  printed : String
  directory : Directory
  deriving DecidableEq, Repr

/-- Compiles the file `name` of a directory. -/
def run (name : String) (d : Directory) : Outcome :=
  let failed (text : String) : Outcome := ⟨1, unlines [text], d⟩
  match d.read name with
  | .error .notFound => failed (notFound name)
  | .error e         => failed (notReadable (e.message name))
  | .ok bytes        =>
    match Utf8.decode bytes with
    | .error broken => failed (notReadable broken.message)
    | .ok chars     =>
      let (code, s) := (process name (String.ofList (foldLineEnds chars))).run {}
      match code with
      | none      => ⟨0, s.printed, d⟩
      | some code =>
        let output := outputName name
        match d.write output code.toUTF8.toList with
        | .ok d'   => ⟨0, s.printed ++ unlines (saving output (.ok ())), d'⟩
        | .error e => ⟨0, s.printed ++ unlines (saving output (.error (e.message output))), d⟩

/-- How a command that was started ends. -/
inductive Ending where
  | ended (o : Outcome)
  /-- the stack was used up, and this was printed -/
  | overflow (printed : String)

/-- What ends in the same way, with something printed first. -/
def Ending.after (printed : String) : Ending → Ending
  | .ended o       => .ended { o with printed := printed ++ o.printed }
  | .overflow rest => .overflow (printed ++ rest)

/-- Starts the command, on a stack that has room for so many calls. -/
def start (args : List String) (d : Directory) : (room : Nat) → Ending
  | 0        => .overflow ""
  | room + 1 =>
    match args with
    | [name] => .ended (run name d)
    | _      => (start args d room).after (unlines usage)

/-- **Without exactly one file the command never ends**, however much room it has. -/
theorem start_overflow {args : List String} (h : args.length ≠ 1) (d : Directory) (room : Nat) :
    start args d room = .overflow (String.join (List.replicate room (unlines usage))) := by
  induction room with
  | zero         => rfl
  | succ room ih =>
    unfold start
    split
    · contradiction
    · rw [ih, List.replicate_succ, String.join_cons]
      rfl

/-- The fixed program of the demonstration. -/
def demoProgram : String :=
  "funk main() <null> \x7b\n    x :: vector;\n    x = list(5);\n    x[0] = 42;\n    print(x[0]);\n    return;\n\x7d"

/-- Compiles the fixed program and prints its code. -/
def demo : SessionM Unit := do
  Session.print ["Compiling TesLang code...", rule 50 '=']
  match ← Session.compileToCode demoProgram with
  | (code, []) =>
    Session.print ["Generated Intermediate Code:", rule 30 '-', code.getD "None", rule 30 '-',
      "Expected behavior: Should create array and print 42"]
  | (_, errors) => Session.print ("Compilation errors:" :: errors)

end Command
end TesLang
