import TesLang.Command
/-!
# The program

Runs the command on the file system.
-/
open TesLang

/-- A failure of the file system in writing. -/
def fileFailure (name : String) : IO.Error → String
  | .noFileOrDirectory ..       => FileError.notFound.message name
  | .inappropriateType _ 20 _   => FileError.notFolder.message name
  | .inappropriateType ..       => FileError.isFolder.message name
  | .invalidArgument _ 36 _     => FileError.nameTooLong.message name
  | e                           => toString e

def compileFile (name : String) : IO UInt32 := do
  let bytes ← try
      let b ← IO.FS.readBinFile name
      pure (Except.ok b.toList)
    catch e => pure (Except.error e)
  match bytes with
  | .error (.noFileOrDirectory ..) => do
    IO.println (Command.notFound name)
    pure 1
  | .error e => do
    IO.println (Command.notReadable (fileFailure name e))
    pure 1
  | .ok bytes =>
    match Text.Utf8.decode bytes with
    | .error broken => do
      IO.println (Command.notReadable broken.message)
      pure 1
    | .ok chars => do
      let (code, s) := (Command.process name (String.ofList (Text.foldLineEnds chars))).run {}
      IO.print s.printed
      match code with
      | none      => pure 0
      | some code => do
        let output := Command.outputName name
        let saved ← try
            IO.FS.writeFile output code
            pure (Except.ok ())
          catch e => pure (Except.error (fileFailure output e))
        IO.print (Text.unlines (Command.saving output saved))
        pure 0

/-- Unless it is given exactly one file, the program says how it is used and starts anew. -/
partial def main (args : List String) : IO UInt32 := do
  match args with
  | [name] => compileFile name
  | _      => do
    IO.print (Text.unlines Command.usage)
    main args
