/-
  The program.

  A command sees the files that its arguments and the texts it reads can name.  It is carried out
  on the lines read so far, and again with one more whenever it asks for a line; what it wrote
  before stays the same, so only the rest is shown.  Assemblers and linkers are not started.
-/
import ExprLang.Command

namespace ExprLang.Main

/-- The files with those at some paths that can be read, and all that they import. -/
partial def load (files : Files) : List String → IO Files
  | [] => return files
  | path :: paths => do
    if (files.lookup path).isSome then load files paths
    else
      match ← (IO.FS.readFile path).toBaseIO with
      | .ok text => load (files ++ [(path, text)]) (importedPaths text ++ paths)
      | .error _ => load files paths

/-- Makes the files on disk what a command made of them. -/
def save (before after : Files) : IO Unit := do
  for (path, text) in after do
    if before.lookup path != some text then IO.FS.writeFile path text
  for (path, _) in before do
    if (after.lookup path).isNone then IO.FS.removeFile path

/-- Shows how a command ended, and gives the code to exit with. -/
def finish : Ending → IO UInt32
  | .done => return 0
  | .refused .help => do
    IO.println (Request.usage Request.program)
    return 0
  | .refused (.usage e) => do
    IO.eprint (Request.errorText e)
    return 2
  | .failed f => do
    IO.eprintln f.message
    return 1

/-- Carries out a command on files and the lines read so far, whose pages before the last line have
    been shown. -/
partial def run (args : List String) (files : Files) (lines : List String) : IO UInt32 := do
  let outcome := command args files lines (.ofCodes [])
  let stdout ← IO.getStdout
  if outcome.pages.length > lines.length + 1 then
    stdout.putStr (outcome.pages.getD lines.length "")
    stdout.flush
    let line ← (← IO.getStdin).getLine
    if !line.isEmpty then
      let line := if line.endsWith "\n" then String.ofList line.toList.dropLast else line
      return ← run args (← load files (importedPaths line)) (lines ++ [line])
    stdout.putStr (String.join (outcome.pages.drop (lines.length + 1)))
  else stdout.putStr (String.join (outcome.pages.drop lines.length))
  stdout.flush
  save files outcome.files
  finish outcome.ending

end ExprLang.Main

/-- Carries out the command that the arguments name. -/
def main (args : List String) : IO UInt32 := do
  let files ← ExprLang.Main.load [] (ExprLang.namedFile? args).toList
  ExprLang.Main.run args files []
