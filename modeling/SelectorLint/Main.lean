import SelectorLint.Command.Run

/-!
# The program

The command line. The entries of the project are named on the standard input, one path on each line, as a
listing of the working directory gives them (`Project.load`). The command runs in that project
(`Invocation.run`), and what it printed and wrote is passed on.
-/

namespace SelectorLint

/-- What is shown of the program if a command line asks for it or for nothing that can be done. -/
def usageLines : List String :=
  ["Usage: nestlint [--color auto|always|never] <COMMAND>",
   "",
   "Commands:",
   "  check [PATHS]... [-f human|jsonl] [-c FILE] [-v]  Check stylesheets",
   "  init [--force]                                    Write a configuration",
   "  list [-f human|jsonl] [-c FILE]                   Show all rules",
   "  help [COMMAND]                                    Show this text",
   "",
   "The paths of the project are read from the standard input, one on each line."]

/-- Reads the lines of a stream. -/
partial def readLines (stream : IO.FS.Stream) : IO (List String) := do
  let line ← stream.getLine
  if line.isEmpty then return []
  let text := String.ofList (line.toList.takeWhile fun c => c ≠ '\n' && c ≠ '\r')
  return text :: (← readLines stream)

/-- Adds what a path leads to. What cannot be read as a file is a directory. -/
def Project.load (project : Project) (path : String) : IO Project := do
  match ← (IO.FS.readBinFile path).toBaseIO with
  | .ok content => return project.insert ⟨path⟩ (.file content)
  | .error _ => return project.insert ⟨path⟩ .directory

/-- Adds the configuration file of the working directory, if there is one. -/
def Project.loadConfig (project : Project) : IO Project := do
  match ← (IO.FS.readBinFile Config.fileName).toBaseIO with
  | .ok content => return project.insert ⟨Config.fileName⟩ (.file content)
  | .error _ => return project

/-- Runs a command line in the working directory. -/
def run (arguments : List String) : IO UInt32 := do
  match Invocation.parse Config.fileName arguments with
  | .error usage =>
    let text := Transcript.joined usageLines
    if usage.exitCode = 0 then IO.print text else IO.eprint text
    return usage.exitCode.toUInt32
  | .ok invocation =>
    let paths ← readLines (← IO.getStdin)
    let listed ← (paths.filter (!·.isEmpty)).foldlM Project.load .empty
    let project ← listed.loadConfig
    let terminal ← (← IO.getStdout).isTty
    let (transcript, after) := invocation.run terminal project
    if let some content := after.text? ⟨Config.fileName⟩ then
      if project.text? ⟨Config.fileName⟩ ≠ some content then
        IO.FS.writeFile Config.fileName content
    IO.eprint transcript.errors
    IO.print transcript.output
    return transcript.code.toUInt32

end SelectorLint

/-- The program. -/
def main (arguments : List String) : IO UInt32 := SelectorLint.run arguments
