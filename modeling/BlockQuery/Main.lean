/-
  The command line: reads the document, runs the command and prints what it gives.
-/
import BlockQuery.Arguments

namespace BlockQuery.CommandLine

/-- What `--help` prints. -/
def usage : String :=
  "Usage: yql [OPTIONS] <QUERY> [FILE]\n\n" ++
  "Options:\n" ++
  "  -e, --exit-status      Exit with status 5 when the result is empty or null\n" ++
  "  -r, --raw-output       Print string results without quotes\n" ++
  "  -o, --output <OUTPUT>  Output format [default: yaml] [possible values: yaml, json]\n" ++
  "  -j, --json             Shorthand for '--output json'\n" ++
  "  -I, --indent <INDENT>  Indentation of block output [default: 2]\n" ++
  "      --strict           Fail when an operation that uses one value receives several\n" ++
  "      --nested-has       Let has() match keys in nested mappings\n" ++
  "      --syntax-only      Only validate syntax, don't execute\n" ++
  "  -h, --help             Print help\n" ++
  "  -V, --version          Print version"

/-- The text of a file, if there is one that can be read. -/
def textOfFile? (name : String) : IO (Option String) :=
  try
    return some (← IO.FS.readFile name)
  catch _ => return none

/-- The query and the document.  A file name in place of the query, with nothing piped in, prints
    that file. -/
def withInput (a : Arguments) : IO (Arguments × Option String) := do
  let terminal ← (← IO.getStdin).isTty
  match a.file, a.query with
  | some file, _ =>
      if a.syntaxOnly then return (a, none) else return (a, some (← IO.FS.readFile file))
  | none, some name =>
      if terminal then
        match ← textOfFile? name with
        | some text => return ({ a with query := some "." }, some text)
        | none => return (a, none)
      else if a.syntaxOnly then return (a, none)
      else return (a, some (← (← IO.getStdin).readToEnd))
  | none, none => return (a, none)

/-- Runs the command of some arguments; the exit code. -/
def runArguments (a : Arguments) : IO UInt32 := do
  try
    let (a, input) ← withInput a
    match (a.command input).run with
    | .ok .valid =>
        IO.println "Syntax is valid"
        return 0
    | .ok (.results rendered exitCode) =>
        if !rendered.isEmpty then IO.println rendered
        return exitCode.toUInt32
    | .error e =>
        IO.eprintln ("yql: " ++ e.message)
        return Command.failureExitCode.toUInt32
  catch e =>
    IO.eprintln ("yql: io error: " ++ toString e)
    return Command.failureExitCode.toUInt32

end BlockQuery.CommandLine

open BlockQuery

def main (args : List String) : IO UInt32 := do
  match Arguments.read args with
  | .ok .help =>
      IO.println CommandLine.usage
      return 0
  | .ok .version =>
      IO.println "yql 0.1.0"
      return 0
  | .ok (.run a) => CommandLine.runArguments a
  | .error message =>
      IO.eprintln ("error: " ++ message ++ "\n\n" ++ CommandLine.usage)
      return 2
