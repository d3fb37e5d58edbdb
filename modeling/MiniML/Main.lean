import MiniML.Report
import MiniML.Session.Console
/-!
# The command line

`check FILE` checks a file, and `repl` starts a conversation.
-/
namespace MiniML.Main

/-- Print a report and exit with its code. -/
def print (p : Printed) : IO UInt32 := do
  IO.print p.out
  IO.eprint p.err
  return UInt32.ofNat p.code

/-- Read a file and check it. -/
def check (file : String) (config : Config) : IO UInt32 := do
  match ← (IO.FS.readFile file).toBaseIO with
  | .ok source => print (.ofSource file source config)
  | .error (.noFileOrDirectory _ _ _) => print (.unreadable file Printed.noSuchFile)
  | .error e => print (.unreadable file (toString e))

/-- Read lines and answer them. -/
partial def converse (input : IO.FS.Stream) (state : Console.State) : IO UInt32 := do
  let text ← input.getLine
  match lines text.toList with
  | [] =>
    IO.print Console.farewell
    return 0
  | line :: _ =>
    match Console.enter false state (String.ofList line) with
    | .more state output =>
      IO.print output
      (← IO.getStdout).flush
      converse input state
    | .quit =>
      IO.print Console.farewell
      return 0
    | .silent _ => return UInt32.ofNat Printed.brokenOff

/-- How the command line is used. -/
def usage : String :=
  "Usage: tern check FILE [--report-types] [--deny-warnings]\n       tern repl\n"

/-- The flags of a check. -/
def config (flags : List String) : Config where
  reportTypes := flags.contains "--report-types"
  warningsAsErrors := flags.contains "--deny-warnings"

/-- Carry out a command line. -/
def run (args : List String) : IO UInt32 := do
  match args.partition (·.startsWith "--") with
  | (flags, ["check", file]) =>
    if flags.all (["--report-types", "--deny-warnings"].contains ·) then
      return ← check file (config flags)
  | ([], ["repl"]) =>
    IO.print Console.greeting
    return ← converse (← IO.getStdin) {}
  | _ => pure ()
  IO.eprint usage
  return 2

end MiniML.Main

/-- The program. -/
def main (args : List String) : IO UInt32 := MiniML.Main.run args
