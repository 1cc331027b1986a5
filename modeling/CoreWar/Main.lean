/-
The command line: carries out the transcript of a session.

Events of level INFO and above go to standard error, a line each.
-/
import CoreWar.CommandLine.Session

namespace CoreWar.CommandLine

def Output.carryOut : Output → IO Unit
  | .out text => do
    let stdout ← IO.getStdout
    stdout.putStr text
    stdout.flush
  | .err text => IO.eprint text
  | .event e => if e.level = .debug then pure () else IO.eprintln e.line
  | .pause milliseconds => IO.sleep (min milliseconds (UInt32.size - 1)).toUInt32

end CoreWar.CommandLine

def main (args : List String) : IO UInt32 := do
  let transcript := CoreWar.CommandLine.session args
  transcript.outputs.forM CoreWar.CommandLine.Output.carryOut
  return transcript.exitCode.toUInt32
