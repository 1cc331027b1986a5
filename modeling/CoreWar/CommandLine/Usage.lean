/-
What the command line says about itself: its help text, and what is wrong with arguments it does not take.

A message quotes what is printable of an argument.
-/
import CoreWar.CommandLine.Numeral
import CoreWar.CommandLine.Options
import CoreWar.CommandLine.Printable

namespace CoreWar

namespace CommandLine

def helpLines : List String :=
  ["Redcode arena: programs battling in a shared circular core",
   "",
   "Usage: arena [OPTIONS]",
   "",
   "Options:",
   "      --seed <SEED>            Random seed for program placement [default: 0]",
   "      --core-size <CORE_SIZE>  Number of cells in the core [default: 200]",
   "      --programs <PROGRAMS>    Built-in programs to load, in turn order (imp, dwarf) [default: imp,dwarf]",
   "      --max-steps <MAX_STEPS>  Stop after this many instructions if no winner has emerged [default: 10000]",
   "      --show                   Print the ownership map after every step",
   "      --width <WIDTH>          Cells per row when printing the ownership map [default: 20]",
   "      --color                  Use ANSI background colours for owned cells",
   "      --delay-ms <DELAY_MS>    Pause between printed steps, in milliseconds [default: 0]",
   "      --unwrapped-placement    Skip collision checks past the end of the core when placing programs",
   "      --no-split               Treat SPL as a no-op",
   "      --disassemble            Print a listing of every claimed cell when the game ends",
   "  -h, --help                   Print help"]

def helpText : String := String.join (helpLines.map (· ++ "\n"))

inductive UsageError where
  | badNumber (setting : Setting) (text : String) (reason : Numeral.Error)
  | missingValue (setting : Setting)
  | repeatedSetting (setting : Setting)
  | repeatedSwitch (switch : Switch)
  | unexpectedArgument (text : String)
  | unexpectedValue (name value : String)
deriving DecidableEq, Repr

def UsageError.message : UsageError → String
  | .badNumber setting text reason =>
    "error: invalid value '" ++ printable text ++ "' for '" ++ setting.usage ++ "': " ++ reason.message
  | .missingValue setting => "error: a value is required for '" ++ setting.usage ++ "' but none was supplied"
  | .repeatedSetting setting => "error: the argument '" ++ setting.usage ++ "' cannot be used multiple times"
  | .repeatedSwitch switch => "error: the argument '" ++ switch.usage ++ "' cannot be used multiple times"
  | .unexpectedArgument text => "error: unexpected argument '" ++ printable text ++ "' found"
  | .unexpectedValue name value =>
    "error: unexpected value '" ++ printable value ++ "' for '--" ++ name ++ "' found; no more were expected"

end CommandLine

end CoreWar
