/-
A session of the command line, as data: what is written where, in order, and the exit code.

A session reads its arguments, loads the programs they name, plays one battle and reports. Nothing here writes anything;
a transcript is carried out by the outermost layer.
-/
import CoreWar.Battle.Request
import CoreWar.CommandLine.Arguments
import CoreWar.CommandLine.Report
import CoreWar.OwnershipMap
import CoreWar.Random.Generator
import CoreWar.Roster

namespace CoreWar

namespace CommandLine

abbrev Game := Battle Random.Generator

/-- one thing a session does -/
inductive Output where
  | out (text : String)
  | err (text : String)
  | event (event : Event)
  | pause (milliseconds : Nat)
deriving DecidableEq, Repr

structure Transcript where
  outputs : List Output
  exitCode : Nat
deriving DecidableEq, Repr

/-- why a session ends without a battle -/
inductive Failure where
  | unknownProgram (name : String)
  | refused (refusal : Refusal)
deriving DecidableEq, Repr

def Failure.message : Failure → String
  | .unknownProgram name => "Unknown program: " ++ name ++ ". Available: " ++ ", ".intercalate Roster.names
  | .refused refusal => refusal.message

/-- what a battle has reported beyond the first `known` events -/
def newEvents (known : Nat) (b : Game) : List Output := (b.log.extract known).toList.map .event

def loadedLine (id : ProgramId) (name : String) (start : Nat) : String :=
  "program #" ++ toString id ++ " (" ++ name ++ ") loaded at " ++ toString start ++ "\n"

/-- loads the named programs at random places, under ids counted up from `id` -/
def loadPrograms (b : Game) (id : ProgramId) : List String → List Output × Except Failure Game
  | [] => ([], .ok b)
  | name :: rest =>
    match Roster.find? name with
    | none => ([], .error (.unknownProgram name))
    | some code =>
      match b.load id 0 code with
      | (.error refusal, _) => ([], .error (.refused refusal))
      | (.ok start, loaded) =>
        let (outputs, result) := loadPrograms loaded (id + 1) rest
        (newEvents b.log.size loaded ++ .err (loadedLine id name start) :: outputs, result)

/-- the map of the core, with an empty line behind it, if maps are to be shown -/
def mapOutputs (o : Options) (b : Game) : List Output :=
  if o.showMap then [.out (ownershipMap ⟨o.width, o.color⟩ b.core.cells.toList ++ "\n")] else []

def pauseOutputs (o : Options) : List Output := if o.showMap ∧ o.delay ≠ 0 then [.pause o.delay] else []

/-- what is written after a step that found `known` events and left `b` -/
def stepOutputs (o : Options) (known : Nat) (b : Game) : List Output :=
  newEvents known b ++ mapOutputs o b ++ pauseOutputs o

/-- steps until the game does not go on, at most `budget` times; what the steps write is added to `outputs` -/
def playOn (o : Options) (b : Game) (outputs : Array Output) : Nat → Game × Array Output
  | 0 => (b, outputs)
  | budget + 1 =>
    let known := b.log.size
    match b.step with
    | (true, b) => playOn o b (outputs ++ stepOutputs o known b) budget
    | (false, b) => (b, outputs ++ stepOutputs o known b)

/-- the battle that is started, and everything written on the way -/
def prepare (o : Options) : List Output × Except Failure Game :=
  match Battle.ofRules o.rules (Random.Generator.ofSeed o.seed) with
  | .error refusal => ([], .error (.refused refusal))
  | .ok b =>
    match loadPrograms b 0 o.programs with
    | (outputs, .error failure) => (outputs, .error failure)
    | (outputs, .ok b) =>
      match b.start with
      | .error refusal => (outputs, .error (.refused refusal))
      | .ok b => (outputs, .ok b)

/-- loads, plays and reports -/
def battleSession (o : Options) : Transcript :=
  match prepare o with
  | (outputs, .error failure) => ⟨outputs ++ [.err (failure.message ++ "\n")], 1⟩
  | (outputs, .ok b) =>
    let (b, played) := playOn o b (mapOutputs o b).toArray o.maxSteps
    ⟨outputs ++ played.toList ++ [.out (report b o.disassemble)], 0⟩

/-- the whole session for the arguments given -/
def session (args : List String) : Transcript :=
  match readArguments args with
  | .error e => ⟨[.err (e.message ++ "\n")], 2⟩
  | .ok .help => ⟨[.out helpText], 0⟩
  | .ok (.battle o) => battleSession o

namespace Transcript

def outText : Output → String
  | .out text => text
  | _ => ""

def errText : Output → String
  | .err text => text
  | _ => ""

/-- everything on standard output -/
def stdout (t : Transcript) : String := String.join (t.outputs.map outText)

/-- everything on standard error but events -/
def stderr (t : Transcript) : String := String.join (t.outputs.map errText)

end Transcript

end CommandLine

end CoreWar
