import TapeMachine.Cli.Flag
import TapeMachine.Cli.Outcome

/-!
# The program

Reads the source file and the standard input, runs the machine, prints what it printed, and
writes the log to the standard error stream.
-/
namespace TapeMachine.Main

/-- More steps than any run will take. -/
def limit : Nat := Nat.pow 10 18

def readFile (path : String) : IO (Option (List UInt8)) := do
  try
    return some (← IO.FS.readBinFile path).toList
  catch _ =>
    return none

/-- A time in nanoseconds as seconds with six places. -/
def seconds (nanoseconds : Nat) : String :=
  let micro := (nanoseconds + 500) / 1000
  let places := toString (micro % 1000000)
  toString (micro / 1000000) ++ "." ++
    String.ofList (List.replicate (6 - places.length) '0') ++ places ++ "s"

/-- A computation that may be given up and keeps the times, in nanoseconds, of the runs it makes. -/
abbrev Timed := OptionT (StateT (Array Nat) IO)

def timedRun (backend : Backend) (channel : Channel) : Timed Report := do
  let start ← IO.monoNanosNow
  match backend.run limit channel with
  | none => failure
  | some r =>
    let stop ← IO.monoNanosNow
    modify (·.push (stop - start))
    return r

def timesTaken : Timed String := do
  let times ← get
  let best := times.foldl min (times.getD 0 0)
  let mean := times.foldl (· + ·) 0 / times.size
  return "best " ++ seconds best ++ ", mean " ++ seconds mean

/-- The standard input, read only if the program can ask for it. -/
def readInput (i : Cli.Invocation) : IO (List Char) := do
  if i.options.channel == .text "console" && !i.options.listing && i.options.bench.any (· ≤ 0) then
    return (← (← IO.getStdin).readToEnd).toList
  else return []

def perform (i : Cli.Invocation) : IO UInt32 := do
  let plan := i.plan (← readFile i.file) (← readInput i)
  let (outcome, _) ← (plan.carryOut timedRun timesTaken i).run.run #[]
  match outcome with
  | none =>
    IO.eprintln "the run was given up"
    return 1
  | some o =>
    for e in o.log do
      IO.eprintln e.line
    IO.print o.printed
    match o.exit with
    | .status n => return n.toUInt32
    | .uncaught f =>
      IO.eprintln f.message
      return 1

end TapeMachine.Main

def main (args : List String) : IO UInt32 := do
  let program := (← IO.appPath).fileName.getD "tapemachine"
  match TapeMachine.Cli.Invocation.ofWords args with
  | .error e =>
    for line in TapeMachine.Cli.Help.usage program do
      IO.eprintln line
    IO.eprintln (program ++ ": error: " ++ e.message)
    return 2
  | .ok none =>
    IO.print (TapeMachine.Cli.Help.page program)
    return 0
  | .ok (some i) => TapeMachine.Main.perform i
