import TapeMachine.Backend
import TapeMachine.Cli.Invocation

/-!
# Outcomes of the command line

What an invocation prints and the status it ends with.  Machine faults are reported; no other
fault is expected, and one that arises all the same is passed on.
-/
namespace TapeMachine.Cli

inductive Exit
  | status (code : Nat)
  | uncaught (fault : Fault)
  deriving DecidableEq, Repr, Inhabited

structure Outcome where
  exit : Exit
  printed : String
  log : List Event
  deriving DecidableEq, Repr, Inhabited

inductive Plan
  | stop (outcome : Outcome)
  | interpret (backend : Backend) (channel : Channel) (log : List Event)
  /-- Run a number of times with the output discarded. -/
  | benchmark (backend : Backend) (runs : Nat) (log : List Event)
  deriving DecidableEq, Repr

namespace Invocation

/-- Notes are kept only if they are asked for. -/
def noted (i : Invocation) (log : List Event) : List Event := if i.options.verbose then log else []

/-- Ends with a text and a status, before anything has run. -/
def stopWith (i : Invocation) (code : Nat) (text : String) (log : List Event) : Plan :=
  .stop ⟨.status code, text, i.noted log⟩

def baseName (path : String) : String := (path.splitOn "/").getLast?.getD path

def stopAt (i : Invocation) (fault : Fault) (log : List Event) : Plan :=
  .stop ⟨.uncaught fault, "", i.noted log⟩

def planRun (i : Invocation) (backend : Backend) (channel : Channel) (log : List Event) : Plan :=
  if i.options.listing then
    match backend.engine with
    | .compiled (some code) => i.stopWith 0 (Listing.text code.toList ++ "\n") log
    | _ => i.stopWith 1 ("Nothing to dump for backend: " ++ i.options.backend.shown ++ "\n") log
  else
    match i.options.bench with
    | none => i.stopAt .notANumber log
    | some n => if 0 < n then .benchmark backend n.toNat log else .interpret backend channel log

def planFile (i : Invocation) (bytes : List UInt8) (input : List Char) : Plan :=
  match i.options.backend.text?.bind Engine.named?, i.options.size with
  | none, _ => i.stopWith 1 ("Backend not found: " ++ i.options.backend.shown ++ "\n") []
  | some _, none => i.stopAt .notANumber []
  | some engine, some size =>
    match i.options.channel.text?.bind (Channel.named? input) with
    | none => i.stopWith 1 ("I/O channel not found: " ++ i.options.channel.shown ++ "\n") []
    | some channel =>
      let backend : Backend := ⟨baseName i.file, size, engine⟩
      let t := backend.translate ((commands (sourceOfFile bytes)).map Symbol.command)
      match t.fault with
      | none => i.planRun t.backend channel t.log
      | some f =>
        if f.isMachine then i.stopWith 1 ("Compilation error " ++ f.message ++ "\n") t.log
        else i.stopAt f t.log

/-- Prepares a run: `content` is the source file, if it can be read, and `input` the standard
input. -/
def plan (i : Invocation) (content : Option (List UInt8)) (input : List Char) : Plan :=
  if i.file.toList.contains '\x00' then i.stopAt .badFileName []
  else
    match content with
    | none => i.stopWith 1 ("\nERROR: File not found: " ++ i.file ++ "\n\n") []
    | some bytes => i.planFile bytes input

/-- Ends an invocation after its runs, which printed `printed` and may have ended in a fault. -/
def conclude (i : Invocation) (fault : Option Fault) (printed : String) (log : List Event) :
    Outcome :=
  match fault with
  | none => ⟨.status 0, printed ++ "\nDone\n", i.noted log⟩
  | some f =>
    if f.isMachine then
      ⟨.status 1, printed ++ "\nRuntime error " ++ f.message ++ "\n",
        i.noted (log ++ [.runFailed i.file])⟩
    else ⟨.uncaught f, printed, i.noted log⟩

/-- Ends an invocation after a benchmark; `times` tells the best and the mean time of a run. -/
def concludeBenchmark (i : Invocation) (runs : Nat) (fault : Option Fault) (times : String)
    (log : List Event) : Outcome :=
  let summary := match fault with
    | none => toString runs ++ " runs, " ++ times ++ "\n"
    | some _ => ""
  i.conclude fault summary log

end Invocation

/-- Repeats a run up to the first fault, and adds the events noted to `log`. -/
@[specialize] def repeatRun {m : Type → Type} [Monad m] (attempt : m Report) :
    (runs : Nat) → (log : Array Event) → m (Option Fault × Array Event)
  | 0, log => return (none, log)
  | runs + 1, log => do
    let r ← attempt
    match r.ending.fault? with
    | none => repeatRun attempt runs (log ++ r.log)
    | some f => return (some f, log ++ r.log)

/-- Carries out a plan.  `run` runs a backend on a channel, which may take time or be given up;
`times` tells the best and the mean time of the runs so far. -/
@[specialize] def Plan.carryOut {m : Type → Type} [Monad m] (run : Backend → Channel → m Report)
    (times : m String) (i : Invocation) : Plan → m Outcome
  | .stop outcome => return outcome
  | .interpret backend channel log => do
    let r ← run backend channel
    return i.conclude r.ending.fault? r.channel.output (log ++ r.log)
  | .benchmark backend runs log => do
    let (fault, log) ← repeatRun (run backend .null) runs log.toArray
    return i.concludeBenchmark runs fault (← times) log.toList

/-- The outcome of an invocation; `none` if a run does not end within the limit. -/
def Invocation.outcome (limit : Nat) (i : Invocation) (content : Option (List UInt8))
    (input : List Char) (times : String) : Option Outcome :=
  (i.plan content input).carryOut (fun backend channel => backend.run limit channel) (some times) i

end TapeMachine.Cli
