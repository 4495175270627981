import TapeMachine.Machine.Compiled
import TapeMachine.Machine.Direct

/-!
# Reports of runs

What is left of a run when it has ended: how it ended, the channel, and the events noted.

A run begins by making its tape.  The cells of a tape are counted by a signed word of 64 bits, and a
tape is in memory as a whole; a tape without cells needs no room.  If there is no room for a tape,
nothing is noted and nothing is read.
-/
namespace TapeMachine

inductive Event
  /-- A source with this many commands became a program with this many operations. -/
  | compiled (commands ops : Nat)
  | executing (ops : Nat) (size : Int)
  /-- A program has come to its `stop`. -/
  | stopped (index ptr : Int)
  | interpreting (commands : Nat) (size : Int)
  | runFailed (file : String)
  deriving DecidableEq, Repr, Inhabited

namespace Event

def origin : Event → String
  | compiled _ _ => "bfvm.compiler"
  | executing _ _ | stopped _ _ => "bfvm.vm"
  | interpreting _ _ => "bfvm.naive"
  | runFailed _ => "obfvm"

def message : Event → String
  | compiled commands ops =>
    "Compiled " ++ toString commands ++ " commands into " ++ toString ops ++ " ops"
  | executing ops size => "Executing " ++ toString ops ++ " ops on " ++ toString size ++ " cells"
  | stopped index ptr => "Halted at op " ++ toString index ++ ", data pointer " ++ toString ptr
  | interpreting commands size =>
    "Interpreting " ++ toString commands ++ " commands on " ++ toString size ++ " cells"
  | runFailed file => "Execution of " ++ file ++ " failed"

/-- An event as a line of the log; all events are there for finding errors. -/
def line (e : Event) : String := "[DEBUG] " ++ e.origin ++ ": " ++ e.message

end Event

namespace Room

def mostCells : Int := Int.pow 2 32

/-- Why there is no room for a tape of this size, if there is none. -/
def refusal? (size : Int) : Option Fault :=
  if size < -Int.pow 2 63 ∨ Int.pow 2 63 ≤ size then some .sizeBeyondWord
  else if mostCells < size then some .noRoom
  else none

end Room

structure Report where
  ending : Ending
  channel : Channel
  log : List Event
  deriving DecidableEq, Repr, Inhabited

namespace Report

def refused (fault : Fault) (channel : Channel) : Report := ⟨.failed fault, channel, []⟩

end Report

/-- Runs a compiled program; its end is noted only if it comes to a `stop`. -/
def Compiled.report (limit : Nat) (code : Array Op) (size : Int) (channel : Channel) :
    Option Report :=
  match Room.refusal? size with
  | some f => some (.refused f channel)
  | none =>
    (run limit code size channel).map fun (ending, s) =>
      let noted := match ending with
        | .halted => [Event.stopped s.ip s.store.ptr]
        | .failed _ => []
      ⟨ending, s.store.channel, .executing code.size size :: noted⟩

def Direct.report (limit : Nat) (code : Array Symbol) (loops : LoopTable) (size : Int)
    (channel : Channel) : Option Report :=
  match Room.refusal? size with
  | some f => some (.refused f channel)
  | none =>
    (run limit code loops size channel).map fun (ending, s) =>
      ⟨ending, s.store.channel, [.interpreting code.size size]⟩

/-- A fault as it is told.  A fault that names a number too long to be written gives way to the
fault of writing it. -/
def Fault.told : Fault → Fault
  | offTape pos size =>
    if Text.isWritable pos && Text.isWritable size then offTape pos size else numberTooLong
  | f => f

def Ending.told : Ending → Ending
  | halted => halted
  | failed f => failed f.told

/-- Runs a program whose payloads need not come from a source.  They may be of any length, and so
may the position at which such a program leaves the tape. -/
def execute (limit : Nat) (code : Array Op) (size : Int) (channel : Channel) : Option Report :=
  (Compiled.report limit code size channel).map fun r => { r with ending := r.ending.told }

end TapeMachine
