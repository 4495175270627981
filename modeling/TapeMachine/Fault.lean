/-!
# Faults

Everything that can go wrong, by cause.  A cause belongs to a class of faults, and some
classes take in others: whoever handles `machine` faults handles the three causes that a
program can bring about, in translation or at run time.
-/
namespace TapeMachine

inductive Fault
  | missingOpen
  | missingClose
  | offTape (pos size : Int)
  | noInput (index : Int)
  | noSuchOp
  | noSuchCell
  /-- A number was needed where a payload or a cell holds none. -/
  | notANumber
  /-- The jump table has no entry for the bracket at `index`. -/
  | noPartner (index : Nat)
  | unknownCommand (text : String)
  | badNumeral (quoted : String)
  /-- A numeral has more digits than are read. -/
  | numeralTooLong (digits : Nat)
  /-- A number has more digits than are written. -/
  | numberTooLong
  /-- A tape needs a cell; the request is shown as it was made. -/
  | tapeTooSmall (shown : String)
  | sizeBelowOne (text : String)
  | sizeBeyondWord
  | noRoom
  | infinite
  | undefinedNumber
  | badFileName
  | noSetting (name : String)
  | nothingTranslated
  | nothingMatched
  | notSupported
  deriving DecidableEq, Repr, Inhabited

inductive FaultClass
  | any
  | machine
  | compilation
  | tapeRange
  | input
  | value
  | argument
  | lookup
  | index
  | key
  | type
  | missingPart
  | unsupported
  | overflow
  | memory
  deriving DecidableEq, Repr, Inhabited

namespace FaultClass

/-- Whether every fault of the second class counts as one of the first. -/
def includes : FaultClass → FaultClass → Bool
  | any, _ => true
  | machine, compilation | machine, tapeRange | machine, input => true
  | value, compilation => true
  | index, tapeRange => true
  | lookup, index | lookup, key | lookup, tapeRange => true
  | a, b => a == b

end FaultClass

namespace Fault

def faultClass : Fault → FaultClass
  | missingOpen | missingClose => .compilation
  | offTape _ _ => .tapeRange
  | noInput _ => .input
  | noSuchOp | noSuchCell => .index
  | notANumber | nothingTranslated => .type
  | noPartner _ | unknownCommand _ | noSetting _ => .key
  | badNumeral _ | numeralTooLong _ | numberTooLong | tapeTooSmall _ | undefinedNumber
  | badFileName => .value
  | sizeBelowOne _ => .argument
  | infinite | sizeBeyondWord => .overflow
  | noRoom => .memory
  | nothingMatched => .missingPart
  | notSupported => .unsupported

/-- A fault that a program brings about, as against a wrong use of the machine. -/
def isMachine (f : Fault) : Bool := FaultClass.machine.includes f.faultClass

def message : Fault → String
  | missingOpen => "missing [ for ]"
  | missingClose => "missing ] for ["
  | offTape pos size => "Data pointer out of tape! @" ++ toString pos ++ " (size " ++ toString size ++ ")"
  | noInput index => "No input available @" ++ toString index
  | noSuchOp => "no operation at the instruction pointer"
  | noSuchCell => "no cell at the data pointer"
  | notANumber => "a number is missing"
  | noPartner index => toString index
  | unknownCommand text => text
  | badNumeral quoted => "invalid literal for int() with base 10: " ++ quoted
  | numeralTooLong digits =>
    "Exceeds the limit (4300 digits) for integer string conversion: value has " ++ toString digits ++
      " digits; use sys.set_int_max_str_digits() to increase the limit"
  | numberTooLong =>
    "Exceeds the limit (4300 digits) for integer string conversion; " ++
      "use sys.set_int_max_str_digits() to increase the limit"
  | tapeTooSmall shown => "Tape size must be at least one cell, got " ++ shown
  | sizeBelowOne text => "tape size must be at least 1, got " ++ text
  | sizeBeyondWord => "the size does not fit a word"
  | noRoom => "there is no memory for the tape"
  | infinite => "the size is infinite"
  | undefinedNumber => "cannot convert float NaN to integer"
  | badFileName => "embedded null byte"
  | noSetting name => name
  | nothingTranslated => "nothing has been translated"
  | nothingMatched => "no brackets have been matched"
  | notSupported => "this backend neither translates nor runs"

end Fault
end TapeMachine
