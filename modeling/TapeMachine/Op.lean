import TapeMachine.Command
import TapeMachine.Text.Numeral

/-!
# Operations

A compiled program is a list of operations, each a tag with an optional payload.  Every
command has one operation of its own (`Op.ofCommand`); `set` and `seek` arise only when loops
are recognised.

A listing has one line per operation: its index, right-aligned in five columns, its tag and its
payload if it has one.  A payload that is too long to be written cannot be listed.
-/
namespace TapeMachine

/-- What an operation does.  A tag without a meaning is kept by its name and does nothing. -/
inductive Tag
  | move
  | add
  | openLoop
  | closeLoop
  | set
  | seek
  | print
  | read
  | stop
  | other (name : String)
  deriving DecidableEq, Repr, Inhabited

namespace Tag

def meaningful : List Tag := [move, add, openLoop, closeLoop, set, seek, print, read, stop]

def name : Tag → String
  | move => "move"
  | add => "mod"
  | openLoop => "open"
  | closeLoop => "close"
  | set => "set"
  | seek => "search"
  | print => "print"
  | read => "read"
  | stop => "end"
  | other n => n

def ofName (n : String) : Tag := (meaningful.find? (·.name == n)).getD (other n)

end Tag

/-- The payload is a distance, an amount, a target or a value. -/
structure Op where
  tag : Tag
  arg : Option Int := none
  deriving DecidableEq, Repr, Inhabited

namespace Op

def ofCommand : Command → Op
  | .right => ⟨.move, some 1⟩
  | .left => ⟨.move, some (-1)⟩
  | .increment => ⟨.add, some 1⟩
  | .decrement => ⟨.add, some (-1)⟩
  | .output => ⟨.print, none⟩
  | .input => ⟨.read, none⟩
  | .loopStart => ⟨.openLoop, some 0⟩
  | .loopEnd => ⟨.closeLoop, some 0⟩

def ofSymbol : Symbol → Except Fault Op
  | .command c => .ok (ofCommand c)
  | .remark text => .error (.unknownCommand text)

/-- Whether the payload, if there is one, has no more digits than are written. -/
def isWritable (op : Op) : Bool := op.arg.all Text.isWritable

end Op

/-- One operation per symbol; the first remark is refused. -/
def translate (source : List Symbol) : Except Fault (List Op) := source.mapM Op.ofSymbol

theorem translate_map_command (cmds : List Command) :
    translate (cmds.map Symbol.command) = .ok (cmds.map Op.ofCommand) := by
  induction cmds with
  | nil => rfl
  | cons c rest ih =>
    simp only [translate] at ih
    simp [translate, ih, Op.ofSymbol]
    rfl

namespace Listing

/-- A number right-aligned in `width` columns; a longer number takes the room it needs. -/
def alignRight (width n : Nat) : String :=
  String.ofList (List.replicate (width - (toString n).length) ' ') ++ toString n

def line (index : Nat) (op : Op) : String :=
  alignRight 5 index ++ "  " ++ op.tag.name ++
    match op.arg with
    | none => ""
    | some n => " " ++ toString n

def lines (ops : List Op) : List String := ops.mapIdx line

@[simp] theorem length_lines (ops : List Op) : (lines ops).length = ops.length := by
  simp [lines]

/-- The listing of a program whose payloads can all be written, as those of a program made from a
source can.  The last line is not ended. -/
def text (ops : List Op) : String := "\n".intercalate (lines ops)

end Listing

/-- The listing of any program; a payload that is too long to be written is a fault. -/
def listing (ops : List Op) : Except Fault String :=
  if ops.all Op.isWritable then .ok (Listing.text ops) else .error .numberTooLong

end TapeMachine
