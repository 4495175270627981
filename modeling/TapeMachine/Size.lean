import TapeMachine.Decimal.Shortest
import TapeMachine.Fault
import TapeMachine.Text.Numeral

/-!
# Tape sizes

A tape has at least one cell.  Sizes are asked for as numbers or as texts; a refusal shows the
request as it was made.
-/
namespace TapeMachine

/-- The tape has this many cells unless a size is asked for. -/
def defaultSize : Nat := 30000

abbrev TapeSize := { cells : Nat // 0 < cells }

namespace TapeSize

def default : TapeSize := ⟨defaultSize, by decide⟩

def ofInt? (n : Int) : Option TapeSize :=
  if h : 0 < n.toNat then some ⟨n.toNat, h⟩ else none

end TapeSize

inductive SizeRequest
  | unspecified
  | count (n : Int)
  | real (x : Float)
  | truth (b : Bool)
  | text (s : String)
  /-- A list or a record of values, which is no number. -/
  | composite
  deriving Inhabited

namespace SizeRequest

/-- Reals are written with a point from 0.0001 to below 10^16, otherwise with an exponent of at
least two digits. -/
def realStyle : Decimal.Style := ⟨-4, 15, 2⟩

def showReal (b : Decimal.Binary) : String :=
  (if b.negative then "-" else "") ++ realStyle.render (Decimal.shortest b)

/-- The number asked for, and the request as it is shown; `none` asks for the default. -/
def number : SizeRequest → Except Fault (Option (Int × String))
  | unspecified => .ok none
  | count n => .ok (some (n, toString n))
  | real x =>
    match Decimal.Binary.ofFloat? x with
    | none => .error (if x.isNaN then .undefinedNumber else .infinite)
    | some b => .ok (some (b.truncate, showReal b))
  | truth b => .ok (some (if b then (1, "True") else (0, "False")))
  | text s => (Text.integer s).map fun n => some (n, s)
  | composite => .error .notANumber

/-- The size asked for; reals lose their fraction. -/
def resolve (r : SizeRequest) : Except Fault TapeSize := do
  match ← r.number with
  | none => return .default
  | some (n, shown) =>
    match TapeSize.ofInt? n with
    | some size => return size
    | none => throw (.tapeTooSmall shown)

end SizeRequest
end TapeMachine
