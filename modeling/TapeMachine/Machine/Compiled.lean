import TapeMachine.Op
import TapeMachine.Run
import TapeMachine.Store

/-!
# The machine for compiled programs

The machine fetches the operation at its instruction pointer and carries it out.  Every move is
checked: the data pointer never comes to rest outside the tape.  A `seek` takes one step per cell
it visits.
-/
namespace TapeMachine.Compiled

structure State where
  ip : Int
  store : Store
  deriving DecidableEq, Repr, Inhabited

def State.initial (size : Int) (channel : Channel) : State := ⟨0, .blank size channel⟩

/-- The operation at an index; indices below zero count from the end. -/
def fetch (code : Array Op) (ip : Int) : Option Op :=
  if 0 ≤ ip then code[ip.toNat]?
  else if 0 ≤ ip + code.size then code[(ip + code.size).toNat]?
  else none

namespace State

@[inline] def advance (s : State) (store : Store) : Step State := .next ⟨s.ip + 1, store⟩

@[inline] def fail (s : State) (f : Fault) : Step State := .done (.failed f) s

/-- Goes on behind the target of a jump. -/
@[inline] def jump (s : State) : Option Int → Step State
  | some target => .next ⟨target + 1, s.store⟩
  | none => s.fail .notANumber

/-- Moves the data pointer, which must stay on the tape, and goes on at `ip`. -/
@[inline] def move (s : State) (ip n : Int) : Step State :=
  let store := s.store.shift n
  if store.InRange then .next ⟨ip, store⟩ else .done (.failed store.offTape) ⟨s.ip, store⟩

def exec (s : State) (op : Op) : Step State :=
  match op.tag with
  | .move =>
    match op.arg with
    | some n => s.move (s.ip + 1) n
    | none => s.fail .notANumber
  | .add =>
    match s.store.cell?, op.arg with
    | none, _ => s.fail .noSuchCell
    | some (some v), some n => s.advance (s.store.put (some (wrap (v + n))))
    | some _, _ => s.fail .notANumber
  | .openLoop =>
    match s.store.cell? with
    | none => s.fail .noSuchCell
    | some c => if c = some 0 then s.jump op.arg else s.advance s.store
  | .closeLoop =>
    match s.store.cell? with
    | none => s.fail .noSuchCell
    | some c => if c = some 0 then s.advance s.store else s.jump op.arg
  | .set =>
    match s.store.cell? with
    | none => s.fail .noSuchCell
    | some _ => s.advance (s.store.put op.arg)
  | .seek =>
    match s.store.cell?, op.arg with
    | none, _ => s.fail .noSuchCell
    | some (some 0), _ => s.advance s.store
    | some _, some n => s.move s.ip n
    | some _, none => s.fail .notANumber
  | .print =>
    match s.store.cell? with
    | none => s.fail .noSuchCell
    | some none => s.fail .notANumber
    | some (some v) => s.advance (s.store.emit (byteChar v))
  | .read =>
    match s.store.channel.read with
    | none => s.fail (.noInput s.ip)
    | some (c, rest) =>
      let store := { s.store with channel := rest }
      match store.cell? with
      | none => .done (.failed .noSuchCell) ⟨s.ip, store⟩
      | some _ => s.advance (store.put (some (wrap c.toNat)))
  | .stop => .done .halted s
  | .other _ => s.advance s.store

end State

def step (code : Array Op) (s : State) : Step State :=
  match fetch code s.ip with
  | none => s.fail .noSuchOp
  | some op => s.exec op

def run (limit : Nat) (code : Array Op) (size : Int) (channel : Channel) :
    Option (Ending × State) :=
  runFor (step code) limit (.initial size channel)

end TapeMachine.Compiled
