import TapeMachine.Brackets
import TapeMachine.Run
import TapeMachine.Store

/-!
# The machine for sources

The machine carries out a source symbol by symbol.  Moves are not checked; every other symbol,
and the end of the source, wants the data pointer on the tape.  Loops are taken by a table, which
need not belong to the source.
-/
namespace TapeMachine.Direct

structure State where
  pc : Nat
  store : Store
  deriving DecidableEq, Repr, Inhabited

def State.initial (size : Int) (channel : Channel) : State := ⟨0, .blank size channel⟩

namespace State

@[inline] def advance (s : State) (store : Store) : Step State := .next ⟨s.pc + 1, store⟩

@[inline] def fail (s : State) (f : Fault) : Step State := .done (.failed f) s

/-- Goes on behind the partner of the bracket at hand. -/
@[inline] def jump (s : State) (loops : LoopTable) : Step State :=
  match loops.partner? s.pc with
  | some target => .next ⟨target + 1, s.store⟩
  | none => s.fail (.noPartner s.pc)

@[inline] def add (s : State) (n : Int) : Step State :=
  match s.store.cell? with
  | none => s.fail .noSuchCell
  | some none => s.fail .notANumber
  | some (some v) => s.advance (s.store.put (some (wrap (v + n))))

/-- Carries out a symbol other than a move, with the pointer on the tape. -/
def exec (s : State) (loops : LoopTable) : Symbol → Step State
  | .command .increment => s.add 1
  | .command .decrement => s.add (-1)
  | .command .output =>
    match s.store.cell? with
    | none => s.fail .noSuchCell
    | some none => s.fail .notANumber
    | some (some v) => s.advance (s.store.emit (byteChar v))
  | .command .input =>
    match s.store.channel.read with
    | none => s.fail (.noInput s.pc)
    | some (c, rest) =>
      s.advance ({ s.store with channel := rest }.put (some (wrap c.toNat)))
  | .command .loopStart =>
    match s.store.cell? with
    | none => s.fail .noSuchCell
    | some c => if c = some 0 then s.jump loops else s.advance s.store
  | .command .loopEnd =>
    match s.store.cell? with
    | none => s.fail .noSuchCell
    | some c => if c = some 0 then s.advance s.store else s.jump loops
  | _ => s.advance s.store

end State

def step (code : Array Symbol) (loops : LoopTable) (s : State) : Step State :=
  match code[s.pc]? with
  | some (.command .right) => s.advance (s.store.shift 1)
  | some (.command .left) => s.advance (s.store.shift (-1))
  | some symbol => if s.store.InRange then s.exec loops symbol else s.fail s.store.offTape
  | none => if s.store.InRange then .done .halted s else s.fail s.store.offTape

def run (limit : Nat) (code : Array Symbol) (loops : LoopTable) (size : Int) (channel : Channel) :
    Option (Ending × State) :=
  runFor (step code loops) limit (.initial size channel)

end TapeMachine.Direct
