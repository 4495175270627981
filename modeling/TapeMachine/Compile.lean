import TapeMachine.Brackets
import TapeMachine.Store

/-!
# Compilation

A source is compiled by dropping its remarks, taking one operation per command, one peephole
pass, and linking the loops that are left.  A final `stop` ends every program.

The pass goes over the operations with two of them held back.  An operation that merges into what is
held back disappears: moves add up, additions add up, an addition after a `set` changes the
value that is set, and the loops `[-]` and `[>]` become one operation each.  What merges to
nothing is dropped.
-/
namespace TapeMachine

/-- The two operations held back, the newer of them last. -/
structure Window where
  older : Option Op := none
  newer : Option Op := none
  deriving DecidableEq, Repr, Inhabited

namespace Window

def toList (w : Window) : List Op := w.older.toList ++ w.newer.toList

/-- The sum of two payloads; both must be there. -/
def sum (a b : Op) : Except Fault Int :=
  match a.arg, b.arg with
  | some x, some y => .ok (x + y)
  | _, _ => .error .notANumber

/-- The loop that ends behind the held back operations, if it is one of the two idioms: counting
a cell down empties it, and moving by one distance seeks an empty cell. -/
def idiom? (w : Window) : Option Op :=
  match w.older, w.newer with
  | some ⟨.openLoop, _⟩, some body =>
    if body = ⟨.add, some (-1)⟩ then some ⟨.set, some 0⟩
    else if body.tag = .move then some ⟨.seek, body.arg⟩
    else none
  | _, _ => none

/-- Folds an operation into the held back ones, or answers `none` if no rule applies. -/
def combine (w : Window) (cur : Op) : Except Fault (Option Window) :=
  match w.newer with
  | none => .ok none
  | some last =>
    match last.tag, cur.tag with
    | .move, .move => do
      let n ← sum last cur
      return some ⟨w.older, some ⟨.move, some n⟩⟩
    | .add, .add => do
      let n ← sum last cur
      return some ⟨w.older, some ⟨.add, some (wrap n)⟩⟩
    | .set, .add => do
      let n ← sum last cur
      return some ⟨w.older, some ⟨.set, some (wrap n)⟩⟩
    | _, .closeLoop => .ok (w.idiom?.map fun op => ⟨none, some op⟩)
    | _, _ => .ok none

end Window

def Op.isNoop (op : Op) : Bool :=
  (op.tag == .move || op.tag == .add) && op.arg == some 0

namespace Window

/-- Drops a newer operation that does nothing and lets the older one take its place. -/
def settle (w : Window) : Window :=
  if w.newer.any Op.isNoop then ⟨none, w.older⟩ else w

end Window

/-- How far the pass has come: the operations it has let go, and those it holds back. -/
structure Pass where
  emitted : Array Op := #[]
  window : Window := {}
  deriving Repr, Inhabited

namespace Pass

/-- Takes in one operation.  If it merges with nothing, the older of the held back operations
is let go. -/
def feed (p : Pass) (cur : Op) : Except Fault Pass := do
  match ← p.window.combine cur with
  | some w => return ⟨p.emitted, w.settle⟩
  | none => return ⟨p.emitted ++ p.window.older.toList, ⟨p.window.newer, some cur⟩⟩

def toList (p : Pass) : List Op := p.emitted.toList ++ p.window.toList

end Pass

def optimize (ops : List Op) : Except Fault (List Op) :=
  Pass.toList <$> ops.foldlM Pass.feed {}

def compile (source : List Symbol) : Except Fault (Array Op) := do
  let ops ← optimize ((commands source).map Op.ofCommand)
  let linked ← (link ops).program
  return linked.push ⟨.stop, none⟩

/-- Only the commands of a source reach its program. -/
theorem compile_congr {a b : List Symbol} (h : commands a = commands b) : compile a = compile b := by
  simp [compile, h]

end TapeMachine
