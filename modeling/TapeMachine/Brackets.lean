import TapeMachine.Op

/-!
# Matching brackets

A loop table gives for the position of a bracket in a source the position of its partner, in both
directions.  Positions count every symbol of the source, remarks too.

In a program the opening and the closing operation of a loop carry each other's index.  Linking
rewrites a program from left to right with a stack of the loops still open, and stops at the first
closing operation without a partner; what has been rewritten by then stays rewritten.
-/
namespace TapeMachine

/-- The partner at each position of a source; positions without a bracket have none. -/
structure LoopTable where
  partners : Array (Option Nat)
  deriving DecidableEq, Repr, Inhabited

namespace LoopTable

def blank (n : Nat) : LoopTable := ⟨Array.replicate n none⟩

def partner? (t : LoopTable) (i : Nat) : Option Nat := t.partners[i]?.join

/-- Notes that the brackets at `i` and `j` belong together. -/
def pair (t : LoopTable) (i j : Nat) : LoopTable :=
  ⟨(t.partners.setIfInBounds i (some j)).setIfInBounds j (some i)⟩

def entries (t : LoopTable) : List (Nat × Nat) :=
  t.partners.toList.zipIdx.filterMap fun (p, i) => p.map fun j => (i, j)

theorem partner?_blank (n i : Nat) : (blank n).partner? i = none := by
  simp only [blank, partner?, Array.getElem?_replicate]
  split <;> rfl

/-- Matches the brackets of `rest`, the first symbol of which has position `i`; `starts` are the
positions of the open brackets, innermost first. -/
def matchFrom :
    (rest : List Symbol) → (i : Nat) → (starts : List Nat) → LoopTable → Except Fault LoopTable
  | [], _, [], t => .ok t
  | [], _, _ :: _, _ => .error .missingClose
  | .command .loopStart :: rest, i, starts, t => matchFrom rest (i + 1) (i :: starts) t
  | .command .loopEnd :: _, _, [], _ => .error .missingOpen
  | .command .loopEnd :: rest, i, start :: starts, t =>
    matchFrom rest (i + 1) starts (t.pair start i)
  | _ :: rest, i, starts, t => matchFrom rest (i + 1) starts t

def ofSource (source : List Symbol) : Except Fault LoopTable :=
  matchFrom source 0 [] (blank source.length)

end LoopTable

/-- A program after linking, and why linking stopped if it did not come through. -/
structure Linked where
  ops : Array Op
  fault : Option Fault
  deriving Repr, Inhabited

namespace Linked

/-- Links the operations of `rest`, the first of which has index `i` in `ops`; `starts` are the
indices of the open loops, innermost first. -/
def scan : (rest : List Op) → (i : Nat) → (starts : List Nat) → (ops : Array Op) → Linked
  | [], _, [], ops => ⟨ops, none⟩
  | [], _, _ :: _, ops => ⟨ops, some .missingClose⟩
  | op :: rest, i, starts, ops =>
    match op.tag, starts with
    | .openLoop, _ => scan rest (i + 1) (i :: starts) ops
    | .closeLoop, [] => ⟨ops, some .missingOpen⟩
    | .closeLoop, start :: starts =>
      scan rest (i + 1) starts
        ((ops.setIfInBounds start ⟨.openLoop, some i⟩).setIfInBounds i ⟨.closeLoop, some start⟩)
    | _, _ => scan rest (i + 1) starts ops

def program (l : Linked) : Except Fault (Array Op) :=
  match l.fault with
  | none => .ok l.ops
  | some f => .error f

end Linked

def link (ops : List Op) : Linked := Linked.scan ops 0 [] ops.toArray

namespace Linked

theorem size_ops_scan (rest : List Op) (i : Nat) (starts : List Nat) (ops : Array Op) :
    (scan rest i starts ops).ops.size = ops.size := by
  fun_induction scan rest i starts ops <;> simp_all

end Linked

@[simp] theorem size_ops_link (ops : List Op) : (link ops).ops.size = ops.length := by
  simp [link, Linked.size_ops_scan]

end TapeMachine
