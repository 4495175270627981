import TapeMachine.Proofs.Machine.Tape
import TapeMachine.Proofs.Structured.Program
import TapeMachine.Run

/-!
# What nested programs do

The meaning of a nested program, by its structure and without a program counter: an action changes
the store or fails, and a loop does its body as long as the cell that it comes to is not zero.
Positions of commands only serve to tell where a character was missing.
-/
namespace TapeMachine

namespace Store

/-- The number in the cell at the pointer. -/
def value (s : Store) : ℤ := s.cells[s.ptr.toNat]?.join.getD 0

/-- The store with a number in the cell at the pointer, folded back into a byte. -/
def holding (s : Store) (v : ℤ) : Store :=
  { s with cells := s.cells.setIfInBounds s.ptr.toNat (some (wrap v)) }

/-- Fails if the pointer is off the tape. -/
def checked (s : Store) (r : Except Fault Store) : Except Fault Store :=
  if s.InRange then r else .error s.offTape

theorem Bytes.cell?_eq_value {s : Store} (hs : s.Bytes) (hr : s.InRange) :
    s.cell? = some (some s.value) := by
  obtain ⟨v, hv, -⟩ := hs.exists_cell hr
  have hcell : s.cells[s.ptr.toNat]? = some (some v) := by
    rwa [cell?, if_pos hr.1] at hv
  rw [hv, value, hcell]
  rfl

end Store

/-- The store after an action at position `k`, or why it fails. Moves go anywhere; every other action
wants the pointer on the tape. -/
def Action.perform (k : ℕ) (s : Store) : Action → Except Fault Store
  | left => .ok { s with ptr := s.ptr - 1 }
  | right => .ok { s with ptr := s.ptr + 1 }
  | increment => s.checked (.ok (s.holding (s.value + 1)))
  | decrement => s.checked (.ok (s.holding (s.value - 1)))
  | output => s.checked <|
    .ok { s with channel := s.channel.write (String.singleton (byteChar s.value)) }
  | input => s.checked <|
    match s.channel.read with
    | none => .error (.noInput k)
    | some (c, rest) => .ok ({ s with channel := rest }.holding c.toNat)

namespace Program

/-- Begun in one store, a program whose first command has position `k` ends in another. -/
inductive Runs : (k : ℕ) → Program → Store → Ending → Store → Prop
  | done {k : ℕ} {s : Store} : Runs k done s .halted s
  | act {k : ℕ} {a : Action} {p : Program} {s u t : Store} {e : Ending}
    (first : a.perform k s = .ok u) (rest : Runs (k + 1) p u e t) : Runs k (act a p) s e t
  | fault {k : ℕ} {a : Action} {p : Program} {s : Store} {f : Fault}
    (first : a.perform k s = .error f) : Runs k (act a p) s (.failed f) s
  | offTape {k : ℕ} {b p : Program} {s : Store} (off : ¬ s.InRange) :
    Runs k (loop b p) s (.failed s.offTape) s
  | skip {k : ℕ} {b p : Program} {s t : Store} {e : Ending} (inRange : s.InRange)
    (zero : s.value = 0) (rest : Runs (k + (b.commands.length + 2)) p s e t) :
    Runs k (loop b p) s e t
  | again {k : ℕ} {b p : Program} {s u t : Store} {e : Ending} (inRange : s.InRange)
    (ne : s.value ≠ 0) (body : Runs (k + 1) b s .halted u) (rest : Runs k (loop b p) u e t) :
    Runs k (loop b p) s e t
  | inside {k : ℕ} {b p : Program} {s t : Store} {f : Fault} (inRange : s.InRange)
    (ne : s.value ≠ 0) (body : Runs (k + 1) b s (.failed f) t) :
    Runs k (loop b p) s (.failed f) t

/-- The end of a whole program, where the pointer must be on the tape. -/
inductive Ends (p : Program) (s : Store) : Ending → Store → Prop
  | halted {t : Store} (run : Runs 0 p s .halted t) (inRange : t.InRange) : Ends p s .halted t
  | offTape {t : Store} (run : Runs 0 p s .halted t) (off : ¬ t.InRange) :
    Ends p s (.failed t.offTape) t
  | failed {t : Store} {f : Fault} (run : Runs 0 p s (.failed f) t) : Ends p s (.failed f) t

end Program

theorem Store.checked_eq_ok_iff {s t : Store} {r : Except Fault Store} :
    s.checked r = .ok t ↔ s.InRange ∧ r = .ok t := by
  unfold checked
  split_ifs <;> simp_all

theorem Action.touch_of_perform {a : Action} {k : ℕ} {s t : Store} (h : a.perform k s = .ok t) :
    s.Touch t := by
  cases a with
  | left | right =>
    cases h
    exact .shift _
  | increment | decrement =>
    obtain ⟨-, h⟩ := Store.checked_eq_ok_iff.mp h
    cases h
    exact .put (signedByte_wrap _)
  | output =>
    obtain ⟨-, h⟩ := Store.checked_eq_ok_iff.mp h
    cases h
    exact .emit _
  | input =>
    obtain ⟨-, h⟩ := Store.checked_eq_ok_iff.mp h
    split at h
    · cases h
    · rename_i hread
      cases h
      exact .read hread

/-- A program leaves a tape of signed bytes as it is or with other bytes. -/
theorem Program.Runs.bytes {k : ℕ} {p : Program} {s t : Store} {e : Ending} (h : Runs k p s e t)
    (hs : s.Bytes) : t.Bytes := by
  induction h with
  | done => exact hs
  | act first _ ih => exact ih ((Action.touch_of_perform first).bytes hs)
  | fault _ => exact hs
  | offTape _ => exact hs
  | skip _ _ _ ih => exact ih hs
  | again _ _ _ _ hbody hrest => exact hrest (hbody hs)
  | inside _ _ _ ih => exact ih hs

end TapeMachine
