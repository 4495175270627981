import TapeMachine.Proofs.Safety
import TapeMachine.Proofs.Run.Stream

/-!
# Access to the tape

The checks of the machines guard the tape for every program and every table, not only for what a
compiler makes of a source. A step reads and writes no cell but the one at the pointer, and none at
all while the pointer is off the tape. To say so, the other cells are exchanged: a step that neither
reads nor writes them does the same whatever they hold.
-/
namespace TapeMachine

/-- States that hold a tape. -/
class HoldsTape (σ : Type) where
  store : σ → Store
  withCells : σ → Array Cell → σ
  cells_withCells : ∀ s cells, (store (withCells s cells)).cells = cells
  withCells_cells : ∀ s, withCells s (store s).cells = s

open HoldsTape

namespace Store

variable {s : Store} {cells : Array Cell}

/-- The store with other cells. -/
def withCells (s : Store) (cells : Array Cell) : Store := { s with cells := cells }

/-- With these cells the pointer finds what it finds now; off the tape it finds nothing. -/
def Finds (s : Store) (cells : Array Cell) : Prop :=
  s.InRange → cells[s.ptr.toNat]? = s.cells[s.ptr.toNat]?

/-- What may happen to the cells in one step: nothing, or the one at the pointer is written. -/
inductive Edit (s : Store) : (Array Cell → Array Cell) → Prop
  | keep : Edit s id
  | write (hr : s.InRange) (c : Cell) : Edit s (·.setIfInBounds s.ptr.toNat c)

theorem Finds.cell? (h : s.Finds cells) (hr : s.InRange) :
    (s.withCells cells).cell? = s.cell? := by
  simp only [Store.cell?, withCells, if_pos hr.1, h hr]

theorem Edit.getElem?_eq {edit : Array Cell → Array Cell} (h : s.Edit edit) {i : ℕ}
    (hi : s.InRange → i ≠ s.ptr.toNat) (cells : Array Cell) : (edit cells)[i]? = cells[i]? := by
  cases h with
  | keep => rfl
  | write hr c => exact Array.getElem?_setIfInBounds_ne (hi hr).symm

end Store

section Confined

variable {σ : Type} [HoldsTape σ] {step : σ → Step σ} {s : σ}

/-- A step from `s` depends on no cell but the one at the pointer, and edits no other one. Off the
tape it depends on no cell at all. -/
def Confined (step : σ → Step σ) (s : σ) : Prop :=
  ∃ (r : Step σ) (edit : Array Cell → Array Cell), (store s).Edit edit ∧
    ∀ cells, (store s).Finds cells →
      step (withCells s cells) = r.image id fun t => withCells t (edit cells)

namespace Confined

theorem congr {step' : σ → Step σ} (h : Confined step s)
    (heq : ∀ cells, step' (withCells s cells) = step (withCells s cells)) : Confined step' s := by
  obtain ⟨r, edit, he, h⟩ := h
  exact ⟨r, edit, he, fun cells hf => (heq cells).trans (h cells hf)⟩

/-- Cells away from the pointer are left as they are. -/
theorem getElem?_eq (h : Confined step s) {i : ℕ}
    (hi : (store s).InRange → i ≠ (store s).ptr.toNat) :
    (store (step s).state).cells[i]? = (store s).cells[i]? := by
  obtain ⟨r, edit, he, h⟩ := h
  have hstep := h (store s).cells fun _ => rfl
  rw [withCells_cells] at hstep
  rw [hstep, ← he.getElem?_eq hi (store s).cells]
  cases r <;> simp only [Step.image, Step.state, cells_withCells]

end Confined
end Confined

namespace Compiled

variable {code : Array Op} {s t : State} {op : Op} {arg : Option ℤ}

instance : HoldsTape State where
  store := State.store
  withCells s cells := ⟨s.ip, s.store.withCells cells⟩
  cells_withCells _ _ := rfl
  withCells_cells _ := rfl

section Exec

variable (hr : s.store.InRange)
include hr

end Exec

/-- What a program can leave in a cell: a signed byte, or the payload of one of its `set`. -/
def Leaves (code : Array Op) (c : Cell) : Prop :=
  (∃ v, c = some v ∧ SignedByte v) ∨ ∃ op ∈ code, op.tag = .set ∧ c = op.arg

/-- What holds whenever a program fetches an operation, whatever the program. -/
structure Contained (code : Array Op) (size : ℕ) (s : State) : Prop where
  size_eq : s.store.size = size
  full : s.store.cells.size = size
  inRange : s.store.InRange
  cells : ∀ c ∈ s.store.cells, Leaves code c

/-- Where faults come from: an index is wrong only in fetching an operation, and the pointer is off
the tape where a fault says that it is. -/
structure FaultAt (code : Array Op) (size : ℕ) (f : Fault) (t : State) : Prop where
  index : f.faultClass = .index → f = .noSuchOp ∧ fetch code t.ip = none
  offTape : ∀ pos n, f = .offTape pos n → n = size ∧ ¬ (0 ≤ pos ∧ pos < n)

/-- What one step comes to. -/
def Abides (code : Array Op) (size : ℕ) : Step State → Prop
  | .next t => Contained code size t
  | .done .halted _ => True
  | .done (.failed f) t => FaultAt code size f t

variable {size : ℕ} {f : Fault} {n ip : ℤ} {c : Cell}

theorem mem_of_fetch (h : fetch code ip = some op) : op ∈ code := by
  unfold fetch at h
  split_ifs at h <;> exact Array.mem_of_getElem? h

theorem FaultAt.of_class (hi : f.faultClass ≠ .index) (ho : f.faultClass ≠ .tapeRange) :
    FaultAt code size f t := by
  refine ⟨fun h => absurd h hi, ?_⟩
  rintro pos n rfl
  exact absurd rfl ho

namespace Contained

theorem initial (code : Array Op) (size : TapeSize) (channel : Channel) :
    Contained code size.val (.initial size.val channel) := by
  refine ⟨rfl, Store.size_cells_blank _ _, Store.inRange_blank size channel, fun c hc => ?_⟩
  obtain ⟨v, hv⟩ := (Store.Bytes.blank size.val channel).byte c hc
  exact .inl ⟨v, hv⟩

variable (h : Contained code size s)
include h

theorem exists_cell : ∃ c, s.store.cell? = some c := by
  apply Option.isSome_iff_exists.mp
  rw [Store.isSome_cell?_iff]
  · exact h.inRange
  · rw [h.full, h.size_eq, Int.toNat_natCast]

/-- A store with the same cells and the pointer in range. -/
theorem withStore {store : Store} (size_eq : store.size = s.store.size)
    (cells : store.cells = s.store.cells) (hr : store.InRange) : Contained code size ⟨ip, store⟩ :=
  ⟨size_eq.trans h.size_eq, cells ▸ h.full, hr, cells ▸ h.cells⟩

theorem put (hc : Leaves code c) : Contained code size ⟨ip, s.store.put c⟩ := by
  refine ⟨h.size_eq, by rw [Store.size_cells_put, h.full], h.inRange, fun d hd => ?_⟩
  rcases Array.mem_or_eq_of_mem_setIfInBounds hd with hd | rfl
  · exact h.cells d hd
  · exact hc

theorem abides_advance : Abides code size (s.advance s.store) := h.withStore rfl rfl h.inRange

theorem abides_jump (target : Option ℤ) : Abides code size (s.jump target) := by
  cases target with
  | none => exact .of_class (by decide) (by decide)
  | some k => exact h.withStore rfl rfl h.inRange

theorem abides_move : Abides code size (s.move ip n) := by
  by_cases hr : (s.store.shift n).InRange
  · simp only [State.move, if_pos hr]
    exact h.withStore rfl rfl hr
  · simp only [State.move, if_neg hr]
    refine ⟨by simp [Store.offTape, Fault.faultClass], ?_⟩
    rintro pos k ⟨⟩
    exact ⟨h.size_eq, hr⟩

theorem abides_exec (hop : op ∈ code) : Abides code size (s.exec op) := by
  obtain ⟨c, hc⟩ := h.exists_cell
  obtain ⟨tag, arg⟩ := op
  cases tag with
  | move =>
    cases arg with
    | none => exact .of_class (by decide) (by decide)
    | some n => exact h.abides_move
  | add =>
    simp only [State.exec, hc]
    cases c with
    | none => exact .of_class (by decide) (by decide)
    | some v =>
      cases arg with
      | none => exact .of_class (by decide) (by decide)
      | some n => exact h.put (.inl ⟨_, rfl, signedByte_wrap _⟩)
  | openLoop =>
    simp only [State.exec, hc]
    split_ifs
    · exact h.abides_jump arg
    · exact h.abides_advance
  | closeLoop =>
    simp only [State.exec, hc]
    split_ifs
    · exact h.abides_advance
    · exact h.abides_jump arg
  | set =>
    simp only [State.exec, hc]
    exact h.put (.inr ⟨_, hop, rfl, rfl⟩)
  | seek =>
    by_cases h0 : c = some 0
    · subst h0
      simp only [State.exec, hc]
      exact h.abides_advance
    · cases arg with
      | none =>
        simp only [State.exec, hc]
        exact .of_class (by decide) (by decide)
      | some n =>
        rw [exec_seek_of_ne hc h0]
        exact h.abides_move
  | print =>
    simp only [State.exec, hc]
    cases c with
    | none => exact .of_class (by decide) (by decide)
    | some v => exact h.withStore rfl rfl h.inRange
  | read =>
    cases hread : s.store.channel.read with
    | none =>
      simp only [State.exec, hread]
      exact .of_class (by simp [Fault.faultClass]) (by simp [Fault.faultClass])
    | some x =>
      obtain ⟨x, rest⟩ := x
      have hcell : Store.cell? { s.store with channel := rest } = some c := hc
      have hrest : Contained code size ⟨s.ip, { s.store with channel := rest }⟩ :=
        h.withStore rfl rfl h.inRange
      simp only [State.exec, hread, hcell]
      exact hrest.put (.inl ⟨_, rfl, signedByte_wrap _⟩)
  | stop => trivial
  | other name => exact h.abides_advance

/-- What one step preserves, and how it can fail. -/
theorem abides_step : Abides code size (step code s) := by
  unfold step
  cases hop : fetch code s.ip with
  | none => exact ⟨fun _ => ⟨rfl, hop⟩, by rintro pos n ⟨⟩⟩
  | some op => exact h.abides_exec (mem_of_fetch hop)

theorem of_reaches (reach : Reaches (step code) s t) : Contained code size t := by
  refine reach.invariant (fun u w hu lead => ?_) h
  have habides := hu.abides_step
  rw [show step code u = .next w from lead] at habides
  exact habides

end Contained
end Compiled

namespace Direct

variable {code : Array Symbol} {loops : LoopTable} {s : State}

instance : HoldsTape State where
  store := State.store
  withCells s cells := ⟨s.pc, s.store.withCells cells⟩
  cells_withCells _ _ := rfl
  withCells_cells _ := rfl

section Exec

variable (hr : s.store.InRange)
include hr

end Exec

end Direct

end TapeMachine
