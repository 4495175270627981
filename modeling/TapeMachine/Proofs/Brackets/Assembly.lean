import TapeMachine.Compile
import TapeMachine.Proofs.Brackets.Matching

/-!
# Assembling a program

A list of operations becomes a program when its loops are linked and a `stop` is put behind it. This
is so for the balanced lists and for no others. What is no bracket stays as it is, and the two
brackets of a loop learn where the other one stands.
-/
namespace TapeMachine

open Brackets

/-- The program that carries out a list of operations and halts behind it. -/
def assemble (ops : List Op) : Except Fault (Array Op) := do
  let linked ← (link ops).program
  return linked.push ⟨.stop, none⟩

variable {ops : List Op} {code linked : Array Op} {i j : ℕ} {op : Op}

/-- Compilation assembles what the pass makes of the operations of the commands. -/
theorem compile_eq_assemble (source : List Symbol) :
    compile source = optimize ((commands source).map Op.ofCommand) >>= assemble := rfl

theorem assemble_of_program_link (h : (link ops).program = .ok linked) :
    assemble ops = .ok (linked.push ⟨.stop, none⟩) := by
  rw [assemble, h]
  rfl

theorem exists_program_link_of_assemble (h : assemble ops = .ok code) :
    ∃ linked, (link ops).program = .ok linked ∧ code = linked.push ⟨.stop, none⟩ := by
  cases hlink : (link ops).program with
  | ok linked =>
    rw [assemble_of_program_link hlink] at h
    exact ⟨linked, rfl, (Except.ok.inj h).symm⟩
  | error f =>
    rw [assemble, hlink] at h
    cases h

theorem assemble_eq_error_iff {f : Fault} :
    assemble ops = .error f ↔ (scan (ops.map Op.bracket?) 0 []).fault = some f := by
  rw [← program_link_eq_error_iff]
  cases hlink : (link ops).program with
  | ok linked => simp [assemble_of_program_link hlink]
  | error g =>
    rw [assemble, hlink]
    rfl

theorem exists_assemble_iff :
    (∃ code, assemble ops = .ok code) ↔ Balanced (ops.map Op.bracket?) := by
  rw [← exists_program_link_iff]
  constructor
  · rintro ⟨code, h⟩
    obtain ⟨linked, hlink, -⟩ := exists_program_link_of_assemble h
    exact ⟨linked, hlink⟩
  · rintro ⟨linked, h⟩
    exact ⟨_, assemble_of_program_link h⟩

section Assembled

variable (h : assemble ops = .ok code)
include h

theorem size_assemble : code.size = ops.length + 1 := by
  obtain ⟨linked, hlink, rfl⟩ := exists_program_link_of_assemble h
  rw [Array.size_push, size_program_link hlink]

theorem getElem?_assemble_stop : code[ops.length]? = some ⟨.stop, none⟩ := by
  obtain ⟨linked, hlink, rfl⟩ := exists_program_link_of_assemble h
  rw [← size_program_link hlink, Array.getElem?_push_size]

theorem getElem?_assemble_of_none (hi : ops[i]? = some op) (hop : op.bracket? = none) :
    code[i]? = some op := by
  obtain ⟨linked, hlink, rfl⟩ := exists_program_link_of_assemble h
  have hget := getElem?_program_link_of_none hlink hi hop
  have hlt := (Array.getElem?_eq_some_iff.mp hget).1
  rw [Array.getElem?_push_lt hlt, ← Array.getElem?_eq_getElem hlt, hget]

theorem getElem?_assemble_of_paired (paired : Paired (ops.map Op.bracket?) i j) :
    code[i]? = some ⟨.openLoop, some j⟩ ∧ code[j]? = some ⟨.closeLoop, some i⟩ := by
  obtain ⟨linked, hlink, rfl⟩ := exists_program_link_of_assemble h
  obtain ⟨hget, hget'⟩ := getElem?_program_link_of_paired hlink paired
  have hlt := (Array.getElem?_eq_some_iff.mp hget).1
  have hlt' := (Array.getElem?_eq_some_iff.mp hget').1
  rw [Array.getElem?_push_lt hlt, ← Array.getElem?_eq_getElem hlt, hget,
    Array.getElem?_push_lt hlt', ← Array.getElem?_eq_getElem hlt', hget']
  exact ⟨rfl, rfl⟩

end Assembled
end TapeMachine
