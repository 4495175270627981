import TapeMachine.Backend
import TapeMachine.Proofs.Machine.Ends

/-!
# Verdicts on sources

Whether a source is translated, and which fault it has if not, is decided by counting its brackets.
The compiler counts them when loops have already become single operations, the direct backend
counts those of the source; their verdicts are the same.
-/
namespace TapeMachine

namespace Brackets

/-- Some prefix closes more loops than it opens. -/
def Overcloses (b : List Bracket) : Prop :=
  ∃ p, p <+: b ∧ p.count .opening < p.count .closing

theorem depth_eq_count (l : List (Option Bracket)) :
    depth l = (l.filterMap id).count .opening - (l.filterMap id).count .closing := by
  induction l with
  | nil => rfl
  | cons x l ih =>
    match x with
    | none => simpa using ih
    | some .opening | some .closing =>
      rw [depth_cons, ih, List.filterMap_cons_some (by rfl)]
      simp
      omega

theorem covers_zero_iff {l : List (Option Bracket)} :
    Covers 0 l ↔ ¬ Overcloses (l.filterMap id) := by
  constructor
  · rintro h ⟨p, hp, hlt⟩
    obtain ⟨q, hq, rfl⟩ := List.prefix_filterMap_iff.mp hp
    have := h q hq
    rw [depth_eq_count] at this
    omega
  · intro h p hp
    by_contra hneg
    refine h ⟨p.filterMap id, hp.filterMap id, ?_⟩
    rw [depth_eq_count] at hneg
    omega

theorem balanced_iff_count {l : List (Option Bracket)} :
    Balanced l ↔ ¬ Overcloses (l.filterMap id) ∧
      (l.filterMap id).count .opening ≤ (l.filterMap id).count .closing := by
  have hdepth := depth_eq_count l
  constructor
  · intro h
    have hclosed := h.closed
    exact ⟨covers_zero_iff.mp h.nested, by omega⟩
  · rintro ⟨hover, hle⟩
    have hnested := covers_zero_iff.mpr hover
    have hlast := hnested l List.prefix_rfl
    exact ⟨hnested, by omega⟩

end Brackets

open Brackets

/-- The brackets of a source, in order. -/
def bracketsOf (source : List Symbol) : List Bracket := (commands source).filterMap Command.bracket?

/-- A translation that fails with a fault of compilation in these words. -/
def Refuses {α : Type} (r : Except Fault α) (words : String) : Prop :=
  ∃ f : Fault, r = .error f ∧ f.faultClass = .compilation ∧ f.message = words

/-- Faults of compilation are told apart by their words. -/
theorem Fault.eq_of_message_eq {f g : Fault} (hf : f.faultClass = .compilation)
    (hg : g.faultClass = .compilation) (h : f.message = g.message) : f = g := by
  cases f <;> cases hf <;> cases g <;> cases hg
  · rfl
  · exact absurd h (by decide)
  · exact absurd h (by decide)
  · rfl

theorem refuses_message_iff {α : Type} {r : Except Fault α} {f : Fault}
    (hf : f.faultClass = .compilation) : Refuses r f.message ↔ r = .error f := by
  constructor
  · rintro ⟨g, rfl, hg, h⟩
    rw [Fault.eq_of_message_eq hg hf h]
  · rintro rfl
    exact ⟨f, rfl, hf, rfl⟩

variable {source : List Symbol}

theorem filterMap_brackets (source : List Symbol) :
    ((commands source).map Command.bracket?).filterMap id = bracketsOf source := by
  rw [List.filterMap_map]
  rfl

theorem compile_eq_missingOpen_iff :
    compile source = .error .missingOpen ↔ Overcloses (bracketsOf source) := by
  rw [compile_eq_error_iff, fault_scan_eq_missingOpen_iff, covers_zero_iff, filterMap_brackets,
    not_not]

theorem compile_eq_missingClose_iff :
    compile source = .error .missingClose ↔ ¬ Overcloses (bracketsOf source) ∧
      (bracketsOf source).count .closing < (bracketsOf source).count .opening := by
  rw [compile_eq_error_iff, fault_scan_eq_missingClose_iff, covers_zero_iff, depth_eq_count,
    filterMap_brackets, sub_pos, Nat.cast_lt]

/-- The direct backend refuses what has no loop table. -/
theorem Backend.fault_translate_direct {name : String} {size : TapeSize}
    {code : Option (Array Symbol)} {loops : Option LoopTable} {f : Fault} :
    (translate ⟨name, size, .direct code loops⟩ source).fault = some f ↔
      LoopTable.ofSource source = .error f := by
  unfold translate
  cases LoopTable.ofSource source with
  | ok t => simp
  | error g => simp

/-- What becomes of a source is told by its brackets, and the direct backend finds the same fault in
it as the compiler does. -/
theorem compile_verdict (source : List Symbol) :
    (Refuses (compile source) "missing [ for ]" ↔ Overcloses (bracketsOf source)) ∧
    (Refuses (compile source) "missing ] for [" ↔ ¬ Overcloses (bracketsOf source) ∧
      (bracketsOf source).count .closing < (bracketsOf source).count .opening) ∧
    ((∃ code, compile source = .ok code) ↔ ¬ Overcloses (bracketsOf source) ∧
      (bracketsOf source).count .opening ≤ (bracketsOf source).count .closing) ∧
    ∀ name size code loops f,
      (Backend.translate ⟨name, size, .direct code loops⟩ (parsed source)).fault = some f ↔
        compile source = .error f := by
  refine ⟨?_, ?_, ?_, ?_⟩
  · exact (refuses_message_iff (f := .missingOpen) rfl).trans compile_eq_missingOpen_iff
  · exact (refuses_message_iff (f := .missingClose) rfl).trans compile_eq_missingClose_iff
  · rw [exists_compile_iff, balanced_iff_count, filterMap_brackets]
  · intro name size code loops f
    rw [Backend.fault_translate_direct, LoopTable.ofSource_eq_error_iff, map_bracket?_parsed,
      compile_eq_error_iff]

end TapeMachine
