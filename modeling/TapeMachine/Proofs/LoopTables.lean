import TapeMachine.Proofs.Structured.Interpretation

/-!
# Loop tables and linked commands

The brackets of some commands are matched twice: a loop table notes them by position, and linking
writes them into the operations of the commands. The two go by the same pairs, so they fail
together, and where both come through, an entry of the table is the payload at its position.
-/
namespace TapeMachine

open Brackets

theorem Brackets.faultClass_of_fault_scan {l : List (Option Bracket)} {f : Fault}
    (h : (scan l 0 []).fault = some f) : f.faultClass = .compilation := by
  rw [fault_scan_start] at h
  split_ifs at h <;> cases h <;> rfl

namespace LoopTable

variable {source : List Symbol} {loops : LoopTable} {i j : ℕ}

/-- The entries of the table of a source are its pairs, in both directions. -/
theorem partner?_ofSource_iff (h : ofSource source = .ok loops) :
    loops.partner? i = some j ↔
      Paired (source.map Symbol.bracket?) i j ∨ Paired (source.map Symbol.bracket?) j i := by
  constructor
  · intro hj
    rw [ofSource, matchFrom_eq, Pairing.orFault_eq_ok_iff] at h
    obtain ⟨-, rfl⟩ := h
    by_cases hi : i < (blank source.length).partners.size
    · rw [partner?] at hj
      rcases getElem?_tieAll some some (scan (source.map Symbol.bracket?) 0 []).pairs _ hi with
        ⟨n, hn, he⟩ | ⟨n, hn, he⟩ | ⟨-, he⟩
      · obtain rfl : n = j := by simpa [he] using hj
        exact .inl (paired_of_mem_pairs hn)
      · obtain rfl : n = j := by simpa [he] using hj
        exact .inr (paired_of_mem_pairs hn)
      · rw [he, ← partner?, partner?_blank] at hj
        cases hj
    · rw [partner?, Array.getElem?_eq_none (by simpa using hi)] at hj
      cases hj
  · rintro (paired | paired)
    · exact (partner?_of_paired h paired).1
    · exact (partner?_of_paired h paired).2

end LoopTable

/-- A table and the linked operations of some commands tell the same loops. -/
structure SameLoops (cmds : List Command) (loops : LoopTable) (code : Array Op) : Prop where
  /-- Brackets have an entry, and nothing else has one. -/
  keys : ∀ i, (∃ j, loops.partner? i = some j) ↔
    cmds[i]? = some .loopStart ∨ cmds[i]? = some .loopEnd
  involutive : ∀ i j, loops.partner? i = some j → loops.partner? j = some i
  ne_self : ∀ i, loops.partner? i ≠ some i
  opening : ∀ i j, cmds[i]? = some .loopStart → loops.partner? i = some j →
    i < j ∧ cmds[j]? = some .loopEnd
  payload : ∀ i j : ℕ, loops.partner? i = some j → code[i]?.bind Op.arg = some (j : ℤ)

section Commands

variable {cmds : List Command} {loops : LoopTable} {code : Array Op} {i j : ℕ}

theorem getElem?_bracket?_eq_opening_iff :
    (cmds.map Command.bracket?)[i]? = some (some .opening) ↔ cmds[i]? = some .loopStart := by
  simp [Command.bracket?_eq_opening_iff]

theorem getElem?_bracket?_eq_closing_iff :
    (cmds.map Command.bracket?)[i]? = some (some .closing) ↔ cmds[i]? = some .loopEnd := by
  simp [Command.bracket?_eq_closing_iff]

theorem map_bracket?_ofCommand (cmds : List Command) :
    (cmds.map Op.ofCommand).map Op.bracket? = cmds.map Command.bracket? := by
  simp

theorem partner?_eq_some_iff (ht : LoopTable.ofSource (cmds.map Symbol.command) = .ok loops) :
    loops.partner? i = some j ↔
      Paired (cmds.map Command.bracket?) i j ∨ Paired (cmds.map Command.bracket?) j i := by
  rw [← map_bracket?_command]
  exact LoopTable.partner?_ofSource_iff ht

theorem exists_partner?_iff (ht : LoopTable.ofSource (cmds.map Symbol.command) = .ok loops) :
    (∃ j, loops.partner? i = some j) ↔ cmds[i]? = some .loopStart ∨ cmds[i]? = some .loopEnd := by
  have bal : Balanced (cmds.map Command.bracket?) := by
    rw [← map_bracket?_command]
    exact LoopTable.exists_ofSource_iff.mp ⟨loops, ht⟩
  constructor
  · rintro ⟨j, hj⟩
    rcases (partner?_eq_some_iff ht).mp hj with paired | paired
    · exact .inl (Direct.getElem?_of_paired paired).1
    · exact .inr (Direct.getElem?_of_paired paired).2
  · rintro (hi | hi)
    · obtain ⟨j, paired⟩ := exists_paired_of_opening bal (getElem?_bracket?_eq_opening_iff.mpr hi)
      exact ⟨j, (partner?_eq_some_iff ht).mpr (.inl paired)⟩
    · obtain ⟨j, paired⟩ := exists_paired_of_closing bal (getElem?_bracket?_eq_closing_iff.mpr hi)
      exact ⟨j, (partner?_eq_some_iff ht).mpr (.inr paired)⟩

/-- Linked operations of commands hold the place of their partner. -/
theorem arg_of_paired (hc : (link (cmds.map Op.ofCommand)).program = .ok code)
    (h : Paired (cmds.map Command.bracket?) i j) :
    code[i]?.bind Op.arg = some (j : ℤ) ∧ code[j]?.bind Op.arg = some (i : ℤ) := by
  rw [← map_bracket?_ofCommand] at h
  obtain ⟨hi, hj⟩ := getElem?_program_link_of_paired hc h
  rw [hi, hj]
  exact ⟨rfl, rfl⟩

theorem sameLoops (ht : LoopTable.ofSource (cmds.map Symbol.command) = .ok loops)
    (hc : (link (cmds.map Op.ofCommand)).program = .ok code) : SameLoops cmds loops code where
  keys _ := exists_partner?_iff ht
  involutive i j h := by
    rw [partner?_eq_some_iff ht] at h ⊢
    exact h.symm
  ne_self i h := by
    rcases (partner?_eq_some_iff ht).mp h with paired | paired <;>
      exact absurd paired.lt (lt_irrefl i)
  opening i j hi h := by
    rcases (partner?_eq_some_iff ht).mp h with paired | paired
    · exact ⟨paired.lt, (Direct.getElem?_of_paired paired).2⟩
    · rw [(Direct.getElem?_of_paired paired).2] at hi
      cases hi
  payload i j h := by
    rcases (partner?_eq_some_iff ht).mp h with paired | paired
    · exact (arg_of_paired hc paired).1
    · exact (arg_of_paired hc paired).2

end Commands

/-- Both ways of matching the brackets of some commands fail with the same fault of compilation, or
both come through and tell the same loops. -/
theorem loopTable_and_link_agree (cmds : List Command) :
    ∃ ops, translate (cmds.map Symbol.command) = .ok ops ∧
      ((∃ f : Fault, f.faultClass = .compilation ∧
          LoopTable.ofSource (cmds.map Symbol.command) = .error f ∧
          (link ops).program = .error f) ∨
        ∃ loops code, LoopTable.ofSource (cmds.map Symbol.command) = .ok loops ∧
          (link ops).program = .ok code ∧ SameLoops cmds loops code) := by
  refine ⟨_, translate_map_command cmds, ?_⟩
  have hscan : (cmds.map Symbol.command).map Symbol.bracket? =
      (cmds.map Op.ofCommand).map Op.bracket? :=
    (map_bracket?_command cmds).trans (map_bracket?_ofCommand cmds).symm
  cases hf : (scan ((cmds.map Op.ofCommand).map Op.bracket?) 0 []).fault with
  | some f =>
    refine .inl ⟨f, faultClass_of_fault_scan hf, ?_, program_link_eq_error_iff.mpr hf⟩
    rw [LoopTable.ofSource_eq_error_iff, hscan]
    exact hf
  | none =>
    have bal := fault_scan_eq_none_iff_balanced.mp hf
    obtain ⟨code, hc⟩ := exists_program_link_iff.mpr bal
    rw [← hscan] at bal
    obtain ⟨loops, ht⟩ := LoopTable.exists_ofSource_iff.mpr bal
    exact .inr ⟨loops, code, ht, hc, sameLoops ht hc⟩

end TapeMachine
