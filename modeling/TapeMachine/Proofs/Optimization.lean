import TapeMachine.Proofs.Machine.Ends
import TapeMachine.Proofs.Machine.Rewritten

/-!
# The peephole pass keeps what a run comes to

The pass is sound for all lists of operations that are well-nested and have their numbers, whatever
they were made from. A run that halts, or finds no input, does so after the pass with the same tape,
the same pointer, the same output and the same input left.
-/
namespace TapeMachine

open Brackets

theorem optimize_keeps_ends (ops : List Op) (operands : ∀ op ∈ ops, op.HasOperand)
    (balanced : Balanced (ops.map Op.bracket?)) :
    ∃ code ops' code', assemble ops = .ok code ∧ optimize ops = .ok ops' ∧
      assemble ops' = .ok code' ∧
      ∀ (size : TapeSize) (channel : Channel) (limit : ℕ) (s : Compiled.State),
        (Compiled.run limit code size.val channel = some (.halted, s) →
          ∃ limit' s', Compiled.run limit' code' size.val channel = some (.halted, s') ∧
            s'.store = s.store) ∧
        ∀ i, Compiled.run limit code size.val channel = some (.failed (.noInput i), s) →
          ∃ limit' i' s',
            Compiled.run limit' code' size.val channel = some (.failed (.noInput i'), s') ∧
              s'.store = s.store := by
  obtain ⟨code, hcode⟩ := exists_assemble_iff.mpr balanced
  obtain ⟨ops', hops'⟩ := exists_optimize operands
  obtain ⟨code', hcode', keeps⟩ :=
    Compiled.endsIn_of_rewrites (rewrites_optimize hops') operands hcode
  refine ⟨code, ops', code', hcode, hops', hcode', fun size channel limit s => ⟨?_, ?_⟩⟩
  · intro run
    obtain ⟨e, s', ⟨limit', run'⟩, hmatches⟩ := keeps _ _ _ (.blank size.val channel)
      (Store.inRange_blank size channel) ⟨limit, run⟩ Compiled.not_breaks_halted
    cases hmatches with
    | halted store => exact ⟨limit', s', run', store⟩
  · intro i run
    obtain ⟨e, s', ⟨limit', run'⟩, hmatches⟩ := keeps _ _ _ (.blank size.val channel)
      (Store.inRange_blank size channel) ⟨limit, run⟩ (Compiled.not_breaks_noInput i)
    cases hmatches with
    | noInput _ j store => exact ⟨limit', j, s', run', store⟩

/-- A loop that counts down, an addition beyond a byte, a loop that seeks in two moves and a tag
without a meaning become five operations. -/
theorem optimize_keeps_ends_seek :
    ∃ code', assemble [⟨.read, none⟩, ⟨.set, some 44⟩, ⟨.print, none⟩, ⟨.seek, some 1⟩,
        ⟨.other "pause", none⟩] = .ok code' ∧
      ∃ limit s, Compiled.run limit code' 3 (.ofInput ['\x02', 'b']) = some (.halted, s) ∧
        s.store = ⟨3, #[some 44, some 0, some 0], 1, .buffer ['b'] #[","]⟩ := by
  obtain ⟨code, ops', code', hcode, hops', hcode', keeps⟩ := optimize_keeps_ends
    [⟨.read, none⟩, ⟨.openLoop, none⟩, ⟨.add, some (-1)⟩, ⟨.closeLoop, none⟩, ⟨.add, some 300⟩,
      ⟨.print, none⟩, ⟨.openLoop, none⟩, ⟨.move, some 2⟩, ⟨.move, some (-1)⟩, ⟨.closeLoop, none⟩,
      ⟨.other "pause", none⟩]
    (by simp [Op.HasOperand]) (by decide)
  obtain rfl := Except.ok.inj (hops'.symm.trans (by decide +kernel :
    _ = Except.ok [⟨.read, none⟩, ⟨.set, some 44⟩, ⟨.print, none⟩, ⟨.seek, some 1⟩,
      ⟨.other "pause", none⟩]))
  obtain rfl := Except.ok.inj (hcode.symm.trans (by decide +kernel :
    _ = Except.ok #[⟨.read, none⟩, ⟨.openLoop, some 3⟩, ⟨.add, some (-1)⟩, ⟨.closeLoop, some 1⟩,
      ⟨.add, some 300⟩, ⟨.print, none⟩, ⟨.openLoop, some 9⟩, ⟨.move, some 2⟩, ⟨.move, some (-1)⟩,
      ⟨.closeLoop, some 6⟩, ⟨.other "pause", none⟩, ⟨.stop, none⟩]))
  obtain ⟨limit, s, run, store⟩ := (keeps ⟨3, by decide⟩ (.ofInput ['\x02', 'b']) 30
    ⟨11, 3, #[some 44, some 0, some 0], 1, .buffer ['b'] #[","]⟩).1 (by decide +kernel)
  exact ⟨code', hcode', limit, s, run, store⟩

end TapeMachine
