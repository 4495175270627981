import TapeMachine.Proofs.Peephole.Rewriting

/-!
# Feeding the pass

The pass takes in one operation after the other, so what it makes of a list can be followed from
any point on.
-/
namespace TapeMachine

/-- The operations of some commands after one pass. -/
def optimized (cmds : List Command) : Except Fault (List Op) :=
  translate (cmds.map Symbol.command) >>= optimize

theorem optimized_eq (cmds : List Command) : optimized cmds = optimize (cmds.map Op.ofCommand) := by
  rw [optimized, translate_map_command]
  rfl

namespace Pass

variable {s t u : Pass} {a b ops ops' : List Op} {cur : Op}

/-- The pass goes from one point to another over some operations. -/
def Reads (s : Pass) (ops : List Op) (t : Pass) : Prop := ops.foldlM feed s = .ok t

theorem reads_nil : Reads s [] t ↔ s = t := by
  simp [Reads, pure, Except.pure]

theorem reads_cons : Reads s (cur :: ops) u ↔ ∃ t, s.feed cur = .ok t ∧ Reads t ops u := by
  rw [Reads, List.foldlM_cons]
  cases s.feed cur with
  | error f => simp [bind, Except.bind]
  | ok t => simp [bind, Except.bind, Reads]

theorem reads_append : Reads s (a ++ b) u ↔ ∃ t, Reads s a t ∧ Reads t b u := by
  rw [Reads, List.foldlM_append]
  unfold Reads
  cases a.foldlM feed s with
  | error f => simp [bind, Except.bind]
  | ok t => simp [bind, Except.bind]

theorem reads_singleton : Reads s [cur] t ↔ s.feed cur = .ok t := by
  simp [reads_cons, reads_nil]

theorem Reads.unique (h : Reads s ops t) (h' : Reads s ops u) : t = u :=
  Except.ok.inj (h.symm.trans h')

theorem optimize_eq_ok_iff : optimize ops = .ok ops' ↔ ∃ t, Reads {} ops t ∧ t.toList = ops' := by
  unfold optimize Reads
  cases ops.foldlM feed {} with
  | error f => simp [Functor.map, Except.map]
  | ok t => simp [Functor.map, Except.map]

/-- Every number that the pass adds up in the operations of some commands is there. -/
theorem exists_reads_commands (cmds : List Command) :
    ∃ t, Reads {} (cmds.map Op.ofCommand) t ∧ optimized cmds = .ok t.toList := by
  have hnum : ∀ op ∈ cmds.map Op.ofCommand, op.HasNumber := by
    intro op hop
    obtain ⟨c, -, rfl⟩ := List.mem_map.mp hop
    exact Op.hasNumber_ofCommand c
  obtain ⟨ops, h⟩ := exists_optimize_of_numbers hnum
  obtain ⟨t, ht, rfl⟩ := optimize_eq_ok_iff.mp h
  exact ⟨t, ht, by rw [optimized_eq, h]⟩

theorem optimized_of_reads {cmds : List Command} (h : Reads {} (cmds.map Op.ofCommand) t) :
    optimized cmds = .ok t.toList := by
  rw [optimized_eq, optimize_eq_ok_iff]
  exact ⟨t, h, rfl⟩

end Pass
end TapeMachine
