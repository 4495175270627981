import TapeMachine.Machine.Compiled
import TapeMachine.Machine.Direct
import TapeMachine.Proofs.Run.Stream

/-!
# What the machines ask of their channels

Both machines, on any program and any source, see their channel as a stream: only `print` writes
to it, only `read` takes from it, and of all the rest the tape and the pointer decide.
-/
namespace TapeMachine

open HoldsChannel

namespace Compiled

instance : HoldsChannel State where
  channel s := s.store.channel
  withChannel s a := ⟨s.ip, { s.store with channel := a }⟩
  channel_withChannel _ _ := rfl
  withChannel_channel _ := rfl
  withChannel_withChannel _ _ _ := rfl

theorem cell?_withChannel (s : State) (a : Channel) :
    (withChannel s a).store.cell? = s.store.cell? := rfl

theorem move_withChannel (s : State) (ip n : ℤ) (a : Channel) :
    (withChannel s a).move ip n = (s.move ip n).withChannel a := by
  have hiff : ((withChannel s a).store.shift n).InRange ↔ (s.store.shift n).InRange := Iff.rfl
  by_cases hr : (s.store.shift n).InRange
  · simp only [State.move, hiff, if_pos hr]
    rfl
  · simp only [State.move, hiff, if_neg hr]
    rfl

theorem jump_withChannel (s : State) (target : Option ℤ) (a : Channel) :
    (withChannel s a).jump target = (s.jump target).withChannel a := by
  cases target <;> rfl

/-- The operations other than `print` and `read` do not touch the channel. -/
theorem exec_withChannel {op : Op} (print_ne : op.tag ≠ .print) (read_ne : op.tag ≠ .read)
    (s : State) (a : Channel) : (withChannel s a).exec op = (s.exec op).withChannel a := by
  have hcell := cell?_withChannel s a
  obtain ⟨tag, arg⟩ := op
  cases tag with
  | move =>
    cases arg with
    | none => rfl
    | some n => exact move_withChannel s _ n a
  | add =>
    simp only [State.exec, hcell]
    rcases s.store.cell? with _ | _ | v
    · rfl
    · cases arg <;> rfl
    · cases arg <;> rfl
  | openLoop =>
    simp only [State.exec, hcell]
    cases s.store.cell? with
    | none => rfl
    | some c =>
      dsimp only
      split_ifs
      · exact jump_withChannel s arg a
      · rfl
  | closeLoop =>
    simp only [State.exec, hcell]
    cases s.store.cell? with
    | none => rfl
    | some c =>
      dsimp only
      split_ifs
      · rfl
      · exact jump_withChannel s arg a
  | set =>
    simp only [State.exec, hcell]
    cases s.store.cell? <;> rfl
  | seek =>
    simp only [State.exec, hcell]
    split
    · rfl
    · rfl
    · exact move_withChannel s _ _ a
    · rfl
  | print => exact absurd rfl print_ne
  | read => exact absurd rfl read_ne
  | stop => rfl
  | other name => rfl

theorem exists_demand_print (s : State) (arg : Option ℤ) :
    ∃ d : Demand State, ∀ a, (withChannel s a).exec ⟨.print, arg⟩ = d.serve a := by
  have hcell := cell?_withChannel s
  rcases hc : s.store.cell? with _ | _ | v
  · exact ⟨.quiet (s.fail .noSuchCell), fun a => by simp only [State.exec, hcell, hc]; rfl⟩
  · exact ⟨.quiet (s.fail .notANumber), fun a => by simp only [State.exec, hcell, hc]; rfl⟩
  · exact ⟨.write (byteChar v) ⟨s.ip + 1, s.store⟩, fun a => by
      simp only [State.exec, hcell, hc]; rfl⟩

theorem exists_demand_read (s : State) (arg : Option ℤ) :
    ∃ d : Demand State, ∀ a, (withChannel s a).exec ⟨.read, arg⟩ = d.serve a := by
  cases hc : s.store.cell? with
  | none =>
    refine ⟨.read s.ip s fun _ => s.fail .noSuchCell, fun a => ?_⟩
    have hread : (withChannel s a).store.channel = a := rfl
    have hcell (b : Channel) : Store.cell? { (withChannel s a).store with channel := b } = none := hc
    simp only [State.exec, Demand.serve, hread]
    cases a.read with
    | none => rfl
    | some p => simp only [hcell]; rfl
  | some c =>
    refine ⟨.read s.ip s fun v => s.advance (s.store.put (some v)), fun a => ?_⟩
    have hread : (withChannel s a).store.channel = a := rfl
    have hcell (b : Channel) : Store.cell? { (withChannel s a).store with channel := b } = some c := hc
    simp only [State.exec, Demand.serve, hread]
    cases a.read with
    | none => rfl
    | some p => simp only [hcell]; rfl

theorem seesStream (code : Array Op) : SeesStream (step code) := by
  intro s
  cases hop : fetch code s.ip with
  | none =>
    refine ⟨.quiet (s.fail .noSuchOp), fun a => ?_⟩
    have hop' : fetch code (withChannel s a).ip = none := hop
    simp only [step, hop']
    rfl
  | some op =>
    have hstep (a : Channel) : step code (withChannel s a) = (withChannel s a).exec op := by
      have hop' : fetch code (withChannel s a).ip = some op := hop
      simp only [step, hop']
    simp only [hstep]
    obtain ⟨tag, arg⟩ := op
    by_cases hprint : tag = .print
    · subst hprint
      exact exists_demand_print s arg
    by_cases hread : tag = .read
    · subst hread
      exact exists_demand_read s arg
    exact ⟨.quiet (s.exec ⟨tag, arg⟩), exec_withChannel hprint hread s⟩

end Compiled

namespace Direct

instance : HoldsChannel State where
  channel s := s.store.channel
  withChannel s a := ⟨s.pc, { s.store with channel := a }⟩
  channel_withChannel _ _ := rfl
  withChannel_channel _ := rfl
  withChannel_withChannel _ _ _ := rfl

theorem jump_withChannel (s : State) (loops : LoopTable) (a : Channel) :
    (withChannel s a).jump loops = (s.jump loops).withChannel a := by
  have hpc : (withChannel s a).pc = s.pc := rfl
  simp only [State.jump, hpc]
  cases loops.partner? s.pc <;> rfl

theorem add_withChannel (s : State) (n : ℤ) (a : Channel) :
    (withChannel s a).add n = (s.add n).withChannel a := by
  have hcell : (withChannel s a).store.cell? = s.store.cell? := rfl
  simp only [State.add, hcell]
  rcases s.store.cell? with _ | _ | v <;> rfl

theorem exists_demand_exec (s : State) (loops : LoopTable) (x : Symbol) :
    ∃ d : Demand State, ∀ a, (withChannel s a).exec loops x = d.serve a := by
  have hcell (a : Channel) : (withChannel s a).store.cell? = s.store.cell? := rfl
  cases x with
  | remark text => exact ⟨.quiet (s.advance s.store), fun _ => rfl⟩
  | command c =>
    cases c with
    | left | right => exact ⟨.quiet (s.advance s.store), fun _ => rfl⟩
    | increment => exact ⟨.quiet (s.add 1), add_withChannel s 1⟩
    | decrement => exact ⟨.quiet (s.add (-1)), add_withChannel s (-1)⟩
    | output =>
      rcases hc : s.store.cell? with _ | _ | v
      · exact ⟨.quiet (s.fail .noSuchCell), fun a => by simp only [State.exec, hcell, hc]; rfl⟩
      · exact ⟨.quiet (s.fail .notANumber), fun a => by simp only [State.exec, hcell, hc]; rfl⟩
      · exact ⟨.write (byteChar v) ⟨s.pc + 1, s.store⟩, fun a => by
          simp only [State.exec, hcell, hc]; rfl⟩
    | input =>
      refine ⟨.read s.pc s fun v => s.advance (s.store.put (some v)), fun a => ?_⟩
      have hread : (withChannel s a).store.channel = a := rfl
      simp only [State.exec, Demand.serve, hread]
      cases a.read <;> rfl
    | loopStart =>
      refine ⟨.quiet (s.exec loops (.command .loopStart)), fun a => ?_⟩
      simp only [State.exec, hcell, Demand.serve]
      cases s.store.cell? with
      | none => rfl
      | some c =>
        dsimp only
        split_ifs
        · exact jump_withChannel s loops a
        · rfl
    | loopEnd =>
      refine ⟨.quiet (s.exec loops (.command .loopEnd)), fun a => ?_⟩
      simp only [State.exec, hcell, Demand.serve]
      cases s.store.cell? with
      | none => rfl
      | some c =>
        dsimp only
        split_ifs
        · rfl
        · exact jump_withChannel s loops a

theorem seesStream (code : Array Symbol) (loops : LoopTable) : SeesStream (step code loops) := by
  intro s
  have hpc (a : Channel) : (withChannel s a).pc = s.pc := rfl
  have hrange (a : Channel) : (withChannel s a).store.InRange ↔ s.store.InRange := Iff.rfl
  simp only [step, hpc, hrange]
  split
  · exact ⟨.quiet (s.advance (s.store.shift 1)), fun _ => rfl⟩
  · exact ⟨.quiet (s.advance (s.store.shift (-1))), fun _ => rfl⟩
  · by_cases hr : s.store.InRange
    · simp only [if_pos hr]
      exact exists_demand_exec s loops _
    · simp only [if_neg hr]
      exact ⟨.quiet (s.fail s.store.offTape), fun _ => rfl⟩
  · by_cases hr : s.store.InRange
    · simp only [if_pos hr]
      exact ⟨.quiet (.done .halted s), fun _ => rfl⟩
    · simp only [if_neg hr]
      exact ⟨.quiet (s.fail s.store.offTape), fun _ => rfl⟩

end Direct
end TapeMachine
