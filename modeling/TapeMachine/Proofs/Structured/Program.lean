import TapeMachine.Proofs.Brackets.Pairing

/-!
# Nested programs

A list of commands with balanced brackets is a program in which each loop has a body of its own.
Every such list comes from exactly one nested program.
-/
namespace TapeMachine

open Brackets

theorem Command.bracket?_eq_opening_iff {c : Command} :
    c.bracket? = some .opening ↔ c = .loopStart := by
  cases c <;> simp [bracket?]

theorem Command.bracket?_eq_closing_iff {c : Command} :
    c.bracket? = some .closing ↔ c = .loopEnd := by
  cases c <;> simp [bracket?]

/-- The commands that are no brackets. -/
inductive Action
  | left
  | right
  | increment
  | decrement
  | output
  | input
  deriving DecidableEq, Repr

namespace Action

def command : Action → Command
  | left => .left
  | right => .right
  | increment => .increment
  | decrement => .decrement
  | output => .output
  | input => .input

theorem bracket?_command (a : Action) : a.command.bracket? = none := by
  cases a <;> rfl

theorem command_injective {a b : Action} (h : a.command = b.command) : a = b := by
  revert h
  cases a <;> cases b <;> decide

theorem exists_command {c : Command} (h : c.bracket? = none) : ∃ a : Action, a.command = c := by
  cases c with
  | left => exact ⟨left, rfl⟩
  | right => exact ⟨right, rfl⟩
  | increment => exact ⟨increment, rfl⟩
  | decrement => exact ⟨decrement, rfl⟩
  | output => exact ⟨output, rfl⟩
  | input => exact ⟨input, rfl⟩
  | loopStart => cases h
  | loopEnd => cases h

end Action

/-- A sequence of actions and loops. -/
inductive Program
  | done
  | act (a : Action) (rest : Program)
  | loop (body rest : Program)
  deriving DecidableEq, Repr

namespace Program

/-- The commands of a program, each loop between its brackets. -/
def commands : Program → List Command
  | done => []
  | act a rest => a.command :: rest.commands
  | loop body rest => .loopStart :: (body.commands ++ .loopEnd :: rest.commands)

theorem length_commands_act (a : Action) (p : Program) :
    (act a p).commands.length = 1 + p.commands.length := by
  rw [commands, List.length_cons, Nat.add_comm]

theorem length_commands_loop (b p : Program) :
    (loop b p).commands.length = b.commands.length + 2 + p.commands.length := by
  simp only [commands, List.length_cons, List.length_append]
  omega

def brackets (p : Program) : List (Option Bracket) := p.commands.map Command.bracket?

theorem brackets_loop (b p : Program) :
    (loop b p).brackets = (some .opening :: (b.brackets ++ [some .closing])) ++ p.brackets := by
  simp [brackets, commands, Command.bracket?]

theorem balanced_brackets (p : Program) : Balanced p.brackets := by
  induction p with
  | done => exact .nil
  | act a p ih =>
    have hstart : Balanced [a.command.bracket?] := .of_forall_none (by simp [a.bracket?_command])
    exact hstart.append ih
  | loop b p hb hp =>
    rw [brackets_loop]
    exact hb.loop.append hp

/-- A list of commands belongs to one program at most. -/
theorem commands_injective {p q : Program} (h : p.commands = q.commands) : p = q := by
  induction p generalizing q with
  | done =>
    cases q with
    | done => rfl
    | act | loop => cases h
  | act a p ih =>
    cases q with
    | done => cases h
    | act b q =>
      obtain ⟨hhead, htail⟩ := List.cons.inj h
      rw [Action.command_injective hhead, ih htail]
    | loop b q => cases a <;> cases h
  | loop b p hb hp =>
    cases q with
    | done => cases h
    | act a q => cases a <;> cases h
    | loop b' q =>
      have htail : b.commands ++ .loopEnd :: p.commands = b'.commands ++ .loopEnd :: q.commands :=
        (List.cons.inj h).2
      -- Both bodies are balanced, so neither can end before the other.
      have hmap := congrArg (List.map Command.bracket?) htail
      rw [List.map_append, List.map_append] at hmap
      have hle := b.balanced_brackets.length_le b'.balanced_brackets hmap
      have hge := b'.balanced_brackets.length_le b.balanced_brackets hmap.symm
      have hlen : b.commands.length = b'.commands.length := by
        simpa [brackets] using le_antisymm hge hle
      obtain ⟨hbody, hrest⟩ := List.append_inj htail hlen
      rw [hb hbody, hp (List.cons.inj hrest).2]

end Program

theorem Brackets.Balanced.of_append {a b : List (Option Bracket)} (h : Balanced (a ++ b))
    (ha : Balanced a) : Balanced b := by
  have hnested := (covers_append.mp h.nested).2
  have hclosed := h.closed
  rw [ha.closed, add_zero] at hnested
  rw [depth_append, ha.closed, zero_add] at hclosed
  exact ⟨hnested, hclosed⟩

/-- In a balanced list the first opening bracket has a partner. -/
theorem Brackets.Balanced.exists_loop {cmds : List Command}
    (h : Balanced ((Command.loopStart :: cmds).map Command.bracket?)) :
    ∃ body rest, cmds = body ++ .loopEnd :: rest ∧ Balanced (body.map Command.bracket?) ∧
      Balanced (rest.map Command.bracket?) := by
  obtain ⟨j, a, b, c, heq, ha, -, hb⟩ := exists_paired_of_opening (i := 0) h rfl
  obtain rfl := List.length_eq_zero_iff.mp ha
  rw [List.map_cons, List.nil_append] at heq
  obtain ⟨-, heq⟩ := List.cons.inj heq
  obtain ⟨body, rest', rfl, rfl, hrest⟩ := List.map_eq_append_iff.mp heq
  obtain ⟨d, rest, rfl, hd, rfl⟩ := List.map_eq_cons_iff.mp hrest
  obtain rfl := Command.bracket?_eq_closing_iff.mp hd
  refine ⟨body, rest, rfl, hb, ?_⟩
  have hsplit : (Command.loopStart :: (body ++ .loopEnd :: rest)).map Command.bracket? =
      (some .opening :: (body.map Command.bracket? ++ [some .closing])) ++
        rest.map Command.bracket? := by
    simp [Command.bracket?]
  exact (hsplit ▸ h).of_append hb.loop

/-- The lists with balanced brackets are the lists of programs. -/
theorem Program.exists_of_balanced {cmds : List Command}
    (h : Balanced (cmds.map Command.bracket?)) : ∃ p : Program, p.commands = cmds := by
  induction hn : cmds.length using Nat.strong_induction_on generalizing cmds with
  | _ n ih =>
    subst hn
    cases cmds with
    | nil => exact ⟨done, rfl⟩
    | cons c cmds =>
      match hc : c.bracket? with
      | none =>
        obtain ⟨a, rfl⟩ := Action.exists_command hc
        have hstart : Balanced [a.command.bracket?] :=
          .of_forall_none (by simp [a.bracket?_command])
        obtain ⟨p, rfl⟩ := ih cmds.length (by simp) (h.of_append hstart) rfl
        exact ⟨act a p, rfl⟩
      | some .opening =>
        obtain rfl := Command.bracket?_eq_opening_iff.mp hc
        obtain ⟨body, rest, rfl, hbody, hrest⟩ := h.exists_loop
        have hlen : (body ++ .loopEnd :: rest).length = body.length + (rest.length + 1) := by simp
        obtain ⟨b, rfl⟩ := ih body.length (by rw [List.length_cons]; omega) hbody rfl
        obtain ⟨p, rfl⟩ := ih rest.length (by rw [List.length_cons]; omega) hrest rfl
        exact ⟨loop b p, rfl⟩
      | some .closing =>
        have := h.nested [some .closing] (by simp [hc])
        simp at this

end TapeMachine
