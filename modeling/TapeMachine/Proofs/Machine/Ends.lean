import TapeMachine.Proofs.Machine.Agreement
import TapeMachine.Proofs.Machine.Effects
import TapeMachine.Size

/-!
# Ends of runs

A source, its remarks left out, is run as it is and as a program, on a tape of some size and with
some input. The run of the program comes to an end if and only if the tolerant run of the source
does, and the two ends concur.
-/
namespace TapeMachine

open Word Brackets

/-- A source without its remarks. -/
def parsed (source : List Symbol) : List Symbol := (commands source).map Symbol.command

/-- The pieces that a source is compiled to. -/
def account (source : List Symbol) : Account := Account.ofCommands (commands source)

/-- The run of a source as it is ends in this way. -/
def Direct.Ends (source : List Symbol) (size : TapeSize) (input : List Char) (e : Ending)
    (t : State) : Prop :=
  ∃ loops limit, LoopTable.ofSource (parsed source) = .ok loops ∧
    run limit (parsed source).toArray loops size.val (.ofInput input) = some (e, t)

/-- The run of the program of a source ends in this way. -/
def Compiled.Ends (source : List Symbol) (size : TapeSize) (input : List Char) (e : Ending)
    (t : State) : Prop :=
  ∃ code limit, compile (parsed source) = .ok code ∧
    run limit code size.val (.ofInput input) = some (e, t)

/-- A program's run has one end. -/
theorem Compiled.Ends.unique {source : List Symbol} {size : TapeSize} {input : List Char}
    {e e' : Ending} {s s' : State} (h : Ends source size input e s)
    (h' : Ends source size input e' s') : e = e' ∧ s = s' := by
  obtain ⟨code, limit, hc, hrun⟩ := h
  obtain ⟨code', limit', hc', hrun'⟩ := h'
  obtain rfl := Except.ok.inj (hc.symm.trans hc')
  exact EndsIn.unique ⟨limit, hrun⟩ ⟨limit', hrun'⟩

section Translation

variable {source : List Symbol} {code : Array Op} {loops : LoopTable}

@[simp] theorem commands_parsed (source : List Symbol) :
    commands (parsed source) = commands source :=
  commands_map_command _

theorem words_account (source : List Symbol) : (account source).words = commands source :=
  Account.words_ofCommands _

theorem symbols_account (source : List Symbol) :
    (account source).symbols = (parsed source).toArray := by
  rw [Account.symbols, words_account, parsed]

theorem map_bracket?_parsed (source : List Symbol) :
    (parsed source).map Symbol.bracket? = (commands source).map Command.bracket? :=
  map_bracket?_command _

theorem account_runs (hc : compile (parsed source) = .ok code)
    (ht : LoopTable.ofSource (parsed source) = .ok loops) : (account source).Runs code loops := by
  refine ⟨Account.sound_ofCommands _, ?_, ?_⟩
  · rw [compile_eq_ok_iff, commands_parsed] at hc
    exact hc
  · rw [words_account]
    exact ht

/-- Both translations take the balanced sources. -/
theorem exists_compile_parsed_iff :
    (∃ code, compile (parsed source) = .ok code) ↔
      Balanced ((commands source).map Command.bracket?) := by
  rw [exists_compile_iff, commands_parsed]

theorem exists_ofSource_parsed_iff :
    (∃ loops, LoopTable.ofSource (parsed source) = .ok loops) ↔
      Balanced ((commands source).map Command.bracket?) := by
  rw [LoopTable.exists_ofSource_iff, map_bracket?_parsed]

end Translation

section Start

theorem Store.inRange_blank (size : TapeSize) (channel : Channel) :
    (Store.blank size.val channel).InRange :=
  ⟨le_rfl, Int.natCast_pos.mpr size.property⟩

variable {a : Account} {code : Array Op} {loops : LoopTable} {size : TapeSize} {channel : Channel}
  {e : Ending}

/-- What the lead of a source does is nothing. -/
theorem Account.Sound.reaches_start (h : a.Sound) :
    Reaches (a.tolerant loops) (.initial size.val channel)
      ⟨a.place [], .blank size.val channel⟩ := by
  have hglide : Reaches (a.tolerant loops) (.initial size.val channel)
      ⟨0 + a.lead.length, .blank size.val channel⟩ :=
    Direct.glide_idle h.idle (.blank size.val channel) a.lies_lead
      (Store.inRange_blank size channel)
  rwa [Nat.zero_add] at hglide

theorem Account.meets_start (a : Account) :
    a.Meets (.initial size.val channel) ⟨a.place [], .blank size.val channel⟩ :=
  .between (l := []) rfl (.blank _ _) (Store.inRange_blank size channel)

/-- The tolerant run of the source follows the program to its end. -/
theorem Account.Runs.tolerant_endsIn (h : a.Runs code loops) {s : Compiled.State}
    (run : EndsIn (Compiled.step code) (.initial size.val channel) e s) :
    ∃ e' t, EndsIn (a.tolerant loops) (.initial size.val channel) e' t ∧ Concur e s e' t := by
  obtain ⟨e', t, ends, concur⟩ := h.lockstep.endsIn a.meets_start run
  exact ⟨e', t, ends.of_reaches h.sound.reaches_start, concur⟩

/-- The program follows the tolerant run of its source to its end. -/
theorem Account.Runs.compiled_endsIn (h : a.Runs code loops) {t : Direct.State}
    (run : EndsIn (a.tolerant loops) (.initial size.val channel) e t) :
    ∃ e' s, EndsIn (Compiled.step code) (.initial size.val channel) e' s ∧ Concur e' s e t :=
  h.lockstep.endsIn_first a.meets_start (run.rest h.sound.reaches_start)

end Start
end TapeMachine
