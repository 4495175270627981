import TapeMachine.Proofs.Machine.Ends

/-!
# Transparency of compilation

A run of a source that stays on the tape is not changed by compilation. A run of a program ends as
its source does, except that the source may have failed off the tape before.
-/
namespace TapeMachine

/-- The kind of an end: normal, or the class of the fault. -/
def Ending.kind (e : Ending) : Option FaultClass := e.fault?.map Fault.faultClass

theorem Account.Concur.kind_and_channel {e e' : Ending} {s : Compiled.State} {t : Direct.State}
    (h : Account.Concur e s e' t) : e'.kind = e.kind ∧ t.store.channel = s.store.channel := by
  cases h with
  | halted store => exact ⟨rfl, by rw [store]⟩
  | noInput _ _ store => exact ⟨rfl, by rw [store]⟩
  | offTape _ _ channel => exact ⟨rfl, channel.symm⟩

variable {source : List Symbol} {size : TapeSize} {input : List Char} {e : Ending}

/-- Both translations of a source that runs as it is. -/
theorem Direct.Ends.exists_runs {t : Direct.State} (h : Direct.Ends source size input e t) :
    ∃ code loops, compile (parsed source) = .ok code ∧
      LoopTable.ofSource (parsed source) = .ok loops ∧ (account source).Runs code loops ∧
      EndsIn (step (account source).symbols loops) (.initial size.val (.ofInput input)) e t := by
  obtain ⟨loops, limit, ht, hrun⟩ := h
  obtain ⟨code, hc⟩ := exists_compile_parsed_iff.mpr (exists_ofSource_parsed_iff.mp ⟨loops, ht⟩)
  refine ⟨code, loops, hc, ht, account_runs hc ht, limit, ?_⟩
  rw [symbols_account]
  exact hrun

/-- Both translations of a source whose program runs. -/
theorem Compiled.Ends.exists_runs {s : Compiled.State} (h : Compiled.Ends source size input e s) :
    ∃ code loops, LoopTable.ofSource (parsed source) = .ok loops ∧
      (account source).Runs code loops ∧
      EndsIn (step code) (.initial size.val (.ofInput input)) e s := by
  obtain ⟨code, limit, hc, hrun⟩ := h
  obtain ⟨loops, ht⟩ := exists_ofSource_parsed_iff.mpr (exists_compile_parsed_iff.mp ⟨code, hc⟩)
  exact ⟨code, loops, ht, account_runs hc ht, limit, hrun⟩

/-- An end of a source that the tolerant run shares is an end of the program. -/
theorem Account.Runs.compiled_ends {code : Array Op} {loops : LoopTable} {t : Direct.State}
    (h : (account source).Runs code loops) (hc : compile (parsed source) = .ok code)
    (run : EndsIn ((account source).tolerant loops) (.initial size.val (.ofInput input)) e t) :
    ∃ e' s, Compiled.Ends source size input e' s ∧ Concur e' s e t := by
  obtain ⟨e', s, ⟨limit, ends⟩, concur⟩ := h.compiled_endsIn run
  exact ⟨e', s, ⟨code, limit, hc, ends⟩, concur⟩

/-- An end that is not due to the tape is shared by the program. -/
theorem Direct.Ends.exists_compiled {t : Direct.State} (h : Direct.Ends source size input e t)
    (he : ∀ pos size, e ≠ .failed (.offTape pos size)) :
    ∃ e' s, Compiled.Ends source size input e' s ∧ Account.Concur e' s e t := by
  obtain ⟨code, loops, hc, -, hruns, hends⟩ := h.exists_runs
  rcases endsIn_tolerant (account source).marksAdditions hends with hends | ⟨-, -, hoff⟩
  · exact hruns.compiled_ends hc hends
  · exact absurd hoff (he _ _)

/-- If a source halts or lacks input, so does its program. A program that halts leaves the same
tape, pointer, output and unread input as its source. -/
theorem compiled_ends_of_direct_ends (source : List Symbol) (size : TapeSize)
    (input : List Char) :
    (∀ t, Direct.Ends source size input .halted t →
      ∃ s, Compiled.Ends source size input .halted s ∧ s.store = t.store) ∧
    ∀ i t, Direct.Ends source size input (.failed (.noInput i)) t →
      ∃ j s, Compiled.Ends source size input (.failed (.noInput j)) s ∧
        s.store.channel.output = t.store.channel.output ∧
        s.store.channel.unread = t.store.channel.unread := by
  constructor
  · intro t h
    obtain ⟨e', s, ends, concur⟩ := h.exists_compiled (by simp)
    cases concur with
    | halted store => exact ⟨s, ends, store⟩
  · intro i t h
    obtain ⟨e', s, ends, concur⟩ := h.exists_compiled (by simp)
    cases concur with
    | noInput j _ store => exact ⟨j, s, ends, by rw [store], by rw [store]⟩

/-- A byte is carried to the next cell and printed; then a second character is missing. -/
theorem compiled_ends_carry :
    (∃ s, Compiled.Ends (symbols ",[->+<]>.") ⟨2, by decide⟩ ['\x02'] .halted s ∧
      s.store = ⟨2, #[some 0, some 2], 1, .buffer [] #["\x02"]⟩) ∧
    ∃ j s, Compiled.Ends (symbols ",.,") ⟨1, by decide⟩ ['a'] (.failed (.noInput j)) s ∧
      s.store.channel.output = "a" ∧ s.store.channel.unread = [] := by
  constructor
  · exact (compiled_ends_of_direct_ends _ _ _).1 ⟨9, ⟨2, #[some 0, some 2], 1, _⟩⟩
      ⟨⟨#[none, some 6, none, none, none, none, some 1, none, none]⟩, 30, by decide +kernel,
        by decide +kernel⟩
  · exact (compiled_ends_of_direct_ends _ _ _).2 2 ⟨2, ⟨1, #[some 97], 0, .buffer [] #["a"]⟩⟩
      ⟨⟨#[none, none, none]⟩, 10, by decide +kernel, by decide +kernel⟩

/-- Whenever a program comes to an end, its source does: in the same way, or off the tape with no
more output than the program and no more input read. -/
theorem direct_ends_of_compiled_ends {s : Compiled.State}
    (h : Compiled.Ends source size input e s) :
    ∃ e' t, Direct.Ends source size input e' t ∧
      (e'.kind = e.kind ∧ t.store.channel.output = s.store.channel.output ∧
          t.store.channel.unread = s.store.channel.unread ∨
        e'.kind = some .tapeRange ∧
          t.store.channel.output.toList <+: s.store.channel.output.toList ∧
          s.store.channel.unread <:+ t.store.channel.unread) ∧
      (e.kind = some .tapeRange → e'.kind = some .tapeRange) := by
  obtain ⟨code, loops, ht, hruns, hends⟩ := h.exists_runs
  obtain ⟨e', d, hd, concur⟩ := hruns.tolerant_endsIn hends
  obtain ⟨hkind, hch⟩ := concur.kind_and_channel
  rcases Direct.endsIn_of_tolerant (account source).marksAdditions hd with hd' | ⟨u, reach, hu⟩
  · obtain ⟨limit, hrun⟩ := hd'
    rw [symbols_account] at hrun
    refine ⟨e', d, ⟨loops, limit, ht, hrun⟩, .inl ⟨hkind, by rw [hch], by rw [hch]⟩, fun h => ?_⟩
    rw [hkind, h]
  · obtain ⟨limit, hrun⟩ := hu
    rw [symbols_account] at hrun
    obtain ⟨hout, hin⟩ := Direct.extends_of_endsIn (hd.rest reach)
    rw [hch] at hout hin
    exact ⟨_, u, ⟨loops, limit, ht, hrun⟩, .inr ⟨rfl, hout, hin⟩, fun _ => rfl⟩

/-- The program of `+>-<.>>` moves off the tape at its end, and so does its source. -/
theorem direct_ends_off_tape :
    ∃ e t, Direct.Ends (symbols "+>-<.>>") ⟨2, by decide⟩ [] e t ∧ e.kind = some .tapeRange := by
  have hends : Compiled.Ends (symbols "+>-<.>>") ⟨2, by decide⟩ [] (.failed (.offTape 2 2))
      ⟨5, ⟨2, #[some 1, some (-1)], 2, .buffer [] #["\x01"]⟩⟩ :=
    ⟨#[⟨.add, some 1⟩, ⟨.move, some 1⟩, ⟨.add, some (-1)⟩, ⟨.move, some (-1)⟩, ⟨.print, none⟩,
      ⟨.move, some 2⟩, ⟨.stop, none⟩], 10, by decide +kernel, by decide +kernel⟩
  obtain ⟨e, t, ends, -, hoff⟩ := direct_ends_of_compiled_ends hends
  exact ⟨e, t, ends, hoff rfl⟩

end TapeMachine
