import TapeMachine.Proofs.Transparency

/-!
# Faults off the tape

A source fails at the first symbol that wants a cell off the tape. Its program checks only moves,
and may have merged the moves around an addition that came to nothing; then it passes over the
place. So it is told exactly when a program fails off the tape as its source does: when the source
fails elsewhere than at such an addition, or would fail again, behind it, with nothing written or
read meanwhile. At any other command, and behind the last one, the two fail at the same position.
-/
namespace TapeMachine

variable {source : List Symbol} {size : TapeSize} {input : List Char} {pos n : ℤ}

namespace Direct

/-- With the pointer as it is, the tolerant run goes on behind the symbol at hand and ends in this
way. -/
def ResumedEnds (source : List Symbol) (s : State) (e : Ending) (t : State) : Prop :=
  ∃ loops, LoopTable.ofSource (parsed source) = .ok loops ∧
    EndsIn ((account source).tolerant loops) ⟨s.pc + 1, s.store⟩ e t

end Direct

/-- A source that fails off the tape makes its program do the same, with the same output and the
same input unread, exactly if it fails at a place that the program checks, or would fail again when
resumed behind it, with nothing written or read meanwhile. -/
theorem compiled_offTape_iff {t : Direct.State}
    (h : Direct.Ends source size input (.failed (.offTape pos n)) t) :
    (∃ pos' n' s, Compiled.Ends source size input (.failed (.offTape pos' n')) s ∧
      s.store.channel.output = t.store.channel.output ∧
      s.store.channel.unread = t.store.channel.unread) ↔
    (account source).overlooks t.pc = false ∨
      ∃ pos' n' u, Direct.ResumedEnds source t (.failed (.offTape pos' n')) u ∧
        u.store.channel.output = t.store.channel.output ∧
        u.store.channel.unread = t.store.channel.unread := by
  obtain ⟨code, loops, hc, ht, hruns, hends⟩ := h.exists_runs
  obtain ⟨u, reach, last⟩ := hends.exists_last
  obtain rfl := Direct.eq_of_step_done last
  have hr := Direct.not_inRange_of_step last
  have reach := Direct.reaches_tolerant (account source).marksAdditions reach
  cases hmark : (account source).overlooks t.pc with
  | false =>
    have hstep : (account source).tolerant loops t = .done (.failed (.offTape pos n)) t := by
      rw [← last]
      simp [Account.tolerant, Direct.tolerantStep, hmark]
    obtain ⟨e, s, ends, concur⟩ := hruns.compiled_ends hc ((EndsIn.of_done hstep).of_reaches reach)
    cases concur with
    | offTape _ _ channel => simpa using ⟨_, _, s, ends, by rw [channel], by rw [channel]⟩
  | true =>
    have hlead : Leads ((account source).tolerant loops) t ⟨t.pc + 1, t.store⟩ := by
      simp [Leads, Account.tolerant, Direct.tolerantStep, hmark, hr, Direct.State.advance]
    simp only [Bool.true_eq_false, false_or]
    constructor
    · rintro ⟨pos', n', s, ⟨code', limit, hc', hs⟩, hout, hin⟩
      obtain rfl := Except.ok.inj (hc.symm.trans hc')
      obtain ⟨e, v, hv, concur⟩ := hruns.tolerant_endsIn ⟨limit, hs⟩
      cases concur with
      | offTape _ _ channel =>
        exact ⟨_, _, v, ⟨loops, ht, hv.rest (reach.tail hlead)⟩, by rw [← channel, hout],
          by rw [← channel, hin]⟩
    · rintro ⟨pos', n', v, ⟨loops', ht', hv⟩, hout, hin⟩
      obtain rfl := Except.ok.inj (ht.symm.trans ht')
      obtain ⟨e, s, ends, concur⟩ := hruns.compiled_ends hc ((hv.of_next hlead).of_reaches reach)
      cases concur with
      | offTape _ _ channel =>
        exact ⟨_, _, s, ends, by rw [channel, hout], by rw [channel, hin]⟩

/-- The source `.<+` fails at a place that its program checks. -/
theorem compiled_offTape_left :
    ∃ pos n s, Compiled.Ends (symbols ".<+") ⟨1, by decide⟩ [] (.failed (.offTape pos n)) s ∧
      s.store.channel.output = "\x00" ∧ s.store.channel.unread = [] := by
  have hends : Direct.Ends (symbols ".<+") ⟨1, by decide⟩ [] (.failed (.offTape (-1) 1))
      ⟨2, ⟨1, #[some 0], -1, .buffer [] #["\x00"]⟩⟩ :=
    ⟨⟨#[none, none, none]⟩, 10, by decide, by decide⟩
  exact (compiled_offTape_iff hends).mpr (.inl (by decide))

/-- In `<+->` the additions cancel, and the moves with them: the source fails, but its program
halts at once. -/
theorem compiled_halts_of_cancelled :
    Direct.Ends (symbols "<+->") ⟨1, by decide⟩ [] (.failed (.offTape (-1) 1))
        ⟨1, ⟨1, #[some 0], -1, .ofInput []⟩⟩ ∧
      ¬ ∃ pos n s,
        Compiled.Ends (symbols "<+->") ⟨1, by decide⟩ [] (.failed (.offTape pos n)) s := by
  refine ⟨⟨⟨#[none, none, none, none]⟩, 10, by decide, by decide⟩, ?_⟩
  rintro ⟨pos, n, s, ends⟩
  have halts : Compiled.Ends (symbols "<+->") ⟨1, by decide⟩ [] .halted
      ⟨0, ⟨1, #[some 0], 0, .ofInput []⟩⟩ :=
    ⟨#[⟨.stop, none⟩], 10, by decide, by decide⟩
  cases (ends.unique halts).1

section Checked

/-- Only additions are overlooked. -/
theorem overlooks_eq_false {k : ℕ}
    (h : ∀ c, (commands source)[k]? = some c → c.isAddition = false) :
    (account source).overlooks k = false := by
  by_contra hmark
  obtain ⟨c, hc, hget⟩ := (account source).marksAdditions k (by simpa using hmark)
  have hcommand : (commands source)[k]? = some c := by
    simpa [symbols_account, parsed] using hget
  rw [h c hcommand] at hc
  cases hc

/-- An end at a place that the program checks is shared by the program. -/
theorem Direct.Ends.exists_compiled_of_checked {e : Ending} {t : Direct.State}
    (h : Direct.Ends source size input e t) (hmark : (account source).overlooks t.pc = false) :
    ∃ e' s, Compiled.Ends source size input e' s ∧ Account.Concur e' s e t := by
  obtain ⟨code, loops, hc, -, hruns, hends⟩ := h.exists_runs
  rcases endsIn_tolerant (account source).marksAdditions hends with hends | ⟨hskip, -, -⟩
  · exact hruns.compiled_ends hc hends
  · rw [hmark] at hskip
    cases hskip

/-- A source that fails off the tape at an output, an input or a bracket, or behind its last
command, has a program that fails off the tape at the same position, with the same output and the
same input unread. -/
theorem compiled_offTape_of_checked {t : Direct.State}
    (h : Direct.Ends source size input (.failed (.offTape pos size.val)) t)
    (place : (commands source)[t.pc]? ∈
      [some .output, some .input, some .loopStart, some .loopEnd, none]) :
    ∃ s, Compiled.Ends source size input (.failed (.offTape pos size.val)) s ∧
      s.store.channel.output = t.store.channel.output ∧
      s.store.channel.unread = t.store.channel.unread := by
  have hmark : (account source).overlooks t.pc = false := by
    apply overlooks_eq_false
    intro c hc
    rw [hc] at place
    cases c <;> simp_all [Command.isAddition]
  obtain ⟨e, s, ends, concur⟩ := h.exists_compiled_of_checked hmark
  cases concur with
  | offTape _ _ channel => exact ⟨s, ends, by rw [channel], by rw [channel]⟩

/-- The loop of `+>+<[>]` is one `seek`, and it leaves the tape at the place where the closing
bracket finds the pointer. -/
theorem compiled_offTape_seek :
    ∃ s, Compiled.Ends (symbols "+>+<[>]") ⟨2, by decide⟩ [] (.failed (.offTape 2 2)) s ∧
      s.store.channel.output = "" ∧ s.store.channel.unread = [] :=
  compiled_offTape_of_checked (t := ⟨6, ⟨2, #[some 1, some 1], 2, .ofInput []⟩⟩)
    ⟨⟨#[none, none, none, none, some 6, none, some 4]⟩, 12, by decide, by decide⟩
    (by decide)

end Checked
end TapeMachine
