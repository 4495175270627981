import TapeMachine.Proofs.Machine.Tolerant

/-!
# What runs of a source do to the store

A step of the machine for sources touches the store in one place at most, and its last step leaves
the store alone. So what a run has written and read is part of what it will have written and read
later on.
-/
namespace TapeMachine.Direct

variable {skip : ℕ → Bool} {code : Array Symbol} {loops : LoopTable} {s t : State} {e : Ending}

/-- What a step of the machine for sources can come to. -/
inductive Outcome (s : State) : Step State → Prop
  | next {t : State} (touch : s.store.Touch t.store) : Outcome s (.next t)
  | halted (inRange : s.store.InRange) : Outcome s (.done .halted s)
  | offTape (off : ¬ s.store.InRange) : Outcome s (.done (.failed s.store.offTape) s)
  | fail {f : Fault} (inRange : s.store.InRange) (class_ne : f.faultClass ≠ .tapeRange) :
    Outcome s (.done (.failed f) s)

theorem outcome_jump (hr : s.store.InRange) (loops : LoopTable) : Outcome s (s.jump loops) := by
  unfold State.jump
  split
  · exact .next .stay
  · exact .fail hr (by simp [Fault.faultClass])

theorem outcome_add (hr : s.store.InRange) (n : ℤ) : Outcome s (s.add n) := by
  unfold State.add
  split
  · exact .fail hr (by simp [Fault.faultClass])
  · exact .fail hr (by simp [Fault.faultClass])
  · exact .next (.put (signedByte_wrap _))

theorem outcome_exec (hr : s.store.InRange) (loops : LoopTable) (x : Symbol) :
    Outcome s (s.exec loops x) := by
  unfold State.exec
  split
  · exact outcome_add hr 1
  · exact outcome_add hr (-1)
  · split
    · exact .fail hr (by simp [Fault.faultClass])
    · exact .fail hr (by simp [Fault.faultClass])
    · exact .next (.emit _)
  · split
    · exact .fail hr (by simp [Fault.faultClass])
    · rename_i hread
      exact .next (.read hread)
  · split
    · exact .fail hr (by simp [Fault.faultClass])
    · split_ifs
      · exact outcome_jump hr loops
      · exact .next .stay
  · split
    · exact .fail hr (by simp [Fault.faultClass])
    · split_ifs
      · exact .next .stay
      · exact outcome_jump hr loops
  · exact .next .stay

theorem outcome_step (code : Array Symbol) (loops : LoopTable) (s : State) :
    Outcome s (step code loops s) := by
  unfold step
  split
  · exact .next (.shift 1)
  · exact .next (.shift (-1))
  · by_cases hr : s.store.InRange
    · rw [if_pos hr]
      exact outcome_exec hr loops _
    · rw [if_neg hr]
      exact .offTape hr
  · by_cases hr : s.store.InRange
    · rw [if_pos hr]
      exact .halted hr
    · rw [if_neg hr]
      exact .offTape hr

theorem touch_of_step (h : step code loops s = .next t) : s.store.Touch t.store := by
  have outcome := outcome_step code loops s
  rw [h] at outcome
  cases outcome with
  | next touch => exact touch

/-- The state in which a run ends is the one that its last step starts from. -/
theorem eq_of_step_done (h : step code loops s = .done e t) : t = s := by
  have outcome := outcome_step code loops s
  rw [h] at outcome
  cases outcome <;> rfl

/-- Only a pointer off the tape makes a step fail off the tape. -/
theorem not_inRange_of_step {pos size : ℤ}
    (h : step code loops s = .done (.failed (.offTape pos size)) t) : ¬ s.store.InRange := by
  have outcome := outcome_step code loops s
  rw [h] at outcome
  cases outcome with
  | offTape off => exact off
  | fail _ class_ne => exact absurd rfl class_ne

theorem touch_of_tolerantStep (h : tolerantStep skip code loops s = .next t) :
    s.store.Touch t.store := by
  unfold tolerantStep at h
  split_ifs at h
  · cases h
    exact .stay
  · exact touch_of_step h

theorem eq_of_tolerantStep_done (h : tolerantStep skip code loops s = .done e t) : t = s := by
  unfold tolerantStep at h
  split_ifs at h
  · cases h
  · exact eq_of_step_done h

theorem extends_of_reaches (h : Reaches (tolerantStep skip code loops) s t) :
    s.store.channel.Extends t.store.channel := by
  induction h with
  | refl => exact .refl _
  | tail _ last ih => exact ih.trans (touch_of_tolerantStep last).channel

/-- A run has written and read at its end whatever it had before. -/
theorem extends_of_endsIn (h : EndsIn (tolerantStep skip code loops) s e t) :
    s.store.channel.Extends t.store.channel := by
  obtain ⟨u, reach, last⟩ := h.exists_last
  rw [eq_of_tolerantStep_done last]
  exact extends_of_reaches reach

end TapeMachine.Direct
