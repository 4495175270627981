import TapeMachine.Machine.Direct
import TapeMachine.Proofs.Machine.Tape
import TapeMachine.Proofs.Run.Lockstep

/-!
# A machine that passes over some additions

The machine for sources, but with marked symbols that are passed over while the pointer is off
the tape. As long as the machine for sources runs on, both do the same; it may only stop
earlier, at a mark.
-/
namespace TapeMachine.Direct

/-- One step of the tolerant machine. -/
def tolerantStep (skip : ℕ → Bool) (code : Array Symbol) (loops : LoopTable) (s : State) :
    Step State :=
  if skip s.pc = true ∧ ¬ s.store.InRange then s.advance s.store else step code loops s

variable {skip : ℕ → Bool} {code : Array Symbol} {loops : LoopTable}

/-- Only additions are marked. -/
def MarksAdditions (skip : ℕ → Bool) (code : Array Symbol) : Prop :=
  ∀ k, skip k = true → ∃ c : Command, c.isAddition = true ∧ code[k]? = some (.command c)

/-- Off the tape an addition fails. -/
theorem step_of_addition {s : State} {c : Command} (hc : c.isAddition = true)
    (hcode : code[s.pc]? = some (.command c)) (hr : ¬ s.store.InRange) :
    step code loops s = s.fail s.store.offTape := by
  cases c <;> simp_all [step, Command.isAddition]

/-- The two machines take the same step, except where the machine for sources fails at a mark. -/
theorem tolerantStep_cases (hm : MarksAdditions skip code) (loops : LoopTable) (s : State) :
    tolerantStep skip code loops s = step code loops s ∨
      skip s.pc = true ∧ ¬ s.store.InRange ∧ step code loops s = s.fail s.store.offTape ∧
        tolerantStep skip code loops s = s.advance s.store := by
  unfold tolerantStep
  split_ifs with h
  · obtain ⟨c, hc, hcode⟩ := hm s.pc h.1
    exact .inr ⟨h.1, h.2, step_of_addition hc hcode h.2, rfl⟩
  · exact .inl rfl

/-- Whatever the machine for sources reaches, the tolerant one reaches too. -/
theorem reaches_tolerant (hm : MarksAdditions skip code) {s t : State}
    (h : Reaches (step code loops) s t) : Reaches (tolerantStep skip code loops) s t := by
  induction h with
  | refl => exact .refl
  | @tail t u _ last ih =>
    refine ih.tail ?_
    rcases tolerantStep_cases hm loops t with h | ⟨-, -, hfail, -⟩
    · exact h.trans last
    · rw [Leads, hfail] at last
      cases last

/-- A run that ends elsewhere than at a mark is a run of both machines. -/
theorem endsIn_tolerant (hm : MarksAdditions skip code) {s t : State} {e : Ending}
    (h : EndsIn (step code loops) s e t) :
    EndsIn (tolerantStep skip code loops) s e t ∨
      skip t.pc = true ∧ ¬ t.store.InRange ∧ e = .failed t.store.offTape := by
  obtain ⟨u, reach, last⟩ := h.exists_last
  rcases tolerantStep_cases hm loops u with h | ⟨hskip, hr, hfail, -⟩
  · exact .inl ((EndsIn.of_done (h.trans last)).of_reaches (reaches_tolerant hm reach))
  · rw [hfail] at last
    cases last
    exact .inr ⟨hskip, hr, rfl⟩

/-- If the tolerant machine comes to an end, so does the machine for sources: in the same way, or
earlier at a mark. -/
theorem endsIn_of_tolerant (hm : MarksAdditions skip code) {s t : State} {e : Ending}
    (h : EndsIn (tolerantStep skip code loops) s e t) :
    EndsIn (step code loops) s e t ∨
      ∃ u, Reaches (tolerantStep skip code loops) s u ∧
        EndsIn (step code loops) s (.failed u.store.offTape) u := by
  obtain ⟨n, h⟩ := h
  induction n generalizing s with
  | zero => simp [runFor] at h
  | succ n ih =>
    rcases tolerantStep_cases hm loops s with heq | ⟨-, -, hfail, -⟩
    · cases hs : tolerantStep skip code loops s with
      | next s' =>
        rw [runFor, hs] at h
        rw [heq] at hs
        rcases ih h with hend | ⟨u, reach, hend⟩
        · exact .inl (hend.of_next hs)
        · exact .inr ⟨u, reach.head (heq.trans hs), hend.of_next hs⟩
      | done e' t' =>
        rw [runFor, hs] at h
        rw [heq] at hs
        cases h
        exact .inl (.of_done hs)
    · exact .inr ⟨s, .refl, .of_done hfail⟩

/-- Commands with their marks stand in the code from a position on. -/
def Lies (skip : ℕ → Bool) (code : Array Symbol) : ℕ → List (Command × Bool) → Prop
  | _, [] => True
  | pc, (c, b) :: w => code[pc]? = some (.command c) ∧ skip pc = b ∧ Lies skip code (pc + 1) w

theorem lies_append {pc : ℕ} {u v : List (Command × Bool)} :
    Lies skip code pc (u ++ v) ↔ Lies skip code pc u ∧ Lies skip code (pc + u.length) v := by
  induction u generalizing pc with
  | nil => simp [Lies]
  | cons x u ih =>
    obtain ⟨c, b⟩ := x
    simp only [List.cons_append, Lies, ih, List.length_cons]
    rw [show pc + 1 + u.length = pc + (u.length + 1) by omega]
    tauto

end TapeMachine.Direct
