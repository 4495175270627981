import TapeMachine.Fault

/-!
# Runs

A machine is a function that takes one step or says how the run ends.  A run is that function
iterated; the number of steps is bounded by a limit, and a larger limit never changes the end
of a run that ended (`runFor_mono`).
-/
namespace TapeMachine

inductive Ending
  | halted
  | failed (fault : Fault)
  deriving DecidableEq, Repr, Inhabited

def Ending.fault? : Ending → Option Fault
  | halted => none
  | failed f => some f

inductive Step (σ : Type)
  | next (state : σ)
  | done (ending : Ending) (state : σ)
  deriving Repr

variable {σ : Type}

/-- Runs for at most `limit` steps; `none` if the run has not ended by then. -/
@[specialize] def runFor (step : σ → Step σ) : (limit : Nat) → σ → Option (Ending × σ)
  | 0, _ => none
  | limit + 1, s =>
    match step s with
    | .next s => runFor step limit s
    | .done e s => some (e, s)

/-- The run from `s` ends as `e` in `t`. -/
def EndsIn (step : σ → Step σ) (s : σ) (e : Ending) (t : σ) : Prop :=
  ∃ limit, runFor step limit s = some (e, t)

theorem runFor_mono {step : σ → Step σ} {m n : Nat} {s : σ} {r : Ending × σ}
    (h : runFor step m s = some r) (le : m ≤ n) : runFor step n s = some r := by
  induction m generalizing n s with
  | zero => simp [runFor] at h
  | succ m ih =>
    obtain ⟨n, rfl⟩ : ∃ k, n = k + 1 := ⟨n - 1, by omega⟩
    rw [runFor] at h ⊢
    split at h
    · exact ih h (by omega)
    · exact h

/-- A run has one end. -/
theorem EndsIn.unique {step : σ → Step σ} {s t t' : σ} {e e' : Ending}
    (h : EndsIn step s e t) (h' : EndsIn step s e' t') : e = e' ∧ t = t' := by
  obtain ⟨m, h⟩ := h
  obtain ⟨n, h'⟩ := h'
  have hm := runFor_mono h (Nat.le_max_left m n)
  have hn := runFor_mono h' (Nat.le_max_right m n)
  simpa [hm] using hn

theorem EndsIn.of_next {step : σ → Step σ} {s s' t : σ} {e : Ending} (h : step s = .next s')
    (run : EndsIn step s' e t) : EndsIn step s e t := by
  obtain ⟨n, run⟩ := run
  exact ⟨n + 1, by rw [runFor, h]; exact run⟩

theorem EndsIn.of_done {step : σ → Step σ} {s t : σ} {e : Ending} (h : step s = .done e t) :
    EndsIn step s e t :=
  ⟨1, by rw [runFor, h]⟩

end TapeMachine
