import TapeMachine.Proofs.Run.Lockstep

/-!
# Images of runs

A machine that does the image of what another machine does, step by step, also comes to the image
of its end, after as many steps. This need not go for every end of the other machine.
-/
namespace TapeMachine

variable {σ τ : Type}

/-- The image of a step under a map of ends and a map of states. -/
def Step.image (ending : Ending → Ending) (state : σ → τ) : Step σ → Step τ
  | .next s => .next (state s)
  | .done e s => .done (ending e) (state s)

/-- In the states that satisfy `P`, the steps of the second machine are images of those of the
first, up to ends that are not admitted. -/
structure Images (f : σ → Step σ) (g : τ → Step τ) (P : σ → Prop) (admits : Ending → Prop)
    (ending : Ending → Ending) (state : σ → τ) : Prop where
  keeps : ∀ s t, P s → Leads f s t → P t
  step : ∀ s, P s → (∀ e t, f s = .done e t → admits e) → g (state s) = (f s).image ending state

theorem Images.runFor_eq {f : σ → Step σ} {g : τ → Step τ} {P : σ → Prop} {admits : Ending → Prop}
    {ending : Ending → Ending} {state : σ → τ} (h : Images f g P admits ending state) {s t : σ}
    {e : Ending} {limit : ℕ} (start : P s) (run : runFor f limit s = some (e, t))
    (he : admits e) : runFor g limit (state s) = some (ending e, state t) := by
  induction limit generalizing s with
  | zero => simp [runFor] at run
  | succ limit ih =>
    rw [runFor] at run
    cases hs : f s with
    | next u =>
      rw [hs] at run
      have hstep := h.step s start (by simp [hs])
      rw [runFor, hstep, hs]
      exact ih (h.keeps s u start hs) run
    | done e' u =>
      rw [hs] at run
      obtain ⟨rfl, rfl⟩ : e' = e ∧ u = t := by simpa using run
      have hstep := h.step s start (by simpa [hs] using he)
      rw [runFor, hstep, hs]
      rfl

/-- If every end is admitted, a run that goes on is the image of one that does. -/
theorem Images.runFor_eq_map {f : σ → Step σ} {g : τ → Step τ} {P : σ → Prop}
    {ending : Ending → Ending} {state : σ → τ} (h : Images f g P (fun _ => True) ending state)
    {s : σ} (start : P s) (limit : ℕ) :
    runFor g limit (state s) = (runFor f limit s).map (Prod.map ending state) := by
  induction limit generalizing s with
  | zero => rfl
  | succ limit ih =>
    rw [runFor, runFor, h.step s start fun _ _ _ => trivial]
    cases hs : f s with
    | next u => exact ih (h.keeps s u start hs)
    | done e u => rfl

/-- Up to its end a run is followed whatever ends are admitted. -/
theorem Images.reaches {f : σ → Step σ} {g : τ → Step τ} {P : σ → Prop} {admits : Ending → Prop}
    {ending : Ending → Ending} {state : σ → τ} (h : Images f g P admits ending state) {s t : σ}
    (start : P s) (reach : Reaches f s t) : Reaches g (state s) (state t) := by
  induction reach with
  | refl => exact .refl
  | @tail u v before last ih =>
    refine ih.tail ?_
    have hu : f u = .next v := last
    have hP : P u := Reaches.invariant h.keeps start before
    have hstep := h.step u hP (by simp [hu])
    rw [hu] at hstep
    exact hstep

end TapeMachine
