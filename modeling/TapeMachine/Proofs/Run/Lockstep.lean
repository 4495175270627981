import Mathlib.Logic.Relation
import Mathlib.Tactic
import TapeMachine.Run

/-!
# Reachable states and machines in lockstep

Two machines are in lockstep if each step of the first is matched by one or more steps of the
second. Their runs then end together: whichever of the two comes to an end, so does the other.

It may also be that where a first machine takes a step or more, a second one takes any number of
steps, or none, as long as the two come to related states again. Then the second machine comes to an
end whenever the first one does. Ends of the first machine may be excused: nothing is said of the
second one there.
-/
namespace TapeMachine

variable {σ τ : Type} {step : σ → Step σ} {s t u : σ} {e : Ending}

/-- One state follows another in a run. -/
def Leads (step : σ → Step σ) (s t : σ) : Prop := step s = .next t

abbrev Reaches (step : σ → Step σ) : σ → σ → Prop := Relation.ReflTransGen (Leads step)

/-- Reachable by at least one step. -/
abbrev Passes (step : σ → Step σ) : σ → σ → Prop := Relation.TransGen (Leads step)

theorem EndsIn.of_reaches (h : Reaches step s t) (run : EndsIn step t e u) :
    EndsIn step s e u := by
  induction h using Relation.ReflTransGen.head_induction_on with
  | refl => exact run
  | head first _ ih => exact ih.of_next first

/-- What is left of a run that has come to an end is shorter after every step. -/
theorem runFor_of_leads {n : ℕ} {r : Ending × σ} (first : Leads step s t)
    (h : runFor step n s = some r) : ∃ k < n, runFor step k t = some r := by
  cases n with
  | zero => simp [runFor] at h
  | succ k =>
    have hs : step s = .next t := first
    rw [runFor, hs] at h
    exact ⟨k, Nat.lt_succ_self k, h⟩

theorem runFor_of_passes {n : ℕ} {r : Ending × σ} (h : Passes step s t)
    (run : runFor step n s = some r) : ∃ k < n, runFor step k t = some r := by
  induction h with
  | single first => exact runFor_of_leads first run
  | tail _ last ih =>
    obtain ⟨k, hk, rest⟩ := ih
    obtain ⟨j, hj, rest⟩ := runFor_of_leads last rest
    exact ⟨j, hj.trans hk, rest⟩

theorem Reaches.passes (h : Reaches step s t) (ne : s ≠ t) : Passes step s t :=
  (Relation.reflTransGen_iff_eq_or_transGen.mp h).resolve_left ne.symm

/-- A run that ends passes through every state that it reaches. -/
theorem EndsIn.rest (h : Reaches step s t) (run : EndsIn step s e u) : EndsIn step t e u := by
  obtain ⟨n, run⟩ := run
  rcases Relation.reflTransGen_iff_eq_or_transGen.mp h with rfl | h
  · exact ⟨n, run⟩
  · obtain ⟨k, _, run⟩ := runFor_of_passes h run
    exact ⟨k, run⟩

/-- The last step of a run that ends. -/
theorem EndsIn.exists_last (run : EndsIn step s e u) :
    ∃ t, Reaches step s t ∧ step t = .done e u := by
  obtain ⟨n, run⟩ := run
  induction n generalizing s with
  | zero => simp [runFor] at run
  | succ n ih =>
    rw [runFor] at run
    cases hs : step s with
    | next s' =>
      rw [hs] at run
      obtain ⟨t, reach, last⟩ := ih run
      exact ⟨t, reach.head hs, last⟩
    | done e' u' =>
      rw [hs] at run
      obtain ⟨rfl, rfl⟩ : e' = e ∧ u' = u := by simpa using run
      exact ⟨s, .refl, hs⟩

/-- Reachable by this number of steps. -/
def ReachesIn (step : σ → Step σ) : ℕ → σ → σ → Prop
  | 0, s, t => s = t
  | n + 1, s, t => ∃ u, Leads step s u ∧ ReachesIn step n u t

namespace ReachesIn

variable {m n k : ℕ}

theorem single (h : Leads step s t) : ReachesIn step 1 s t := ⟨t, h, rfl⟩

theorem trans (h : ReachesIn step m s t) (h' : ReachesIn step n t u) :
    ReachesIn step (m + n) s u := by
  induction m generalizing s with
  | zero =>
    obtain rfl : s = t := h
    rwa [Nat.zero_add]
  | succ m ih =>
    obtain ⟨v, first, h⟩ := h
    rw [Nat.add_right_comm]
    exact ⟨v, first, ih h⟩

/-- Rounds of the same length, one after the other. -/
theorem rounds (place : ℕ → σ) (h : ∀ j < k, ReachesIn step n (place j) (place (j + 1))) :
    ReachesIn step (k * n) (place 0) (place k) := by
  induction k with
  | zero =>
    rw [Nat.zero_mul]
    exact rfl
  | succ k ih =>
    rw [Nat.succ_mul]
    exact (ih fun j hj => h j (Nat.lt_succ_of_lt hj)).trans (h k (Nat.lt_succ_self k))

/-- The first step decides where a run goes. -/
theorem congr_first {s' : σ} (first : step s = step s') (h : ReachesIn step (n + 1) s t) :
    ReachesIn step (n + 1) s' t := by
  obtain ⟨u, hu, h⟩ := h
  exact ⟨u, first.symm.trans hu, h⟩

theorem runFor {r : Ending × σ} (h : ReachesIn step m s t) (run : runFor step n t = some r) :
    runFor step (m + n) s = some r := by
  induction m generalizing s with
  | zero =>
    obtain rfl : s = t := h
    rwa [Nat.zero_add]
  | succ m ih =>
    obtain ⟨v, first, h⟩ := h
    have hs : step s = .next v := first
    rw [Nat.add_right_comm, TapeMachine.runFor, hs]
    exact ih h

end ReachesIn

/-- What holds at the start and is kept by every step holds in all reachable states. -/
theorem Reaches.invariant {P : σ → Prop} (keeps : ∀ s t, P s → Leads step s t → P t)
    (start : P s) (h : Reaches step s t) : P t := by
  induction h with
  | refl => exact start
  | tail _ last ih => exact keeps _ _ ih last

/-- A run that does not end goes on for ever. -/
theorem endsIn_or_forall_runFor (step : σ → Step σ) (s : σ) :
    (∃ e t, EndsIn step s e t) ∨ ∀ limit, runFor step limit s = none := by
  by_cases h : ∃ limit, (runFor step limit s).isSome
  · obtain ⟨limit, h⟩ := h
    obtain ⟨⟨e, t⟩, h⟩ := Option.isSome_iff_exists.mp h
    exact .inl ⟨e, t, limit, h⟩
  · refine .inr fun limit => ?_
    simpa using fun hs => h ⟨limit, hs⟩

/-- How a second machine answers what a first one does: to a step with one or more steps that lead
to a related state, to an end with a related end. -/
def Answers (g : τ → Step τ) (R : σ → τ → Prop) (Q : Ending → σ → Ending → τ → Prop) (b : τ) :
    Step σ → Prop
  | .next a => ∃ b', Passes g b b' ∧ R a b'
  | .done e a => ∃ e' b', EndsIn g b e' b' ∧ Q e a e' b'

/-- Everything that the first machine does in related states is answered by the second. -/
def Lockstep (f : σ → Step σ) (g : τ → Step τ) (R : σ → τ → Prop)
    (Q : Ending → σ → Ending → τ → Prop) : Prop :=
  ∀ a b, R a b → Answers g R Q b (f a)

namespace Lockstep

variable {f : σ → Step σ} {g : τ → Step τ} {R : σ → τ → Prop}
  {Q : Ending → σ → Ending → τ → Prop} {a a' : σ} {b b' : τ} {e' : Ending}

theorem endsIn (l : Lockstep f g R Q) (h : R a b) (run : EndsIn f a e a') :
    ∃ e' b', EndsIn g b e' b' ∧ Q e a' e' b' := by
  obtain ⟨n, run⟩ := run
  induction n generalizing a b with
  | zero => simp [runFor] at run
  | succ n ih =>
    have answer := l _ _ h
    rw [runFor] at run
    cases hs : f a with
    | next c =>
      rw [hs] at run answer
      obtain ⟨d, steps, hd⟩ := answer
      obtain ⟨e', b', ends, q⟩ := ih hd run
      exact ⟨e', b', ends.of_reaches steps.to_reflTransGen, q⟩
    | done e₁ c =>
      rw [hs] at run answer
      obtain ⟨rfl, rfl⟩ : e₁ = e ∧ c = a' := by simpa using run
      exact answer

/-- The converse. Every step of the first machine shortens the run of the second, so it cannot
take more steps than that run has. -/
theorem endsIn_first (l : Lockstep f g R Q) (h : R a b) (run : EndsIn g b e' b') :
    ∃ e a', EndsIn f a e a' ∧ Q e a' e' b' := by
  obtain ⟨n, run⟩ := run
  induction n using Nat.strong_induction_on generalizing a b with
  | _ n ih =>
    have answer := l _ _ h
    cases hs : f a with
    | next c =>
      rw [hs] at answer
      obtain ⟨d, steps, hd⟩ := answer
      obtain ⟨k, hk, run⟩ := runFor_of_passes steps run
      obtain ⟨e, a', ends, q⟩ := ih k hk hd run
      exact ⟨e, a', ends.of_next hs, q⟩
    | done e c =>
      rw [hs] at answer
      obtain ⟨e₁, b₁, ends, q⟩ := answer
      obtain ⟨rfl, rfl⟩ := ends.unique ⟨n, run⟩
      exact ⟨e, c, .of_done hs, q⟩

end Lockstep

/-- What a second machine makes of what a first one does from here on. -/
inductive Follows (f : σ → Step σ) (g : τ → Step τ) (R : σ → τ → Prop) (excuses : Ending → Prop)
    (Q : Ending → σ → Ending → τ → Prop) (a : σ) (b : τ) : Prop
  | go {a' : σ} {b' : τ} (first : Passes f a a') (second : Reaches g b b') (related : R a' b')
  | ends {e e' : Ending} {a' : σ} {b' : τ} (first : EndsIn f a e a') (second : EndsIn g b e' b')
    (related : Q e a' e' b')
  | excused {e : Ending} {a' : σ} (first : EndsIn f a e a') (excuse : excuses e)

namespace Follows

variable {f : σ → Step σ} {g : τ → Step τ} {R : σ → τ → Prop} {excuses : Ending → Prop}
  {Q : Ending → σ → Ending → τ → Prop} {a a' : σ} {b b' : τ} {e : Ending}

/-- Steps taken before make no difference. -/
theorem of_reaches (first : Reaches f a a') (second : Reaches g b b')
    (h : Follows f g R excuses Q a' b') : Follows f g R excuses Q a b := by
  cases h with
  | go first' second' related =>
    exact .go (Relation.TransGen.trans_right first first') (second.trans second') related
  | ends first' second' related =>
    exact .ends (first'.of_reaches first) (second'.of_reaches second) related
  | excused first' excuse => exact .excused (first'.of_reaches first) excuse

/-- If the second machine keeps up in all related states, it ends where the first one does. Every
advance of the first machine leaves it a shorter run. -/
theorem endsIn (follows : ∀ a b, R a b → Follows f g R excuses Q a b) (h : R a b)
    (run : EndsIn f a e a') (he : ¬ excuses e) : ∃ e' b', EndsIn g b e' b' ∧ Q e a' e' b' := by
  obtain ⟨n, run⟩ := run
  induction n using Nat.strong_induction_on generalizing a b with
  | _ n ih =>
    cases follows a b h with
    | go first second related =>
      obtain ⟨k, hk, rest⟩ := runFor_of_passes first run
      obtain ⟨e', b', ends, q⟩ := ih k hk related rest
      exact ⟨e', b', ends.of_reaches second, q⟩
    | ends first second related =>
      obtain ⟨rfl, rfl⟩ := first.unique ⟨n, run⟩
      exact ⟨_, _, second, related⟩
    | excused first excuse =>
      obtain ⟨rfl, rfl⟩ := first.unique ⟨n, run⟩
      exact absurd excuse he

end Follows
end TapeMachine
