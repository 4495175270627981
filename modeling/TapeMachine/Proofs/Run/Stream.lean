import TapeMachine.Proofs.Machine.Tape
import TapeMachine.Proofs.Run.Image

/-!
# Machines on a channel

A step leaves the channel alone, writes one character to it or asks it for the next one, and learns
nothing else from it. So a machine does not notice when its channel is exchanged for another one
that hands out the same bytes.
-/
namespace TapeMachine

/-- States that hold a channel. -/
class HoldsChannel (σ : Type) where
  channel : σ → Channel
  withChannel : σ → Channel → σ
  channel_withChannel : ∀ s a, channel (withChannel s a) = a
  withChannel_channel : ∀ s, withChannel s (channel s) = s
  withChannel_withChannel : ∀ s a b, withChannel (withChannel s a) b = withChannel s b

open HoldsChannel

attribute [simp] channel_withChannel withChannel_withChannel

/-- What a step asks of a channel, and what it comes to. Of a character that is read only the signed
byte is used, and a step that writes does not end the run. -/
inductive Demand (σ : Type)
  | quiet (result : Step σ)
  | write (x : Char) (next : σ)
  | read (index : ℤ) (stuck : σ) (result : ℤ → Step σ)

/-- The state that a step leads to or ends in. -/
def Step.state {σ : Type} : Step σ → σ
  | next s => s
  | done _ s => s

variable {σ : Type} [HoldsChannel σ]

/-- A step whose state gets this channel. -/
abbrev Step.withChannel (r : Step σ) (a : Channel) : Step σ :=
  r.image id (HoldsChannel.withChannel · a)

theorem Step.channel_state_withChannel (r : Step σ) (a : Channel) :
    channel (r.withChannel a).state = a := by
  cases r <;> exact channel_withChannel _ _

/-- What a demand comes to on a channel. -/
def Demand.serve : Demand σ → Channel → Step σ
  | quiet r, a => r.withChannel a
  | write x s, a => .next (HoldsChannel.withChannel s (a.write (String.singleton x)))
  | read i s r, a =>
    match a.read with
    | none => .done (.failed (.noInput i)) (HoldsChannel.withChannel s a)
    | some (x, rest) => (r (wrap x.toNat)).withChannel rest

/-- Each step of the machine makes one demand, whatever the channel. -/
def SeesStream (step : σ → Step σ) : Prop :=
  ∀ s, ∃ d : Demand σ, ∀ a, step (withChannel s a) = d.serve a

/-- A change of channels that programs do not notice while there is input. -/
structure Channel.Unnoticed (φ : Channel → Channel) (P : Channel → Prop) : Prop where
  write : ∀ a text, P a → P (a.write text) ∧ φ (a.write text) = (φ a).write text
  read : ∀ a x rest, P a → a.read = some (x, rest) →
    P rest ∧ ∃ y, (φ a).read = some (y, φ rest) ∧ wrap y.toNat = wrap x.toNat

/-- The state with its channel changed. -/
def exchange (φ : Channel → Channel) (s : σ) : σ := withChannel s (φ (channel s))

@[simp] theorem channel_exchange (φ : Channel → Channel) (s : σ) :
    channel (exchange φ s) = φ (channel s) :=
  channel_withChannel _ _

theorem exchange_withChannel (φ : Channel → Channel) (s : σ) (a : Channel) :
    exchange φ (withChannel s a) = withChannel s (φ a) := by
  simp [exchange]

namespace SeesStream

variable {step : σ → Step σ} {s t : σ} {e : Ending} {φ : Channel → Channel} {P : Channel → Prop}
  {admits : Ending → Prop}

theorem exists_demand (h : SeesStream step) (s : σ) :
    ∃ d : Demand σ, step s = d.serve (channel s) ∧
      ∀ φ, step (exchange φ s) = d.serve (φ (channel s)) := by
  obtain ⟨d, hd⟩ := h s
  refine ⟨d, ?_, fun φ => hd _⟩
  rw [← hd, withChannel_channel]

/-- What one step does to the channel, whether or not it is the last. -/
theorem channel_step (h : SeesStream step) (s : σ) :
    channel (step s).state = channel s ∨
      (∃ x, channel (step s).state = (channel s).write (String.singleton x)) ∨
      ∃ x, (channel s).read = some (x, channel (step s).state) := by
  obtain ⟨d, hd, -⟩ := h.exists_demand s
  rw [hd]
  cases d with
  | quiet r =>
    left
    rw [Demand.serve, Step.channel_state_withChannel]
  | write x u =>
    right; left
    exact ⟨x, channel_withChannel _ _⟩
  | read i u r =>
    cases hread : (channel s).read with
    | none =>
      left
      simp only [Demand.serve, hread, Step.state, channel_withChannel]
    | some p =>
      right; right
      obtain ⟨x, rest⟩ := p
      refine ⟨x, ?_⟩
      simp only [Demand.serve, hread, Step.channel_state_withChannel]

/-- The last step of a run writes nothing. -/
theorem output_of_done (h : SeesStream step) (last : step s = .done e t) :
    (channel t).output = (channel s).output := by
  obtain ⟨d, hd, -⟩ := h.exists_demand s
  have hstate : (d.serve (channel s)).state = t := by rw [← hd, last, Step.state]
  rw [hd] at last
  rw [← hstate]
  cases d with
  | quiet r => rw [Demand.serve, Step.channel_state_withChannel]
  | write x u => cases last
  | read i u r =>
    cases hread : (channel s).read with
    | none => simp only [Demand.serve, hread, Step.state, channel_withChannel]
    | some p =>
      simp only [Demand.serve, hread, Step.channel_state_withChannel]
      exact Channel.output_of_read hread

theorem extends_step (h : SeesStream step) (s : σ) :
    (channel s).Extends (channel (step s).state) := by
  rcases h.channel_step s with heq | ⟨x, heq⟩ | ⟨x, hread⟩
  · rw [heq]
    exact .refl _
  · rw [heq]
    exact Channel.extends_write _ _
  · exact Channel.extends_of_read hread

theorem extends_of_reaches (h : SeesStream step) (reach : Reaches step s t) :
    (channel s).Extends (channel t) := by
  induction reach with
  | refl => exact .refl _
  | @tail u v _ last ih =>
    have hstep := h.extends_step u
    rw [show step u = .next v from last] at hstep
    exact ih.trans hstep

/-- A run has at its end written and read whatever it had before. -/
theorem extends_of_endsIn (h : SeesStream step) (run : EndsIn step s e t) :
    (channel s).Extends (channel t) := by
  obtain ⟨u, reach, last⟩ := run.exists_last
  have hstep := h.extends_step u
  rw [last] at hstep
  exact (h.extends_of_reaches reach).trans hstep

/-- What is said of a channel when it is changed stays true of it in a run. -/
theorem keeps_step (h : SeesStream step) (hφ : Channel.Unnoticed φ P) (hs : P (channel s)) :
    P (channel (step s).state) := by
  rcases h.channel_step s with heq | ⟨x, heq⟩ | ⟨x, hread⟩
  · rwa [heq]
  · rw [heq]
    exact (hφ.write _ _ hs).1
  · exact (hφ.read _ _ _ hs hread).1

theorem keeps_leads (h : SeesStream step) (hφ : Channel.Unnoticed φ P) (s t : σ)
    (hs : P (channel s)) (lead : Leads step s t) : P (channel t) := by
  have hstep := h.keeps_step hφ hs
  rwa [show step s = .next t from lead] at hstep

theorem keeps_endsIn (h : SeesStream step) (hφ : Channel.Unnoticed φ P) (hs : P (channel s))
    (run : EndsIn step s e t) : P (channel t) := by
  obtain ⟨u, reach, last⟩ := run.exists_last
  have hu : P (channel u) :=
    Reaches.invariant (P := fun v => P (channel v)) (h.keeps_leads hφ) hs reach
  have hstep := h.keeps_step hφ hu
  rwa [last] at hstep

/-- After a change that is not noticed a machine does what it did before. If the change concerns
channels without input, ends for want of input are not admitted. -/
theorem images_exchange (h : SeesStream step) (hφ : Channel.Unnoticed φ P)
    (exhausted : ∀ i a, admits (.failed (.noInput i)) → P a → a.read = none → (φ a).read = none) :
    Images step step (fun s => P (channel s)) admits id (exchange φ) where
  keeps := h.keeps_leads hφ
  step s hs within := by
    obtain ⟨d, hd, hd'⟩ := h.exists_demand s
    rw [hd] at within
    rw [hd, hd']
    cases d with
    | quiet r => cases r <;> simp [Demand.serve, Step.image, exchange_withChannel]
    | write x u => simp [Demand.serve, Step.image, exchange_withChannel, (hφ.write _ _ hs).2]
    | read i u r =>
      cases hread : (channel s).read with
      | none =>
        simp only [Demand.serve, hread] at within ⊢
        rw [exhausted i _ (within _ _ rfl) hs hread]
        simp [Step.image, exchange_withChannel]
      | some p =>
        obtain ⟨x, rest⟩ := p
        obtain ⟨-, y, hy, heq⟩ := hφ.read _ _ _ hs hread
        simp only [Demand.serve, hread, hy, heq]
        cases r (wrap x.toNat) <;> simp [Step.image, exchange_withChannel]

/-- If a change concerns no channel without input, runs are changed as a whole. -/
theorem runFor_exchange (h : SeesStream step) (hφ : Channel.Unnoticed φ P)
    (exhausted : ∀ a, P a → a.read = none → (φ a).read = none) (hs : P (channel s)) (limit : ℕ) :
    runFor step limit (exchange φ s) = (runFor step limit s).map (Prod.map id (exchange φ)) :=
  (h.images_exchange hφ fun _ a _ => exhausted a).runFor_eq_map hs limit

/-- Two runs whose channels have become the same by such a change come to the same end. -/
theorem endsIn_of_exchange_eq (h : SeesStream step) (hφ : Channel.Unnoticed φ P)
    (exhausted : ∀ a, P a → a.read = none → (φ a).read = none) {s' : σ} (hs : P (channel s))
    (hs' : P (channel s')) (heq : exchange φ s = exchange φ s') (run : EndsIn step s e t) :
    ∃ t', EndsIn step s' e t' ∧ exchange φ t' = exchange φ t := by
  obtain ⟨limit, run⟩ := run
  have hmap := h.runFor_exchange hφ exhausted hs' limit
  rw [← heq, h.runFor_exchange hφ exhausted hs limit, run] at hmap
  obtain ⟨⟨e', t'⟩, hrun, hend⟩ := Option.map_eq_some_iff.mp hmap.symm
  obtain ⟨rfl, hstate⟩ := Prod.mk.inj hend
  exact ⟨t', ⟨limit, hrun⟩, hstate⟩

end SeesStream
end TapeMachine
