import TapeMachine.Backend
import TapeMachine.Proofs.Machine.Demands

/-!
# Runs that share a channel

A run on a channel does what it would do on a fresh buffer with the channel's unread input: it ends in
the same way, and it adds its output to what has been written before. So runs made one after the
other on one channel hand on the input that they leave and nothing else, and buffers and
consoles serve them alike.
-/
namespace TapeMachine

open HoldsChannel

namespace Channel

variable {a c : Channel}

/-- The channel keeps its input and its output. -/
def Records : Channel → Prop
  | buffer _ _ | console _ _ => True
  | plain | null => False

/-- What a run makes of a channel if it makes this of a fresh buffer with the same input. -/
def resume : Channel → Channel → Channel
  | buffer _ kept, buffer unread pieces => buffer unread (kept ++ pieces)
  | console _ printed, buffer unread pieces => console unread (printed ++ String.join pieces.toList)
  | other, _ => other

/-- A buffer; it has no input if the channel to be resumed never has. -/
def Resumable (a c : Channel) : Prop :=
  ∃ unread pieces, c = buffer unread pieces ∧ (a.Records ∨ unread = [])

theorem resumable_ofInput (a : Channel) : a.Resumable (ofInput a.unread) := by
  refine ⟨a.unread, #[], rfl, ?_⟩
  cases a with
  | plain | null => exact .inr rfl
  | buffer unread pieces | console unread printed => exact .inl trivial

@[simp] theorem resume_ofInput (a : Channel) : a.resume (ofInput a.unread) = a := by
  cases a <;> simp [resume, ofInput, unread]

theorem Records.resume (h : a.Records) (c : Channel) : (a.resume c).Records := by
  cases a <;> cases c <;> trivial

theorem Resumable.output_resume (hc : a.Resumable c) (h : a.Records) :
    (a.resume c).output = a.output ++ c.output := by
  obtain ⟨unread, pieces, rfl, -⟩ := hc
  cases a with
  | plain | null => cases h
  | buffer => simp [Channel.resume, output, String.join_append]
  | console => rfl

theorem Resumable.unread_resume (hc : a.Resumable c) (h : a.Records) :
    (a.resume c).unread = c.unread := by
  obtain ⟨unread, pieces, rfl, -⟩ := hc
  cases a with
  | plain | null => cases h
  | buffer | console => rfl

theorem read_resume_of_none (hc : a.Resumable c) (h : c.read = none) :
    (a.resume c).read = none := by
  obtain ⟨unread, pieces, rfl, -⟩ := hc
  cases unread with
  | nil => cases a <;> rfl
  | cons x unread => cases h

/-- Programs do not notice whether a channel is new. -/
theorem unnoticed_resume (a : Channel) : Unnoticed a.resume a.Resumable where
  write := by
    rintro c text ⟨unread, pieces, rfl, h⟩
    refine ⟨⟨unread, pieces.push text, rfl, h⟩, ?_⟩
    cases a <;> simp [resume, write, String.join_append, String.append_assoc]
  read := by
    rintro c x rest ⟨unread, pieces, rfl, h⟩ hread
    cases unread with
    | nil => cases hread
    | cons y unread =>
      cases hread
      have hrec : a.Records := h.resolve_right (List.cons_ne_nil _ _)
      refine ⟨⟨unread, pieces, rfl, .inl hrec⟩, x, ?_, rfl⟩
      cases a with
      | plain | null => cases hrec
      | buffer | console => rfl

end Channel

/-- How a run ended, and the events that were noted. -/
def Report.outcome (r : Report) : Ending × List Event := (r.ending, r.log)

/-- The report with its channel changed. -/
def Report.exchange (φ : Channel → Channel) (r : Report) : Report := { r with channel := φ r.channel }

/-- What the runs of a backend are: refusals, or runs of a machine that sees its channel as a stream.
What is noted of them does not depend on the channel. -/
inductive Backend.Runs (b : Backend) : Prop
  | refused (f : Fault) (run : ∀ limit a, b.run limit a = some (.refused f a))
  | machine {σ : Type} [HoldsChannel σ] {step : σ → Step σ} (stream : SeesStream step) (start : σ)
    (log : Ending → σ → List Event) (log_exchange : ∀ φ e s, log e (exchange φ s) = log e s)
    (run : ∀ limit a, b.run limit a =
      (runFor step limit (withChannel start a)).map fun (e, s) => ⟨e, channel s, log e s⟩)

theorem Backend.runs (b : Backend) : b.Runs := by
  obtain ⟨name, size, engine⟩ := b
  cases engine with
  | plain => exact .refused .notSupported fun _ _ => rfl
  | compiled code =>
    cases code with
    | none => exact .refused _ fun _ _ => rfl
    | some code =>
      cases hroom : Room.refusal? size.val with
      | some f => exact .refused f fun _ _ => by simp only [run, Compiled.report, hroom]
      | none =>
        refine .machine (Compiled.seesStream code) (Compiled.State.initial size.val .null)
          (fun e s => .executing code.size size.val ::
            if e = .halted then [.stopped s.ip s.store.ptr] else []) (fun _ _ _ => rfl)
          fun limit a => ?_
        simp only [run, Compiled.report, hroom]
        congr 1
        funext ⟨e, s⟩
        cases e <;> rfl
  | direct code loops =>
    rcases code with _ | code
    · exact .refused .nothingMatched fun _ _ => rfl
    rcases loops with _ | loops
    · exact .refused .nothingMatched fun _ _ => rfl
    cases hroom : Room.refusal? size.val with
    | some f => exact .refused f fun _ _ => by simp only [run, Direct.report, hroom]
    | none =>
      refine .machine (Direct.seesStream code loops) (Direct.State.initial size.val .null)
        (fun _ _ => [.interpreting code.size size.val]) (fun _ _ _ => rfl) fun limit a => ?_
      simp only [run, Direct.report, hroom]
      rfl

section Exchange

variable {φ : Channel → Channel} {P : Channel → Prop} {a : Channel} {b : Backend} {r : Report}
  {limit n : ℕ}

/-- A backend does not notice what its machine does not notice. -/
theorem Backend.run_exchange (hφ : Channel.Unnoticed φ P)
    (exhausted : ∀ a, P a → a.read = none → (φ a).read = none) (ha : P a) (b : Backend) :
    b.run limit (φ a) = (b.run limit a).map (.exchange φ) := by
  cases b.runs with
  | refused f run => simp only [run, Option.map_some]; rfl
  | machine stream start log log_exchange run =>
    have hs : P (channel (withChannel start a)) := by rwa [channel_withChannel]
    rw [run, run, ← exchange_withChannel, stream.runFor_exchange hφ exhausted hs, Option.map_map,
      Option.map_map]
    congr 1
    funext ⟨e, s⟩
    simp [Report.exchange, log_exchange]

theorem Backend.keeps_run (hφ : Channel.Unnoticed φ P) (ha : P a) (h : b.run limit a = some r) :
    P r.channel := by
  cases b.runs with
  | refused f run =>
    obtain rfl := Option.some.inj ((run limit a).symm.trans h)
    exact ha
  | machine stream start log log_exchange run =>
    have hs : P (channel (withChannel start a)) := by rwa [channel_withChannel]
    rw [run] at h
    obtain ⟨⟨e, s⟩, hrun, rfl⟩ := Option.map_eq_some_iff.mp h
    exact stream.keeps_endsIn hφ hs ⟨limit, hrun⟩

/-- A larger limit does not change a report. -/
theorem Backend.run_mono (h : b.run limit a = some r) (le : limit ≤ n) : b.run n a = some r := by
  cases b.runs with
  | refused f run => rwa [run] at h ⊢
  | machine stream start log log_exchange run =>
    rw [run] at h ⊢
    obtain ⟨ended, hrun, rfl⟩ := Option.map_eq_some_iff.mp h
    rw [runFor_mono hrun le, Option.map_some]

end Exchange

/-- A run of the backend on the channel ends with this report. -/
def Backend.Reports (b : Backend) (a : Channel) (r : Report) : Prop := ∃ limit, b.run limit a = some r

section Afresh

variable {a : Channel} {b : Backend} {r : Report} {bs : List Backend}

theorem Backend.Reports.unique {r' : Report} (h : b.Reports a r) (h' : b.Reports a r') :
    r = r' := by
  obtain ⟨m, h⟩ := h
  obtain ⟨n, h'⟩ := h'
  have hm := run_mono h (Nat.le_max_left m n)
  have hn := run_mono h' (Nat.le_max_right m n)
  exact Option.some.inj (hm.symm.trans hn)

theorem Backend.resumable_of_reports {f : Report} (h : b.Reports (.ofInput a.unread) f) :
    a.Resumable f.channel := by
  obtain ⟨limit, h⟩ := h
  exact keeps_run (Channel.unnoticed_resume a) (Channel.resumable_ofInput a) h

/-- A run on any channel is the run on a fresh buffer with the same input. -/
theorem Backend.reports_iff :
    b.Reports a r ↔ ∃ f, b.Reports (.ofInput a.unread) f ∧ f.exchange a.resume = r := by
  have hrun (limit : ℕ) :
      b.run limit a = (b.run limit (.ofInput a.unread)).map (.exchange a.resume) := by
    conv_lhs => rw [← Channel.resume_ofInput a]
    exact b.run_exchange (Channel.unnoticed_resume a) (fun _ => Channel.read_resume_of_none)
      (Channel.resumable_ofInput a)
  constructor
  · rintro ⟨limit, h⟩
    rw [hrun] at h
    obtain ⟨f, hf, heq⟩ := Option.map_eq_some_iff.mp h
    exact ⟨f, ⟨limit, hf⟩, heq⟩
  · rintro ⟨f, ⟨limit, hf⟩, rfl⟩
    exact ⟨limit, by rw [hrun, hf, Option.map_some]⟩

/-- Runs of these backends, one after the other on one channel, have these outcomes and leave the
second channel. -/
inductive InTurn : List Backend → Channel → List (Ending × List Event) → Channel → Prop
  | nil (a : Channel) : InTurn [] a [] a
  | cons {b : Backend} {bs : List Backend} {a a' : Channel} {r : Report}
    {outcomes : List (Ending × List Event)} (first : b.Reports a r)
    (rest : InTurn bs r.channel outcomes a') : InTurn (b :: bs) a (r.outcome :: outcomes) a'

/-- Runs of these backends, each on a fresh buffer with the input that the one before has left, have
these outcomes, write this in all and leave this input. -/
inductive EachAfresh :
    List Backend → List Char → List (Ending × List Event) → String → List Char → Prop
  | nil (input : List Char) : EachAfresh [] input [] "" input
  | cons {b : Backend} {bs : List Backend} {input left : List Char} {f : Report}
    {outcomes : List (Ending × List Event)} {output : String}
    (first : b.Reports (.ofInput input) f)
    (rest : EachAfresh bs f.channel.unread outcomes output left) :
    EachAfresh (b :: bs) input (f.outcome :: outcomes) (f.channel.output ++ output) left

variable {outcomes : List (Ending × List Event)} {output : String} {input left : List Char}

theorem InTurn.eachAfresh {a' : Channel} (h : InTurn bs a outcomes a') (hrec : a.Records) :
    ∃ output, EachAfresh bs a.unread outcomes output a'.unread ∧ a.output ++ output = a'.output := by
  induction h with
  | nil a => exact ⟨"", .nil _, by simp⟩
  | @cons b bs a a' r outcomes first rest ih =>
    obtain ⟨f, hf, rfl⟩ := Backend.reports_iff.mp first
    have hres := Backend.resumable_of_reports hf
    have hleft : (f.exchange a.resume).channel.unread = f.channel.unread := hres.unread_resume hrec
    have hout : (f.exchange a.resume).channel.output = a.output ++ f.channel.output :=
      hres.output_resume hrec
    obtain ⟨output, hrest, heq⟩ := ih (hrec.resume _)
    rw [hleft] at hrest
    exact ⟨f.channel.output ++ output, .cons hf hrest, by rw [← heq, hout, String.append_assoc]⟩

theorem EachAfresh.inTurn (h : EachAfresh bs input outcomes output left) (hrec : a.Records)
    (ha : a.unread = input) :
    ∃ a', InTurn bs a outcomes a' ∧ a'.output = a.output ++ output ∧ a'.unread = left := by
  induction h generalizing a with
  | nil => exact ⟨a, .nil a, by simp, ha⟩
  | @cons b bs input left f outcomes output first rest ih =>
    subst ha
    have hres := Backend.resumable_of_reports first
    have hout : (f.exchange a.resume).channel.output = a.output ++ f.channel.output :=
      hres.output_resume hrec
    obtain ⟨a', hrest, heq, hleft⟩ := ih (hrec.resume f.channel) (hres.unread_resume hrec)
    have hfirst : b.Reports a (f.exchange a.resume) := Backend.reports_iff.mpr ⟨f, first, rfl⟩
    have hturn := InTurn.cons hfirst hrest
    exact ⟨a', hturn, by rw [heq, ← String.append_assoc, ← hout]; rfl, hleft⟩

/-- On a channel that has not been used the runs do what they do each on a fresh buffer. -/
theorem exists_inTurn_iff (hrec : a.Records) (hnew : a.output = "") :
    (∃ a', InTurn bs a outcomes a' ∧ a'.output = output ∧ a'.unread = left) ↔
      EachAfresh bs a.unread outcomes output left := by
  constructor
  · rintro ⟨a', h, rfl, rfl⟩
    obtain ⟨output, hafresh, heq⟩ := h.eachAfresh hrec
    rw [hnew, String.empty_append] at heq
    rwa [← heq]
  · intro h
    obtain ⟨a', hturn, heq, hleft⟩ := h.inTurn hrec rfl
    rw [hnew, String.empty_append] at heq
    exact ⟨a', hturn, heq, hleft⟩

/-- What never has input looks to every run like an empty buffer. -/
theorem exists_inTurn_null_iff : (∃ a, InTurn bs .null outcomes a) ↔
    List.Forall₂ (fun b o => ∃ f, b.Reports (.ofInput []) f ∧ f.outcome = o) bs outcomes := by
  constructor
  · rintro ⟨a', h⟩
    generalize ha : Channel.null = a at h
    induction h with
    | nil a => exact .nil
    | @cons b bs a a' r outcomes first rest ih =>
      subst ha
      obtain ⟨f, hf, rfl⟩ := Backend.reports_iff.mp first
      exact .cons ⟨f, hf, rfl⟩ (ih rfl)
  · intro h
    induction h with
    | nil => exact ⟨.null, .nil _⟩
    | @cons b o bs outcomes first _ ih =>
      obtain ⟨a, hrest⟩ := ih
      obtain ⟨f, hf, rfl⟩ := first
      have hfirst : b.Reports .null (f.exchange (Channel.null.resume)) :=
        Backend.reports_iff.mpr ⟨f, hf, rfl⟩
      have hturn := InTurn.cons hfirst hrest
      exact ⟨a, hturn⟩

/-- Runs made one after the other on a buffer, or on a console, end as they would each on a fresh
buffer with the input left by the runs before; what has been written in the end is what they would
have written, in order, and the same input is left. If there is never any input, every run ends as on
an empty buffer. -/
theorem runs_on_shared_channel (bs : List Backend) (input : List Char) :
    (∀ outcomes output left,
      (∃ a, InTurn bs (.ofInput input) outcomes a ∧ a.output = output ∧ a.unread = left) ↔
        EachAfresh bs input outcomes output left) ∧
    (∀ outcomes output left,
      (∃ a, InTurn bs (.console input "") outcomes a ∧ a.output = output ∧ a.unread = left) ↔
        EachAfresh bs input outcomes output left) ∧
    ∀ outcomes, (∃ a, InTurn bs .null outcomes a) ↔
      List.Forall₂ (fun b o => ∃ f, b.Reports (.ofInput []) f ∧ f.outcome = o) bs outcomes :=
  ⟨fun _ _ _ => exists_inTurn_iff trivial rfl, fun _ _ _ => exists_inTurn_iff trivial rfl,
    fun _ => exists_inTurn_null_iff⟩

end Afresh
end TapeMachine
