import TapeMachine.Proofs.Machine.Demands
import TapeMachine.Proofs.Machine.Ends

/-!
# Input as a stream

A run takes its input from the front and learns only by asking whether there is more of it. More
input behind makes no difference to a run that never asked in vain. A run that did would have gone
on, and its output is what the longer run writes first.
-/
namespace TapeMachine

open HoldsChannel

/-- The same store, but with more input behind what is unread. -/
structure Store.Supplied (more : List Char) (s s' : Store) : Prop where
  size : s'.size = s.size
  cells : s'.cells = s.cells
  ptr : s'.ptr = s.ptr
  output : s'.channel.output = s.channel.output
  unread : s'.channel.unread = s.channel.unread ++ more

namespace Channel

variable {a : Channel} {more : List Char}

def IsBuffer (a : Channel) : Prop := ∃ unread pieces, a = buffer unread pieces

theorem isBuffer_ofInput (input : List Char) : (ofInput input).IsBuffer := ⟨input, #[], rfl⟩

/-- A buffer with more input behind what is unread. -/
def supply (more : List Char) : Channel → Channel
  | buffer unread pieces => buffer (unread ++ more) pieces
  | other => other

@[simp] theorem output_supply (more : List Char) (a : Channel) :
    (a.supply more).output = a.output := by
  cases a <;> rfl

theorem IsBuffer.unread_supply (h : a.IsBuffer) : (a.supply more).unread = a.unread ++ more := by
  obtain ⟨unread, pieces, rfl⟩ := h
  rfl

theorem unnoticed_supply (more : List Char) : Unnoticed (supply more) IsBuffer where
  write := by
    rintro a text ⟨unread, pieces, rfl⟩
    exact ⟨⟨unread, pieces.push text, rfl⟩, rfl⟩
  read := by
    rintro a x rest ⟨unread, pieces, rfl⟩ hread
    cases unread with
    | nil => cases hread
    | cons y unread =>
      cases hread
      exact ⟨⟨unread, pieces, rfl⟩, x, rfl, rfl⟩

end Channel

theorem Store.supplied_supply {s : Store} (h : s.channel.IsBuffer) (more : List Char) :
    s.Supplied more { s with channel := s.channel.supply more } :=
  ⟨rfl, rfl, rfl, Channel.output_supply _ _, h.unread_supply⟩

namespace SeesStream

variable {σ : Type} [HoldsChannel σ] {step : σ → Step σ} {s t t' : σ} {e e' : Ending} {i : ℤ}

theorem images_supply (h : SeesStream step) (more : List Char) :
    Images step step (fun s => (channel s).IsBuffer) (fun e => ∀ i, e ≠ .failed (.noInput i)) id
      (exchange (Channel.supply more)) :=
  h.images_exchange (Channel.unnoticed_supply more) fun i _ hne _ _ => absurd rfl (hne i)

theorem endsIn_supply (h : SeesStream step) (hs : (channel s).IsBuffer) (run : EndsIn step s e t)
    (he : ∀ i, e ≠ .failed (.noInput i)) (more : List Char) :
    EndsIn step (exchange (Channel.supply more) s) e (exchange (Channel.supply more) t) ∧
      (channel t).IsBuffer := by
  have hbuffer := h.keeps_endsIn (Channel.unnoticed_supply more) hs run
  obtain ⟨limit, hrun⟩ := run
  exact ⟨⟨limit, (h.images_supply more).runFor_eq hs hrun he⟩, hbuffer⟩

/-- Up to the point where it lacks input the longer run is the shorter one. -/
theorem output_prefix_of_noInput (h : SeesStream step) (hs : (channel s).IsBuffer)
    (run : EndsIn step s (.failed (.noInput i)) t) (more : List Char)
    (run' : EndsIn step (exchange (Channel.supply more) s) e' t') :
    (channel t).output.toList <+: (channel t').output.toList := by
  obtain ⟨u, reach, last⟩ := run.exists_last
  have hreach := (h.images_supply more).reaches hs reach
  have hprefix := (h.extends_of_endsIn (run'.rest hreach)).output
  rw [channel_exchange, Channel.output_supply] at hprefix
  rwa [h.output_of_done last]

end SeesStream

variable {source : List Symbol} {size : TapeSize} {input : List Char} {e e' : Ending} {i : ℤ}

theorem Compiled.Ends.supply {s : State} (h : Ends source size input e s)
    (he : ∀ i, e ≠ .failed (.noInput i)) (more : List Char) :
    Ends source size (input ++ more) e (exchange (Channel.supply more) s) ∧
      s.store.channel.IsBuffer := by
  obtain ⟨code, limit, hcode, hrun⟩ := h
  obtain ⟨⟨limit', hrun'⟩, hbuffer⟩ :=
    (seesStream code).endsIn_supply (Channel.isBuffer_ofInput input) ⟨limit, hrun⟩ he more
  exact ⟨⟨code, limit', hcode, hrun'⟩, hbuffer⟩

theorem Direct.Ends.supply {t : State} (h : Ends source size input e t)
    (he : ∀ i, e ≠ .failed (.noInput i)) (more : List Char) :
    Ends source size (input ++ more) e (exchange (Channel.supply more) t) ∧
      t.store.channel.IsBuffer := by
  obtain ⟨loops, limit, hloops, hrun⟩ := h
  obtain ⟨⟨limit', hrun'⟩, hbuffer⟩ :=
    (seesStream _ loops).endsIn_supply (Channel.isBuffer_ofInput input) ⟨limit, hrun⟩ he more
  exact ⟨⟨loops, limit', hloops, hrun'⟩, hbuffer⟩

theorem Compiled.Ends.output_prefix {s s' : State} {more : List Char}
    (h : Ends source size input (.failed (.noInput i)) s)
    (h' : Ends source size (input ++ more) e' s') :
    s.store.channel.output.toList <+: s'.store.channel.output.toList := by
  obtain ⟨code, limit, hcode, hrun⟩ := h
  obtain ⟨code', limit', hcode', hrun'⟩ := h'
  obtain rfl := Except.ok.inj (hcode.symm.trans hcode')
  exact (seesStream code).output_prefix_of_noInput (Channel.isBuffer_ofInput input) ⟨limit, hrun⟩
    more ⟨limit', hrun'⟩

theorem Direct.Ends.output_prefix {t t' : State} {more : List Char}
    (h : Ends source size input (.failed (.noInput i)) t)
    (h' : Ends source size (input ++ more) e' t') :
    t.store.channel.output.toList <+: t'.store.channel.output.toList := by
  obtain ⟨loops, limit, hloops, hrun⟩ := h
  obtain ⟨loops', limit', hloops', hrun'⟩ := h'
  obtain rfl := Except.ok.inj (hloops.symm.trans hloops')
  exact (seesStream _ loops).output_prefix_of_noInput (Channel.isBuffer_ofInput input)
    ⟨limit, hrun⟩ more ⟨limit', hrun'⟩

/-- A run that does not end for want of input ends in the same way when there is more, which is then
left unread. If it does end for want of input, the run on more input begins with its output. -/
theorem ends_supply (source : List Symbol) (size : TapeSize) (input more : List Char) :
    (∀ e s, Compiled.Ends source size input e s → (∀ i, e ≠ .failed (.noInput i)) →
      ∃ s', Compiled.Ends source size (input ++ more) e s' ∧ s'.ip = s.ip ∧
        s.store.Supplied more s'.store) ∧
    (∀ i s e' s', Compiled.Ends source size input (.failed (.noInput i)) s →
      Compiled.Ends source size (input ++ more) e' s' →
        s.store.channel.output.toList <+: s'.store.channel.output.toList) ∧
    (∀ e t, Direct.Ends source size input e t → (∀ i, e ≠ .failed (.noInput i)) →
      ∃ t', Direct.Ends source size (input ++ more) e t' ∧ t'.pc = t.pc ∧
        t.store.Supplied more t'.store) ∧
    ∀ i t e' t', Direct.Ends source size input (.failed (.noInput i)) t →
      Direct.Ends source size (input ++ more) e' t' →
        t.store.channel.output.toList <+: t'.store.channel.output.toList := by
  refine ⟨fun e s h he => ?_, fun i s e' s' h h' => h.output_prefix h', fun e t h he => ?_,
    fun i t e' t' h h' => h.output_prefix h'⟩
  · obtain ⟨hends, hbuffer⟩ := h.supply he more
    exact ⟨_, hends, rfl, Store.supplied_supply hbuffer more⟩
  · obtain ⟨hends, hbuffer⟩ := h.supply he more
    exact ⟨_, hends, rfl, Store.supplied_supply hbuffer more⟩

/-- The source `,.<.` leaves the tape after its first character. The source `,.,.` needs two. -/
theorem ends_supply_second :
    (∃ t, Direct.Ends (symbols ",.<.") ⟨1, by decide⟩ ['a', 'b'] (.failed (.offTape (-1) 1)) t ∧
      t.store.channel.output = "a" ∧ t.store.channel.unread = ['b']) ∧
    ∀ e' s', Compiled.Ends (symbols ",.,.") ⟨1, by decide⟩ ['a', 'b'] e' s' →
      "a".toList <+: s'.store.channel.output.toList := by
  constructor
  · obtain ⟨t, ends, -, supplied⟩ :=
      (ends_supply (symbols ",.<.") ⟨1, by decide⟩ ['a'] ['b']).2.2.1 (.failed (.offTape (-1) 1))
        ⟨3, ⟨1, #[some 97], -1, .buffer [] #["a"]⟩⟩
        ⟨⟨#[none, none, none, none]⟩, 10, by decide +kernel, by decide +kernel⟩ (by simp)
    exact ⟨t, ends, supplied.output, supplied.unread⟩
  · intro e' s' ends
    exact (ends_supply (symbols ",.,.") ⟨1, by decide⟩ ['a'] ['b']).2.1 2
      ⟨2, ⟨1, #[some 97], 0, .buffer [] #["a"]⟩⟩ e' s'
      ⟨#[⟨.read, none⟩, ⟨.print, none⟩, ⟨.read, none⟩, ⟨.print, none⟩, ⟨.stop, none⟩], 10,
        by decide +kernel, by decide +kernel⟩ ends

end TapeMachine
