import TapeMachine.Proofs.Machine.Demands
import TapeMachine.Proofs.Machine.Ends

/-!
# Bytes of the input

A character is folded into a signed byte as it is read. So a run cannot tell apart two inputs of
the same length whose characters agree modulo 256, place by place.
-/
namespace TapeMachine

open HoldsChannel

/-- The character with the code point's low eight bits. -/
def lowByte (x : Char) : Char := byteChar x.toNat

theorem wrap_lowByte (x : Char) : wrap (lowByte x).toNat = wrap x.toNat := by
  rw [lowByte, toNat_byteChar, wrap_eq_wrap_iff]
  omega

theorem lowByte_congr {x y : Char} (h : x.toNat % 256 = y.toNat % 256) : lowByte x = lowByte y := by
  have hcast : (x.toNat : ℤ) % 256 = y.toNat % 256 := by exact_mod_cast h
  rw [lowByte, lowByte, byteChar, byteChar, hcast]

/-- Two inputs agree modulo 256, character by character. -/
abbrev SameBytes : List Char → List Char → Prop :=
  List.Forall₂ fun x y => x.toNat % 256 = y.toNat % 256

theorem SameBytes.map_lowByte {input input' : List Char} (h : SameBytes input input') :
    input.map lowByte = input'.map lowByte := by
  induction h with
  | nil => rfl
  | cons hx _ ih => rw [List.map_cons, List.map_cons, lowByte_congr hx, ih]

namespace Channel

/-- The channel with every unread character replaced by its low byte. -/
def lowBytes : Channel → Channel
  | buffer unread pieces => buffer (unread.map lowByte) pieces
  | console unread printed => console (unread.map lowByte) printed
  | silent => silent

@[simp] theorem output_lowBytes (a : Channel) : a.lowBytes.output = a.output := by
  cases a <;> rfl

@[simp] theorem length_unread_lowBytes (a : Channel) :
    a.lowBytes.unread.length = a.unread.length := by
  cases a <;> simp [lowBytes, unread]

theorem read_lowBytes_of_none {a : Channel} (h : a.read = none) : a.lowBytes.read = none := by
  cases a with
  | plain | null => rfl
  | buffer unread pieces | console unread pieces =>
    cases unread with
    | nil => rfl
    | cons x unread => cases h

theorem unnoticed_lowBytes : Unnoticed lowBytes fun _ => True where
  write a text _ := ⟨trivial, by cases a <;> rfl⟩
  read a x rest _ h := by
    refine ⟨trivial, lowByte x, ?_, wrap_lowByte x⟩
    cases a with
    | plain | null => cases h
    | buffer unread pieces | console unread pieces =>
      cases unread with
      | nil => cases h
      | cons y unread =>
        cases h
        rfl

theorem lowBytes_ofInput_congr {input input' : List Char} (h : SameBytes input input') :
    (ofInput input).lowBytes = (ofInput input').lowBytes := by
  simp only [ofInput, lowBytes, h.map_lowByte]

end Channel

/-- What is seen of a run that ends: how it ends, what it writes and how much input it leaves. -/
def Compiled.Shows (source : List Symbol) (size : TapeSize) (input : List Char) (e : Ending)
    (output : String) (left : ℕ) : Prop :=
  ∃ s, Ends source size input e s ∧ s.store.channel.output = output ∧
    s.store.channel.unread.length = left

@[inherit_doc Compiled.Shows]
def Direct.Shows (source : List Symbol) (size : TapeSize) (input : List Char) (e : Ending)
    (output : String) (left : ℕ) : Prop :=
  ∃ t, Ends source size input e t ∧ t.store.channel.output = output ∧
    t.store.channel.unread.length = left

namespace SeesStream

variable {σ : Type} [HoldsChannel σ] {step : σ → Step σ} {s s' t : σ} {e : Ending}

/-- Two runs on the same bytes end in the same way, with the same output and as much unread. -/
theorem endsIn_of_lowBytes_eq (h : SeesStream step)
    (heq : exchange Channel.lowBytes s = exchange Channel.lowBytes s') (run : EndsIn step s e t) :
    ∃ t', EndsIn step s' e t' ∧ (channel t').output = (channel t).output ∧
      (channel t').unread.length = (channel t).unread.length := by
  obtain ⟨t', run', hstate⟩ := h.endsIn_of_exchange_eq Channel.unnoticed_lowBytes
    (fun _ _ => Channel.read_lowBytes_of_none) trivial trivial heq run
  have hchannel := congrArg channel hstate
  rw [channel_exchange, channel_exchange] at hchannel
  refine ⟨t', run', ?_, ?_⟩
  · rw [← Channel.output_lowBytes, hchannel, Channel.output_lowBytes]
  · rw [← Channel.length_unread_lowBytes, hchannel, Channel.length_unread_lowBytes]

end SeesStream

variable {source : List Symbol} {size : TapeSize} {input input' : List Char} {e : Ending}
  {output : String} {left : ℕ}

theorem Compiled.Shows.of_sameBytes (same : SameBytes input input')
    (h : Shows source size input e output left) : Shows source size input' e output left := by
  obtain ⟨s, ⟨code, limit, hcode, hrun⟩, rfl, rfl⟩ := h
  have heq : exchange Channel.lowBytes (State.initial size.val (.ofInput input)) =
      exchange Channel.lowBytes (State.initial size.val (.ofInput input')) :=
    congrArg (State.initial size.val) (Channel.lowBytes_ofInput_congr same)
  obtain ⟨s', ⟨limit', hrun'⟩, hout, hleft⟩ :=
    (seesStream code).endsIn_of_lowBytes_eq heq ⟨limit, hrun⟩
  exact ⟨s', ⟨code, limit', hcode, hrun'⟩, hout, hleft⟩

theorem Direct.Shows.of_sameBytes (same : SameBytes input input')
    (h : Shows source size input e output left) : Shows source size input' e output left := by
  obtain ⟨t, ⟨loops, limit, hloops, hrun⟩, rfl, rfl⟩ := h
  have heq : exchange Channel.lowBytes (State.initial size.val (.ofInput input)) =
      exchange Channel.lowBytes (State.initial size.val (.ofInput input')) :=
    congrArg (State.initial size.val) (Channel.lowBytes_ofInput_congr same)
  obtain ⟨t', ⟨limit', hrun'⟩, hout, hleft⟩ :=
    (seesStream _ loops).endsIn_of_lowBytes_eq heq ⟨limit, hrun⟩
  exact ⟨t', ⟨loops, limit', hloops, hrun'⟩, hout, hleft⟩

/-- On inputs with the same bytes a source, or a program, ends on both or on neither, and nothing
that is seen of its runs tells the inputs apart. -/
theorem shows_iff_of_sameBytes (source : List Symbol) (size : TapeSize)
    (same : SameBytes input input') :
    (∀ e output left, Compiled.Shows source size input e output left ↔
      Compiled.Shows source size input' e output left) ∧
    ∀ e output left, Direct.Shows source size input e output left ↔
      Direct.Shows source size input' e output left := by
  have same' : SameBytes input' input := same.flip.imp fun _ _ h => h.symm
  exact ⟨fun _ _ _ => ⟨.of_sameBytes same, .of_sameBytes same'⟩,
    fun _ _ _ => ⟨.of_sameBytes same, .of_sameBytes same'⟩⟩

/-- The letter `š` (U+0161) is read as the letter `a` (U+0061). -/
theorem shows_wide_letter :
    Compiled.Shows (symbols ",[.,-]") ⟨1, by decide⟩ ['š', 'ā'] .halted "a" 0 := by
  have same : SameBytes ['a', '\x01'] ['š', 'ā'] := .cons rfl (.cons rfl .nil)
  refine ((shows_iff_of_sameBytes _ _ same).1 _ _ _).mp
    ⟨⟨6, ⟨1, #[some 0], 0, .buffer [] #["a"]⟩⟩, ⟨#[⟨.read, none⟩, ⟨.openLoop, some 5⟩,
      ⟨.print, none⟩, ⟨.read, none⟩, ⟨.add, some (-1)⟩, ⟨.closeLoop, some 1⟩, ⟨.stop, none⟩], 10,
      by decide +kernel, by decide +kernel⟩, rfl, rfl⟩

end TapeMachine
