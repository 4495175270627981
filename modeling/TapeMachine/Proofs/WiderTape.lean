import TapeMachine.Proofs.Run.Image
import TapeMachine.Proofs.Safety

/-!
# Wider tapes

A run that does not leave the tape on the right cannot tell how far the tape goes on: on a tape
with more cells it ends in the same way, and the additional cells are still zero. This holds for
sources and for their programs.
-/
namespace TapeMachine

/-- The end that a run has if its tape is `k` cells longer. -/
def Ending.widen (k : ℕ) : Ending → Ending
  | failed (.offTape pos size) => failed (.offTape pos (size + k))
  | e => e

/-- The end of a run that has not left a tape of this size on the right. -/
def Ending.Within (size : ℤ) (e : Ending) : Prop :=
  ∀ pos n, e = .failed (.offTape pos n) → pos < size

namespace Store

variable {s : Store} {k : ℕ}

/-- The store with `k` more cells at the end of the tape, all of them zero. -/
def widen (s : Store) (k : ℕ) : Store :=
  { s with size := s.size + k, cells := s.cells ++ Array.replicate k (some 0) }

theorem widen_blank (size k : ℕ) (channel : Channel) :
    (blank size channel).widen k = blank (size + k : ℕ) channel := by
  simp [widen, blank, Array.replicate_append_replicate]
  omega

theorem InRange.widen (h : s.InRange) : (s.widen k).InRange :=
  ⟨h.1, h.2.trans_le (Int.le_add_of_nonneg_right (Int.natCast_nonneg k))⟩

/-- To the left of the tape is to the left of the longer one. -/
theorem not_inRange_widen (h : ¬ s.InRange) (lt : s.ptr < s.size) : ¬ (s.widen k).InRange :=
  fun hw => h ⟨hw.1, lt⟩

theorem Bytes.toNat_ptr_lt (hs : s.Bytes) (h : s.InRange) : s.ptr.toNat < s.cells.size := by
  rw [hs.full]
  exact (Int.toNat_lt_toNat (h.1.trans_lt h.2)).mpr h.2

theorem Bytes.cell?_widen (hs : s.Bytes) (h : s.InRange) : (s.widen k).cell? = s.cell? := by
  simp only [cell?, widen, Array.getElem?_append_left (hs.toNat_ptr_lt h)]

theorem Bytes.put_widen (hs : s.Bytes) (h : s.InRange) (c : Cell) :
    (s.widen k).put c = (s.put c).widen k := by
  simp only [Store.put, widen, Array.setIfInBounds_append_left (hs.toNat_ptr_lt h)]

theorem Bytes.put_withChannel_widen (hs : s.Bytes) (h : s.InRange) (channel : Channel) (c : Cell) :
    Store.put { s.widen k with channel := channel } c =
      (Store.put { s with channel := channel } c).widen k :=
  (hs.withChannel channel).put_widen h c

end Store

namespace Compiled

variable {code : Array Op} {s : State} {k : ℕ} {ip n size : ℤ}

def State.widen (k : ℕ) (s : State) : State := ⟨s.ip, s.store.widen k⟩

/-- What a step comes to on the longer tape. -/
abbrev widened (k : ℕ) : Step State → Step State := Step.image (Ending.widen k) (State.widen k)

theorem move_widen (within : ∀ e t, s.move ip n = .done e t → e.Within s.store.size) :
    (s.widen k).move ip n = widened k (s.move ip n) := by
  unfold State.move at within ⊢
  by_cases hr : (s.store.shift n).InRange
  · have hw : ((s.widen k).store.shift n).InRange := hr.widen
    rw [if_pos hr, if_pos hw]
    rfl
  · rw [if_neg hr] at within ⊢
    have hw : ¬ ((s.widen k).store.shift n).InRange :=
      Store.not_inRange_widen hr (within _ _ rfl _ _ rfl)
    rw [if_neg hw]
    rfl

theorem exec_widen (hs : s.store.Bytes) (hr : s.store.InRange) (op : Op)
    (within : ∀ e t, s.exec op = .done e t → e.Within s.store.size) :
    (s.widen k).exec op = widened k (s.exec op) := by
  obtain ⟨v, hv, -⟩ := hs.exists_cell hr
  have hv' : (s.widen k).store.cell? = some (some v) := (hs.cell?_widen hr).trans hv
  have hput (c : Cell) : (s.widen k).store.put c = (s.store.put c).widen k := hs.put_widen hr c
  obtain ⟨tag, arg⟩ := op
  cases tag with
  | move =>
    cases arg with
    | none => rfl
    | some n => exact move_widen within
  | add =>
    cases arg with
    | none => simp only [State.exec, hv, hv']; rfl
    | some n => simp only [State.exec, hv, hv', hput]; rfl
  | openLoop =>
    simp only [State.exec, hv, hv']
    split_ifs
    · cases arg <;> rfl
    · rfl
  | closeLoop =>
    simp only [State.exec, hv, hv']
    split_ifs
    · rfl
    · cases arg <;> rfl
  | set =>
    simp only [State.exec, hv, hv', hput]
    rfl
  | seek =>
    by_cases h0 : v = 0
    · subst h0
      simp only [State.exec, hv, hv']
      rfl
    · cases arg with
      | none =>
        simp [State.exec, hv, hv', h0]
        rfl
      | some n =>
        rw [exec_seek hv h0] at within ⊢
        rw [exec_seek hv' h0]
        exact move_widen within
  | print =>
    simp only [State.exec, hv, hv']
    rfl
  | read =>
    cases hread : s.store.channel.read with
    | none =>
      have hread' : (s.widen k).store.channel.read = none := hread
      simp only [State.exec, hread, hread']
      rfl
    | some x =>
      obtain ⟨x, rest⟩ := x
      have hread' : (s.widen k).store.channel.read = some (x, rest) := hread
      have hcell : Store.cell? { s.store with channel := rest } = some (some v) := hv
      have hcell' : Store.cell? { (s.widen k).store with channel := rest } = some (some v) := hv'
      have hput : Store.put { (s.widen k).store with channel := rest } (some (wrap x.toNat)) = _ :=
        hs.put_withChannel_widen hr rest _
      simp only [State.exec, hread, hread', hcell, hcell', hput]
      rfl
  | stop => rfl
  | other name => rfl

theorem step_widen (h : Safe code size s)
    (within : ∀ e t, step code s = .done e t → e.Within size) :
    step code (s.widen k) = widened k (step code s) := by
  rw [← h.size_eq] at within
  unfold step at within ⊢
  rw [show (s.widen k).ip = s.ip from rfl]
  cases hop : fetch code s.ip with
  | none => rfl
  | some op =>
    rw [hop] at within
    exact exec_widen h.bytes h.inRange op within

/-- The runs of a program on the longer tape are images of those on the shorter one. -/
theorem images_widen (hc : Closed code) (size : ℤ) (k : ℕ) :
    Images (step code) (step code) (Safe code size) (Ending.Within size) (.widen k) (.widen k) :=
  ⟨fun _ _ h lead => h.of_reaches hc (.single lead), fun _ h within => step_widen h within⟩

end Compiled

namespace Direct

variable {code : Array Symbol} {loops : LoopTable} {s : State} {k : ℕ} {size : ℤ}

def State.widen (k : ℕ) (s : State) : State := ⟨s.pc, s.store.widen k⟩

abbrev widened (k : ℕ) : Step State → Step State := Step.image (Ending.widen k) (State.widen k)

theorem jump_widen : (s.widen k).jump loops = widened k (s.jump loops) := by
  unfold State.jump
  rw [show (s.widen k).pc = s.pc from rfl]
  cases loops.partner? s.pc <;> rfl

theorem exec_widen (hs : s.store.Bytes) (hr : s.store.InRange) (x : Symbol) :
    (s.widen k).exec loops x = widened k (s.exec loops x) := by
  obtain ⟨v, hv, -⟩ := hs.exists_cell hr
  have hv' : (s.widen k).store.cell? = some (some v) := (hs.cell?_widen hr).trans hv
  have hput (c : Cell) : (s.widen k).store.put c = (s.store.put c).widen k := hs.put_widen hr c
  cases x with
  | remark text => rfl
  | command c =>
    cases c with
    | left | right => rfl
    | increment | decrement =>
      simp only [State.exec, State.add, hv, hv', hput]
      rfl
    | output =>
      simp only [State.exec, hv, hv']
      rfl
    | input =>
      cases hread : s.store.channel.read with
      | none =>
        have hread' : (s.widen k).store.channel.read = none := hread
        simp only [State.exec, hread, hread']
        rfl
      | some x =>
        obtain ⟨x, rest⟩ := x
        have hread' : (s.widen k).store.channel.read = some (x, rest) := hread
        have hput : Store.put { (s.widen k).store with channel := rest } (some (wrap x.toNat)) = _ :=
          hs.put_withChannel_widen hr rest _
        simp only [State.exec, hread, hread', hput]
        rfl
    | loopStart =>
      simp only [State.exec, hv, hv']
      split_ifs
      · exact jump_widen
      · rfl
    | loopEnd =>
      simp only [State.exec, hv, hv']
      split_ifs
      · rfl
      · exact jump_widen

/-- Where the pointer is checked, only a pointer to the right of the tape tells its length. -/
theorem check_widen {f g : Step State} (hin : s.store.InRange → g = widened k f)
    (within : ∀ e t, (if s.store.InRange then f else s.fail s.store.offTape) = .done e t →
      e.Within s.store.size) :
    (if (s.widen k).store.InRange then g else (s.widen k).fail (s.widen k).store.offTape) =
      widened k (if s.store.InRange then f else s.fail s.store.offTape) := by
  by_cases hr : s.store.InRange
  · have hw : (s.widen k).store.InRange := hr.widen
    rw [if_pos hr, if_pos hw, hin hr]
  · rw [if_neg hr] at within ⊢
    have hw : ¬ (s.widen k).store.InRange :=
      Store.not_inRange_widen hr (within _ _ rfl _ _ rfl)
    rw [if_neg hw]
    rfl

theorem step_widen (h : Sound size s)
    (within : ∀ e t, step code loops s = .done e t → e.Within size) :
    step code loops (s.widen k) = widened k (step code loops s) := by
  rw [← h.size_eq] at within
  unfold step at within ⊢
  rw [show (s.widen k).pc = s.pc from rfl]
  split at within
  · rfl
  · rfl
  · exact check_widen (fun hr => exec_widen h.bytes hr _) within
  · exact check_widen (fun _ => rfl) within

/-- The runs of a source on the longer tape are images of those on the shorter one. -/
theorem images_widen (code : Array Symbol) (loops : LoopTable) (size : ℤ) (k : ℕ) :
    Images (step code loops) (step code loops) (Sound size) (Ending.Within size) (.widen k) (.widen k) :=
  ⟨fun _ _ h lead => h.of_reaches (.single lead), fun _ h within => step_widen h within⟩

end Direct

section Ends

variable {source : List Symbol} {size size' : TapeSize} {input : List Char} {e : Ending}

theorem Store.widen_blank_sub (le : size.val ≤ size'.val) (channel : Channel) :
    (blank size.val channel).widen (size'.val - size.val) = blank size'.val channel := by
  rw [widen_blank, Nat.add_sub_cancel' le]

theorem Compiled.Ends.widen {s : State} (h : Ends source size input e s)
    (within : e.Within size.val) (le : size.val ≤ size'.val) :
    Ends source size' input (e.widen (size'.val - size.val)) (s.widen (size'.val - size.val)) := by
  obtain ⟨code, limit, hcode, hrun⟩ := h
  have hclosed := closed_of_hasProgram (Account.sound_ofCommands _) (compile_eq_ok_iff.mp hcode)
  have hwide := (images_widen hclosed size.val (size'.val - size.val)).runFor_eq
    (Safe.initial hclosed size input) hrun within
  rw [State.initial, State.widen, Store.widen_blank_sub le] at hwide
  exact ⟨code, limit, hcode, hwide⟩

theorem Direct.Ends.widen {t : State} (h : Ends source size input e t)
    (within : e.Within size.val) (le : size.val ≤ size'.val) :
    Ends source size' input (e.widen (size'.val - size.val)) (t.widen (size'.val - size.val)) := by
  obtain ⟨loops, limit, hloops, hrun⟩ := h
  have hwide := (images_widen (parsed source).toArray loops size.val
    (size'.val - size.val)).runFor_eq ⟨rfl, .blank _ _⟩ hrun within
  rw [State.initial, State.widen, Store.widen_blank_sub le] at hwide
  exact ⟨loops, limit, hloops, hwide⟩

/-- A run that has not left the tape on the right ends in the same way on any longer tape, with
zeros behind the tape that it has left. -/
theorem ends_widen (source : List Symbol) (size size' : TapeSize) (input : List Char)
    (le : size.val ≤ size'.val) (e : Ending) (within : e.Within size.val) :
    (∀ s, Compiled.Ends source size input e s →
      Compiled.Ends source size' input (e.widen (size'.val - size.val))
        (s.widen (size'.val - size.val))) ∧
    ∀ t, Direct.Ends source size input e t →
      Direct.Ends source size' input (e.widen (size'.val - size.val))
        (t.widen (size'.val - size.val)) :=
  ⟨fun _ h => h.widen within le, fun _ h => h.widen within le⟩

/-- The source `+>+<[<]` leaves every tape of two or more cells on the left, and so does its
program. -/
theorem ends_widen_left :
    Compiled.Ends (symbols "+>+<[<]") ⟨4, by decide⟩ [] (.failed (.offTape (-1) 4))
        ⟨4, ⟨4, #[some 1, some 1, some 0, some 0], -1, .ofInput []⟩⟩ ∧
      Direct.Ends (symbols "+>+<[<]") ⟨4, by decide⟩ [] (.failed (.offTape (-1) 4))
        ⟨6, ⟨4, #[some 1, some 1, some 0, some 0], -1, .ofInput []⟩⟩ := by
  have hends := ends_widen (symbols "+>+<[<]") ⟨2, by decide⟩ ⟨4, by decide⟩ [] (by decide)
    (.failed (.offTape (-1) 2)) (by rintro pos n ⟨⟩; decide)
  constructor
  · exact hends.1 ⟨4, ⟨2, #[some 1, some 1], -1, .ofInput []⟩⟩
      ⟨#[⟨.add, some 1⟩, ⟨.move, some 1⟩, ⟨.add, some 1⟩, ⟨.move, some (-1)⟩, ⟨.seek, some (-1)⟩,
        ⟨.stop, none⟩], 10, by decide, by decide⟩
  · exact hends.2 ⟨6, ⟨2, #[some 1, some 1], -1, .ofInput []⟩⟩
      ⟨⟨#[none, none, none, none, some 6, none, some 4]⟩, 10, by decide,
        by decide⟩

end Ends
end TapeMachine
