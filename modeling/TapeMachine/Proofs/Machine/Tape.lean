import TapeMachine.Proofs.Peephole.Word
import TapeMachine.Store

/-!
# Tapes of signed bytes

While a machine runs, its tape keeps its length and every cell holds a signed byte. On such a
tape the pointer has a cell whenever it is in range, and changes of the whole tape (`bump`) add
up modulo 256.
-/
namespace TapeMachine

/-- What later stages of a run have written and read in addition. -/
structure Channel.Extends (earlier later : Channel) : Prop where
  output : earlier.output.toList <+: later.output.toList
  unread : later.unread <:+ earlier.unread

namespace Channel

variable {a b c : Channel}

theorem Extends.refl (a : Channel) : Extends a a := ⟨List.prefix_rfl, List.suffix_rfl⟩

theorem Extends.trans (h : Extends a b) (h' : Extends b c) : Extends a c :=
  ⟨h.output.trans h'.output, h'.unread.trans h.unread⟩

theorem extends_write (a : Channel) (text : String) : Extends a (a.write text) := by
  refine ⟨?_, by rw [unread_write]⟩
  cases a with
  | plain => exact List.prefix_rfl
  | null => exact List.prefix_rfl
  | buffer unread pieces =>
    rw [output_write_buffer, String.toList_append]
    exact List.prefix_append _ _
  | console unread printed =>
    rw [output_write_console, String.toList_append]
    exact List.prefix_append _ _

theorem extends_of_read {x : Char} (h : a.read = some (x, b)) : Extends a b := by
  refine ⟨by rw [output_of_read h], ?_⟩
  rw [unread_of_read h]
  exact List.suffix_cons x _

/-- Writing adds to the output nothing but the text. -/
theorem mem_output_write {text : String} {x : Char} (h : x ∈ (a.write text).output.toList) :
    x ∈ a.output.toList ∨ x ∈ text.toList := by
  cases a with
  | plain => exact .inl h
  | null => exact .inl h
  | buffer unread pieces =>
    rwa [output_write_buffer, String.toList_append, List.mem_append] at h
  | console unread printed =>
    rwa [output_write_console, String.toList_append, List.mem_append] at h

end Channel

theorem toNat_byteChar (v : ℤ) : ((byteChar v).toNat : ℤ) = v % 256 := by
  have hvalid : (v % 256).toNat.isValidChar := .inl (by omega)
  rw [byteChar, Char.ofNat, dif_pos hvalid]
  exact Int.toNat_of_nonneg (Int.emod_nonneg v (by decide))

theorem toNat_byteChar_lt (v : ℤ) : (byteChar v).toNat < 256 := by
  have h := toNat_byteChar v
  omega

namespace Store

/-- All cells are there, and each holds a signed byte. -/
structure Bytes (s : Store) : Prop where
  full : s.cells.size = s.size.toNat
  byte : ∀ c ∈ s.cells, ∃ v, c = some v ∧ SignedByte v

namespace Bytes

variable {s : Store} {v n : ℤ}

theorem blank (size : ℤ) (channel : Channel) : (Store.blank size channel).Bytes := by
  refine ⟨size_cells_blank size channel, fun c hc => ⟨0, ?_, by decide⟩⟩
  exact Array.eq_of_mem_replicate hc

theorem shift (h : s.Bytes) (n : ℤ) : (s.shift n).Bytes := ⟨h.full, h.byte⟩

theorem emit (h : s.Bytes) (c : Char) : (s.emit c).Bytes := ⟨h.full, h.byte⟩

theorem withChannel (h : s.Bytes) (ch : Channel) : Bytes { s with channel := ch } :=
  ⟨h.full, h.byte⟩

theorem put (h : s.Bytes) (hv : SignedByte v) : (s.put (some v)).Bytes := by
  refine ⟨by rw [size_cells_put]; exact h.full, fun c hc => ?_⟩
  rcases Array.mem_or_eq_of_mem_setIfInBounds hc with hc | rfl
  · exact h.byte c hc
  · exact ⟨v, rfl, hv⟩

/-- In range the pointer has a cell. -/
theorem exists_cell (h : s.Bytes) (hr : s.InRange) :
    ∃ v, s.cell? = some (some v) ∧ SignedByte v := by
  obtain ⟨c, hc⟩ := Option.isSome_iff_exists.mp ((isSome_cell?_iff h.full).mpr hr)
  rw [cell?, if_pos hr.1] at hc
  obtain ⟨v, rfl, hv⟩ := h.byte c (Array.mem_of_getElem? hc)
  exact ⟨v, by rw [cell?, if_pos hr.1, hc], hv⟩

theorem cell?_put (h : s.Bytes) (hr : s.InRange) (c : Cell) : (s.put c).cell? = some c := by
  apply Store.cell?_put hr.1
  rw [h.full]
  exact (Int.toNat_lt_toNat (hr.1.trans_lt hr.2)).mpr hr.2

end Bytes

theorem put_put (s : Store) (c d : Cell) : (s.put c).put d = s.put d := by
  simp [put]

/-- Writing what is there changes nothing. -/
theorem put_cell {s : Store} {c : Cell} (hr : s.InRange) (hc : s.cell? = some c) :
    s.put c = s := by
  rw [cell?, if_pos hr.1] at hc
  obtain ⟨hlt, rfl⟩ := Array.getElem?_eq_some_iff.mp hc
  have hcells : s.cells.setIfInBounds s.ptr.toNat s.cells[s.ptr.toNat] = s.cells := by
    simp [Array.setIfInBounds, hlt]
  rw [put, hcells]

/-- Adds to every cell the amount given for its place. -/
def bump (s : Store) (f : ℤ → ℤ) : Store :=
  { s with cells := s.cells.mapIdx fun i c => c.map fun v => wrap (v + f i) }

section Bump

variable {s : Store} {f g : ℤ → ℤ} {v n : ℤ}

theorem shift_shift (s : Store) (m n : ℤ) : (s.shift m).shift n = s.shift (m + n) := by
  simp [shift, add_assoc]

@[simp] theorem shift_zero (s : Store) : s.shift 0 = s := by
  simp [shift]

theorem bump_shift (s : Store) (f : ℤ → ℤ) (n : ℤ) : (s.shift n).bump f = (s.bump f).shift n := rfl

theorem bump_bump (s : Store) (f g : ℤ → ℤ) :
    (s.bump f).bump g = s.bump fun q => f q + g q := by
  simp only [bump, Array.mapIdx_mapIdx, Function.comp_def, Option.map_map, wrap_wrap_add, add_assoc]

theorem bump_congr (h : ∀ q, (256 : ℤ) ∣ f q - g q) (s : Store) : s.bump f = s.bump g := by
  have heq : ∀ v q, wrap (v + f q) = wrap (v + g q) := by
    intro v q
    rw [wrap_eq_wrap_iff]
    have := h q
    omega
  simp only [bump, heq]

/-- Multiples of 256 make no difference, nor does anything off the tape. -/
theorem Bytes.bump_eq_self (h : s.Bytes) (hf : ∀ q, 0 ≤ q → q < s.size → (256 : ℤ) ∣ f q) :
    s.bump f = s := by
  have hcells : s.cells.mapIdx (fun i c => c.map fun v => wrap (v + f i)) = s.cells := by
    apply Array.ext_getElem?
    intro i
    rw [Array.getElem?_mapIdx]
    cases hc : s.cells[i]? with
    | none => rfl
    | some c =>
      obtain ⟨v, rfl, hv⟩ := h.byte c (Array.mem_of_getElem? hc)
      have hlt := (Array.getElem?_eq_some_iff.mp hc).1
      have hfull := h.full
      have hdvd := hf i (by omega) (by omega)
      have : wrap (v + f i) = wrap v := by
        rw [wrap_eq_wrap_iff]
        omega
      simp [this, hv.wrap_eq]
  simp only [bump, hcells]

theorem Bytes.bump_off (h : s.Bytes) (hr : ¬ s.InRange) (n : ℤ) :
    (s.bump fun q => if q = s.ptr then n else 0) = s := by
  apply h.bump_eq_self
  intro q hlo hhi
  rw [if_neg (by rintro rfl; exact hr ⟨hlo, hhi⟩)]
  exact dvd_zero 256

/-- An addition at the pointer is a change of the whole tape. -/
theorem Bytes.put_eq_bump (h : s.Bytes) (hr : s.InRange) (hv : s.cell? = some (some v)) (n : ℤ) :
    s.put (some (wrap (v + n))) = s.bump fun q => if q = s.ptr then n else 0 := by
  have hcells : s.cells.setIfInBounds s.ptr.toNat (some (wrap (v + n))) =
      s.cells.mapIdx fun i c => c.map fun v => wrap (v + if (i : ℤ) = s.ptr then n else 0) := by
    rw [cell?, if_pos hr.1] at hv
    obtain ⟨hlt, -⟩ := Array.getElem?_eq_some_iff.mp hv
    apply Array.ext_getElem?
    intro i
    rw [Array.getElem?_mapIdx]
    by_cases hi : s.ptr.toNat = i
    · subst hi
      rw [Array.getElem?_setIfInBounds_self_of_lt hlt, hv]
      simp [Int.toNat_of_nonneg hr.1]
    · have hne : (i : ℤ) ≠ s.ptr := by omega
      rw [Array.getElem?_setIfInBounds_ne hi]
      cases hc : s.cells[i]? with
      | none => rfl
      | some c =>
        obtain ⟨w, rfl, hw⟩ := h.byte c (Array.mem_of_getElem? hc)
        simp [hne, hw.wrap_eq]
  simp only [Store.put, bump, hcells]

end Bump

/-- What one step of a machine may do to the store. -/
inductive Touch (s : Store) : Store → Prop
  | stay : Touch s s
  | shift (n : ℤ) : Touch s (s.shift n)
  | put {v : ℤ} (hv : SignedByte v) : Touch s (s.put (some v))
  | emit (v : ℤ) : Touch s (s.emit (byteChar v))
  | read {c : Char} {rest : Channel} (h : s.channel.read = some (c, rest)) :
    Touch s ({ s with channel := rest }.put (some (wrap c.toNat)))

namespace Touch

variable {s t : Store}

theorem bytes (h : Touch s t) (hs : s.Bytes) : t.Bytes := by
  cases h with
  | stay => exact hs
  | shift n => exact hs.shift n
  | put hv => exact hs.put hv
  | emit v => exact hs.emit _
  | read h => exact (hs.withChannel _).put (signedByte_wrap _)

theorem size (h : Touch s t) : t.size = s.size := by
  cases h <;> rfl

theorem channel (h : Touch s t) : s.channel.Extends t.channel := by
  cases h with
  | stay => exact .refl _
  | shift n => exact .refl _
  | put hv => exact .refl _
  | emit v => exact Channel.extends_write _ _
  | read h => exact Channel.extends_of_read h

/-- No more than the low eight bits of a number are ever written. -/
theorem output (h : Touch s t) (hs : ∀ c ∈ s.channel.output.toList, c.toNat < 256) :
    ∀ c ∈ t.channel.output.toList, c.toNat < 256 := by
  cases h with
  | stay => exact hs
  | shift n => exact hs
  | put hv => exact hs
  | emit v =>
    intro c hc
    rcases Channel.mem_output_write hc with hc | hc
    · exact hs c hc
    · obtain rfl : c = byteChar v := by simpa using hc
      exact toNat_byteChar_lt v
  | read h =>
    intro c hc
    exact hs c (Channel.output_of_read h ▸ hc)

end Touch
end Store
end TapeMachine
