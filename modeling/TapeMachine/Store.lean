import TapeMachine.Fault

/-!
# The store

What a running program works on: a tape of cells, a data pointer and a channel.

A cell holds a signed byte.  Sums are folded back into −128 … 127 by `wrap`, and folding may be put
off to the end of a sum (`wrap_wrap_add`), which is why several increments can be added up before
they reach a cell.  All that a program can learn from a channel is its next character
(`Channel.read`); what has been written is kept in the order of writing.  The pointer may stand
outside the tape; it has a cell only while it is inside (`Store.cell?`).
-/
namespace TapeMachine

/-- What a cell holds: a number, or nothing once an operation without a payload has been stored. -/
abbrev Cell := Option Int

/-- The signed byte congruent to `v` modulo 256. -/
def wrap (v : Int) : Int := v.bmod 256

theorem neg_le_wrap (v : Int) : -128 ≤ wrap v := by
  have := Int.le_bmod (x := v) (m := 256) (by decide)
  simpa [wrap] using this

theorem wrap_le (v : Int) : wrap v ≤ 127 := by
  have := Int.bmod_lt (x := v) (m := 256) (by decide)
  simp only [wrap]
  omega

theorem wrap_of_signedByte {v : Int} (lo : -128 ≤ v) (hi : v ≤ 127) : wrap v = v := by
  simp only [wrap, Int.bmod_def]
  omega

@[simp] theorem wrap_wrap_add (a b : Int) : wrap (wrap a + b) = wrap (a + b) := by
  simp [wrap]

@[simp] theorem wrap_add_wrap (a b : Int) : wrap (a + wrap b) = wrap (a + b) := by
  simp [wrap]

/-- Only the low eight bits of a number are printed. -/
def byteChar (v : Int) : Char := Char.ofNat (v % 256).toNat

inductive Channel
  /-- Never has input and keeps nothing; other kinds of channel are variations of it. -/
  | plain
  /-- Never has input and discards what is written. -/
  | null
  /-- Holds its input, and keeps each text written as a piece of its own. -/
  | buffer (unread : List Char) (pieces : Array String)
  /-- Reads from a terminal's input and prints as it goes. -/
  | console (unread : List Char) (printed : String)
  deriving DecidableEq, Repr, Inhabited

namespace Channel

def ofInput (input : List Char) : Channel := buffer input #[]

/-- The next character, if there is one, and the channel without it. -/
def read : Channel → Option (Char × Channel)
  | buffer (c :: unread) pieces => some (c, buffer unread pieces)
  | console (c :: unread) printed => some (c, console unread printed)
  | _ => none

def write (text : String) : Channel → Channel
  | buffer unread pieces => buffer unread (pieces.push text)
  | console unread printed => console unread (printed ++ text)
  | silent => silent

def unread : Channel → List Char
  | buffer unread _ => unread
  | console unread _ => unread
  | _ => []

/-- All that has been written and kept, in one text. -/
def output : Channel → String
  | buffer _ pieces => String.join pieces.toList
  | console _ printed => printed
  | _ => ""

@[simp] theorem unread_write (text : String) (ch : Channel) : (ch.write text).unread = ch.unread := by
  cases ch <;> rfl

@[simp] theorem output_write_buffer (text : String) (unread : List Char) (pieces : Array String) :
    ((buffer unread pieces).write text).output = (buffer unread pieces).output ++ text := by
  simp [write, output, String.join_append]

@[simp] theorem output_write_console (text : String) (unread : List Char) (printed : String) :
    ((console unread printed).write text).output = (console unread printed).output ++ text := rfl

theorem unread_of_read {ch rest : Channel} {c : Char} (h : ch.read = some (c, rest)) :
    ch.unread = c :: rest.unread := by
  unfold read at h
  split at h <;> simp_all [unread]
  all_goals obtain ⟨rfl, rfl⟩ := h; simp

theorem output_of_read {ch rest : Channel} {c : Char} (h : ch.read = some (c, rest)) :
    rest.output = ch.output := by
  unfold read at h
  split at h <;> simp_all [output]
  all_goals obtain ⟨_, rfl⟩ := h; simp

end Channel

/-- A tape made for `size` cells; a tape made for less than one cell has none. -/
structure Store where
  size : Int
  cells : Array Cell
  ptr : Int
  channel : Channel
  deriving DecidableEq, Repr, Inhabited

namespace Store

def blank (size : Int) (channel : Channel) : Store :=
  ⟨size, Array.replicate size.toNat (some 0), 0, channel⟩

def InRange (s : Store) : Prop := 0 ≤ s.ptr ∧ s.ptr < s.size

instance (s : Store) : Decidable s.InRange := inferInstanceAs (Decidable (_ ∧ _))

def offTape (s : Store) : Fault := .offTape s.ptr s.size

def cell? (s : Store) : Option Cell :=
  if 0 ≤ s.ptr then s.cells[s.ptr.toNat]? else none

def put (s : Store) (c : Cell) : Store :=
  { s with cells := s.cells.setIfInBounds s.ptr.toNat c }

/-- Moves the pointer, onto the tape or off it. -/
def shift (s : Store) (n : Int) : Store := { s with ptr := s.ptr + n }

def emit (s : Store) (c : Char) : Store :=
  { s with channel := s.channel.write (String.singleton c) }

@[simp] theorem size_cells_put (s : Store) (c : Cell) : (s.put c).cells.size = s.cells.size := by
  simp [put]

@[simp] theorem size_cells_blank (size : Int) (channel : Channel) :
    (blank size channel).cells.size = size.toNat := by
  simp [blank]

theorem cell?_put {s : Store} (lo : 0 ≤ s.ptr) (hi : s.ptr.toNat < s.cells.size) (c : Cell) :
    (s.put c).cell? = some c := by
  simp [put, cell?, lo, hi]

/-- On a tape with all its cells the pointer has a cell exactly while it is in range. -/
theorem isSome_cell?_iff {s : Store} (full : s.cells.size = s.size.toNat) :
    s.cell?.isSome ↔ s.InRange := by
  unfold cell? InRange
  split
  · rw [isSome_getElem?, full]
    omega
  · simp only [Option.isSome_none, Bool.false_eq_true, false_iff]
    omega

end Store
end TapeMachine
