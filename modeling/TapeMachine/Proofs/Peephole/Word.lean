import Mathlib.Tactic
import TapeMachine.Store
import TapeMachine.Command

/-!
# Straight words

A straight word consists of moves and additions. All that it does to a tape is said by two
things: how far it moves the pointer in all (`net`), and how much it adds to the cell at each
distance from its start (`tally`). Sums are taken modulo 256, as cells are.
-/
namespace TapeMachine

namespace Command

def isMove : Command → Bool
  | left | right => true
  | _ => false

def isAddition : Command → Bool
  | increment | decrement => true
  | _ => false

def isStraight (c : Command) : Bool := c.isMove || c.isAddition

/-- How far a command moves the pointer. -/
def shift : Command → ℤ
  | right => 1
  | left => -1
  | _ => 0

/-- How much a command adds to the cell at the pointer. -/
def amount : Command → ℤ
  | increment => 1
  | decrement => -1
  | _ => 0

theorem shift_of_isAddition {c : Command} (h : c.isAddition = true) : c.shift = 0 := by
  cases c <;> simp_all [isAddition, shift]

theorem amount_of_isMove {c : Command} (h : c.isMove = true) : c.amount = 0 := by
  cases c <;> simp_all [isMove, amount]

theorem isMove_eq_false_of_isAddition {c : Command} (h : c.isAddition = true) :
    c.isMove = false := by
  cases c <;> simp_all [isAddition, isMove]

theorem isAddition_eq_false_of_isMove {c : Command} (h : c.isMove = true) :
    c.isAddition = false := by
  cases c <;> simp_all [isAddition, isMove]

end Command

/-- What a cell can hold. -/
def SignedByte (v : ℤ) : Prop := -128 ≤ v ∧ v ≤ 127

instance (v : ℤ) : Decidable (SignedByte v) := inferInstanceAs (Decidable (_ ∧ _))

theorem signedByte_wrap (v : ℤ) : SignedByte (wrap v) := ⟨neg_le_wrap v, wrap_le v⟩

theorem SignedByte.wrap_eq {v : ℤ} (h : SignedByte v) : wrap v = v := wrap_of_signedByte h.1 h.2

theorem dvd_sub_wrap (v : ℤ) : (256 : ℤ) ∣ v - wrap v := by
  simp only [wrap, Int.bmod_def]
  omega

theorem wrap_eq_wrap_iff {v w : ℤ} : wrap v = wrap w ↔ (256 : ℤ) ∣ v - w := by
  simp only [wrap, Int.bmod_def]
  omega

abbrev Word := List Command

namespace Word

variable {u v w : Word} {n m a b q : ℤ} {c : Command}

def net (w : Word) : ℤ := (w.map Command.shift).sum

@[simp] theorem net_nil : net [] = 0 := rfl

@[simp] theorem net_cons (c : Command) (w : Word) : net (c :: w) = c.shift + net w := by
  simp [net]

@[simp] theorem net_append (u v : Word) : net (u ++ v) = net u + net v := by
  simp [net]

/-- How much a word adds at the distance `q` from where it starts. -/
def tally : Word → (q : ℤ) → ℤ
  | [], _ => 0
  | c :: w, q => (if q = 0 then c.amount else 0) + tally w (q - c.shift)

@[simp] theorem tally_nil (q : ℤ) : tally [] q = 0 := rfl

theorem tally_append (u v : Word) (q : ℤ) :
    tally (u ++ v) q = tally u q + tally v (q - net u) := by
  induction u generalizing q with
  | nil => simp
  | cons c u ih =>
    rw [List.cons_append, tally, tally, ih, net_cons, add_assoc, sub_sub]

/-- A straight word that moves by `n` in all and adds `a` where it starts and nothing elsewhere. -/
structure Acts (w : Word) (n a : ℤ) : Prop where
  straight : ∀ c ∈ w, c.isStraight = true
  net : net w = n
  here : (256 : ℤ) ∣ tally w 0 - a
  elsewhere : ∀ q ≠ 0, (256 : ℤ) ∣ tally w q

namespace Acts

theorem nil : Acts [] 0 0 := ⟨by simp, rfl, by simp, by simp⟩

theorem ne_nil (h : Acts w n a) (hn : n ≠ 0) : w ≠ [] := by
  rintro rfl
  exact hn h.net.symm

theorem single_move (h : c.isMove = true) : Acts [c] c.shift 0 := by
  refine ⟨by simp [Command.isStraight, h], by simp, ?_, ?_⟩
  · simp [tally, Command.amount_of_isMove h]
  · intro q hq
    simp [tally, hq]

theorem single_addition (h : c.isAddition = true) : Acts [c] 0 c.amount := by
  refine ⟨by simp [Command.isStraight, h], by simp [Command.shift_of_isAddition h], ?_, ?_⟩
  · simp [tally]
  · intro q hq
    simp [tally, hq]

/-- The second word must add nothing, or start where the first one does. -/
theorem append (hu : Acts u n a) (hv : Acts v m b) (h : n = 0 ∨ b = 0) :
    Acts (u ++ v) (n + m) (a + b) := by
  refine ⟨?_, by rw [net_append, hu.net, hv.net], ?_, ?_⟩
  · intro c hc
    exact (List.mem_append.mp hc).elim (hu.straight c) (hv.straight c)
  · have h₁ := hu.here
    rw [tally_append, hu.net]
    by_cases hn : n = 0
    · have h₂ := hv.here
      rw [hn, sub_zero]
      omega
    · have h₂ := hv.elsewhere (0 - n) (by omega)
      have := h.resolve_left hn
      omega
  · intro q hq
    have h₁ := hu.elsewhere q hq
    rw [tally_append, hu.net]
    by_cases hqn : q - n = 0
    · have h₂ := hv.here
      have : b = 0 := h.resolve_left (by omega)
      rw [hqn]
      omega
    · exact dvd_add h₁ (hv.elsewhere _ hqn)

theorem append_idle (hu : Acts u n a) (hv : Acts v 0 0) : Acts (u ++ v) n a := by
  simpa using hu.append hv (.inr rfl)

theorem congr (h : Acts w n a) (hab : (256 : ℤ) ∣ a - b) : Acts w n b := by
  refine ⟨h.straight, h.net, ?_, h.elsewhere⟩
  have := h.here
  omega

theorem wrap (h : Acts w n a) : Acts w n (wrap a) := h.congr (dvd_sub_wrap a)

end Acts

/-- Somewhere an addition stands at the place where the word ends. -/
def Settled (w : Word) : Prop := ∃ u c v, w = u ++ c :: v ∧ c.isAddition = true ∧ net v = 0

theorem Settled.append (h : Settled w) (hv : Acts v 0 0) : Settled (w ++ v) := by
  obtain ⟨x, c, y, rfl, hc, hy⟩ := h
  exact ⟨x, c, y ++ v, by simp, hc, by rw [net_append, hy, hv.net, add_zero]⟩

theorem Settled.of_cons (h : Settled (c :: w)) (hc : c.isAddition = true → net w ≠ 0) :
    Settled w := by
  obtain ⟨x, d, y, heq, hd, hy⟩ := h
  cases x with
  | nil =>
    obtain ⟨rfl, rfl⟩ := List.cons.inj heq
    exact absurd hy (hc hd)
  | cons e x => exact ⟨x, d, y, (List.cons.inj heq).2, hd, hy⟩

theorem not_settled_nil : ¬ Settled [] := by
  rintro ⟨x, d, y, heq, -⟩
  simp at heq

theorem Settled.of_idle (hc : c.isAddition = true) (h : net (c :: v) = 0) :
    Settled (u ++ c :: v) := by
  rw [net_cons, Command.shift_of_isAddition hc, zero_add] at h
  exact ⟨u, c, v, rfl, hc, h⟩

/-- How far the straight part at the head of a word moves. -/
def ahead : Word → ℤ
  | [] => 0
  | c :: w => if c.isStraight then c.shift + ahead w else 0

/-- Every command with a mark; marked are the additions that do not stand where the straight part
around them ends. -/
def marks : Word → List (Command × Bool)
  | [] => []
  | c :: w => (c, c.isAddition && ahead w != 0) :: marks w

@[simp] theorem length_marks (w : Word) : (marks w).length = w.length := by
  induction w with
  | nil => rfl
  | cons c w ih => simp [marks, ih]

@[simp] theorem map_fst_marks (w : Word) : (marks w).map Prod.fst = w := by
  induction w with
  | nil => rfl
  | cons c w ih => simp [marks, ih]

theorem ahead_eq_net (h : ∀ c ∈ w, c.isStraight = true) : ahead w = net w := by
  induction w with
  | nil => rfl
  | cons c w ih =>
    rw [ahead, if_pos (h c (by simp)), net_cons, ih fun d hd => h d (by simp [hd])]

theorem ahead_append (hv : ahead v = 0) : ahead (u ++ v) = ahead u := by
  induction u with
  | nil => exact hv
  | cons c u ih => rw [List.cons_append, ahead, ahead, ih]

theorem marks_append (hv : ahead v = 0) : marks (u ++ v) = marks u ++ marks v := by
  induction u with
  | nil => rfl
  | cons c u ih => rw [List.cons_append, marks, marks, ih, ahead_append hv, List.cons_append]

end Word
end TapeMachine
