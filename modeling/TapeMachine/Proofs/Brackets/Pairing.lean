import TapeMachine.Proofs.Brackets.Nesting

/-!
# Matching brackets with a stack

One scan from left to right keeps the positions of the brackets still open and notes a pair at
each closing bracket. On a balanced list the pairs noted are exactly the pairs there are, and
every bracket is in one of them; a scan comes through on balanced lists only.
-/
namespace TapeMachine.Brackets

/-- The pairs in the order of their closing brackets, and why the scan failed if it did. -/
structure Pairing where
  pairs : List (ℕ × ℕ)
  fault : Option Fault

/-- Scans a list, the first entry of which has position `i`; `starts` are the positions of the
open brackets, innermost first. -/
def scan : List (Option Bracket) → (i : ℕ) → (starts : List ℕ) → Pairing
  | [], _, [] => ⟨[], none⟩
  | [], _, _ :: _ => ⟨[], some .missingClose⟩
  | none :: l, i, starts => scan l (i + 1) starts
  | some .opening :: l, i, starts => scan l (i + 1) (i :: starts)
  | some .closing :: _, _, [] => ⟨[], some .missingOpen⟩
  | some .closing :: l, i, start :: starts =>
    ⟨(start, i) :: (scan l (i + 1) starts).pairs, (scan l (i + 1) starts).fault⟩

/-- A closing bracket too many is found on the way, an opening one too many at the end. -/
theorem fault_scan (l : List (Option Bracket)) (i : ℕ) (starts : List ℕ) :
    (scan l i starts).fault =
      if Covers starts.length l then
        if 0 < starts.length + depth l then some .missingClose else none
      else some .missingOpen := by
  fun_induction scan l i starts with
  | case1 => simp
  | case2 i start starts =>
    have hpos : (0 : ℤ) < (start :: starts).length := by simp
    rw [if_pos (covers_nil.mpr hpos.le), depth_nil, add_zero, if_pos hpos]
  | case3 l i starts ih => simp [ih, covers_cons]
  | case4 l i starts ih =>
    simp [ih, covers_cons, add_assoc]
  | case5 i rest =>
    have hcovers : ¬ Covers (0 : ℕ) (some .closing :: rest) := by
      rw [covers_cons]
      rintro ⟨-, h⟩
      simpa using h [] List.nil_prefix
    exact (if_neg hcovers).symm
  | case6 l i start starts ih =>
    have hpos : (0 : ℤ) ≤ starts.length + 1 := by omega
    simp [ih, covers_cons, hpos]

theorem fault_scan_start (l : List (Option Bracket)) :
    (scan l 0 []).fault =
      if Covers 0 l then if 0 < depth l then some .missingClose else none
      else some .missingOpen := by
  simpa using fault_scan l 0 []

theorem fault_scan_eq_missingOpen_iff {l : List (Option Bracket)} :
    (scan l 0 []).fault = some .missingOpen ↔ ¬ Covers 0 l := by
  rw [fault_scan_start]
  split_ifs <;> simp_all

theorem fault_scan_eq_missingClose_iff {l : List (Option Bracket)} :
    (scan l 0 []).fault = some .missingClose ↔ Covers 0 l ∧ 0 < depth l := by
  rw [fault_scan_start]
  split_ifs <;> simp_all

theorem fault_scan_eq_none_iff_balanced {l : List (Option Bracket)} :
    (scan l 0 []).fault = none ↔ Balanced l := by
  rw [fault_scan_start]
  split_ifs with hcovers hopen
  · exact iff_of_false (by simp) fun h => hopen.ne' h.closed
  · have hdepth := hcovers l List.prefix_rfl
    exact iff_of_true rfl ⟨hcovers, by omega⟩
  · exact iff_of_false (by simp) fun h => hcovers h.nested

/-- What the stack says about the part of a list that has been scanned: behind each open bracket
stands a balanced list, and so does in front of the outermost. -/
inductive Stack : List (Option Bracket) → List ℕ → Prop
  | bottom {l : List (Option Bracket)} (h : Balanced l) : Stack l []
  | push {l b : List (Option Bracket)} {starts : List ℕ} (h : Stack l starts) (hb : Balanced b) :
    Stack (l ++ some .opening :: b) (l.length :: starts)

namespace Stack

variable {l b : List (Option Bracket)} {starts : List ℕ}

theorem append (h : Stack l starts) (hb : Balanced b) : Stack (l ++ b) starts := by
  cases h with
  | bottom h => exact .bottom (h.append hb)
  | push h hb' =>
    rw [List.append_assoc, List.cons_append]
    exact .push h (hb'.append hb)

theorem none (h : Stack l starts) : Stack (l ++ [none]) starts :=
  h.append (.of_forall_none (by simp))

theorem opening (h : Stack l starts) : Stack (l ++ [some .opening]) (l.length :: starts) :=
  .push h .nil

/-- A closing bracket closes the innermost open one. -/
theorem pop {start : ℕ} (h : Stack l (start :: starts)) (rest : List (Option Bracket)) :
    Paired (l ++ some .closing :: rest) start l.length ∧
      Stack (l ++ [some .closing]) starts := by
  cases h with
  | @push l b _ h hb =>
    constructor
    · refine ⟨l, b, rest, by simp, rfl, ?_, hb⟩
      rw [List.length_append, List.length_cons]
      omega
    · rw [List.append_assoc, List.cons_append]
      exact h.append hb.loop

end Stack

/-- The pairs noted are pairs of the list. -/
theorem paired_of_mem_scan {l l' : List (Option Bracket)} {starts : List ℕ} {i j : ℕ}
    (stack : Stack l starts) (h : (i, j) ∈ (scan l' l.length starts).pairs) :
    Paired (l ++ l') i j := by
  induction l' generalizing l starts with
  | nil => cases starts <;> simp [scan] at h
  | cons x l' ih =>
    have hlen : l.length + 1 = (l ++ [x]).length := by simp
    rw [← List.singleton_append, ← List.append_assoc]
    match x, starts with
    | none, starts =>
      rw [scan, hlen] at h
      exact ih stack.none h
    | some .opening, starts =>
      rw [scan, hlen] at h
      exact ih stack.opening h
    | some .closing, [] => simp [scan] at h
    | some .closing, start :: starts =>
      obtain ⟨paired, rest⟩ := stack.pop l'
      rw [scan, hlen, List.mem_cons] at h
      rcases h with heq | h
      · obtain ⟨rfl, rfl⟩ := Prod.mk.inj heq
        simpa using paired
      · exact ih rest h

/-- A scan that comes through has paired every bracket, those open at its start included. -/
theorem exists_mem_scan {l : List (Option Bracket)} {i k : ℕ} {starts : List ℕ}
    (ok : (scan l i starts).fault = none)
    (h : k ∈ starts ∨ ∃ n b, l[n]? = some (some b) ∧ k = i + n) :
    ∃ j, (k, j) ∈ (scan l i starts).pairs ∨ (j, k) ∈ (scan l i starts).pairs := by
  induction l generalizing i starts with
  | nil =>
    cases starts with
    | nil => simp at h
    | cons start starts => simp [scan] at ok
  | cons x l ih =>
    -- A position further on is a position of the rest of the list.
    have later {n : ℕ} {b : Bracket} (hn : (x :: l)[n]? = some (some b)) (hk : k = i + n)
        (hx : n ≠ 0) : ∃ n b, l[n]? = some (some b) ∧ k = i + 1 + n := by
      obtain ⟨n, rfl⟩ := Nat.exists_eq_succ_of_ne_zero hx
      exact ⟨n, b, by simpa using hn, by omega⟩
    match x, starts with
    | none, starts =>
      rw [scan] at ok ⊢
      refine ih ok (h.imp_right ?_)
      rintro ⟨n, b, hn, hk⟩
      exact later hn hk (by rintro rfl; simp at hn)
    | some .opening, starts =>
      rw [scan] at ok ⊢
      apply ih ok
      rcases h with h | ⟨n, b, hn, hk⟩
      · exact .inl (List.mem_cons_of_mem _ h)
      · by_cases h0 : n = 0
        · subst h0
          exact .inl (by simp [hk])
        · exact .inr (later hn hk h0)
    | some .closing, [] => simp [scan] at ok
    | some .closing, start :: starts =>
      rw [scan] at ok ⊢
      by_cases hs : k = start
      · exact ⟨i, .inl (by simp [hs])⟩
      by_cases hi : k = i
      · exact ⟨start, .inr (by simp [hi])⟩
      obtain ⟨j, hj⟩ : ∃ j, (k, j) ∈ (scan l (i + 1) starts).pairs ∨
          (j, k) ∈ (scan l (i + 1) starts).pairs := by
        apply ih ok
        rcases h with h | ⟨n, b, hn, hk⟩
        · exact .inl ((List.mem_cons.mp h).resolve_left hs)
        · exact .inr (later hn hk (by rintro rfl; exact hi (by simpa using hk)))
      exact ⟨j, hj.imp (List.mem_cons_of_mem _) (List.mem_cons_of_mem _)⟩

variable {l : List (Option Bracket)} {i j : ℕ}

theorem paired_of_mem_pairs (h : (i, j) ∈ (scan l 0 []).pairs) : Paired l i j := by
  simpa using paired_of_mem_scan (l := []) (.bottom .nil) h

/-- The pairs noted on a balanced list are its pairs. -/
theorem mem_pairs_scan_iff (bal : Balanced l) : (i, j) ∈ (scan l 0 []).pairs ↔ Paired l i j := by
  refine ⟨paired_of_mem_pairs, fun h => ?_⟩
  obtain ⟨k, hk | hk⟩ := exists_mem_scan (fault_scan_eq_none_iff_balanced.mpr bal)
    (.inr ⟨i, .opening, h.getElem?_left, (Nat.zero_add i).symm⟩)
  · rwa [h.right_unique (paired_of_mem_pairs hk)]
  · have := (paired_of_mem_pairs hk).getElem?_right
    rw [h.getElem?_left] at this
    cases this

theorem exists_paired_of_opening (bal : Balanced l) (h : l[i]? = some (some .opening)) :
    ∃ j, Paired l i j := by
  obtain ⟨k, hk | hk⟩ := exists_mem_scan (fault_scan_eq_none_iff_balanced.mpr bal)
    (.inr ⟨i, _, h, (Nat.zero_add i).symm⟩)
  · exact ⟨k, (mem_pairs_scan_iff bal).mp hk⟩
  · have := ((mem_pairs_scan_iff bal).mp hk).getElem?_right
    rw [h] at this
    cases this

theorem exists_paired_of_closing (bal : Balanced l) (h : l[j]? = some (some .closing)) :
    ∃ i, Paired l i j := by
  obtain ⟨k, hk | hk⟩ := exists_mem_scan (fault_scan_eq_none_iff_balanced.mpr bal)
    (.inr ⟨j, _, h, (Nat.zero_add j).symm⟩)
  · have := ((mem_pairs_scan_iff bal).mp hk).getElem?_left
    rw [h] at this
    cases this
  · exact ⟨k, (mem_pairs_scan_iff bal).mp hk⟩

end TapeMachine.Brackets
