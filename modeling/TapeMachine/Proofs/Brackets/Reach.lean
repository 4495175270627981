import TapeMachine.Proofs.Brackets.Replacement

/-!
# How far a scan comes

A scan that fails has noted pairs before. It fails at the first closing bracket without a partner,
in front of which the list is balanced, or at the end, when brackets are open. The pairs that it has
noted are those that it has come to the end of.
-/
namespace TapeMachine.Brackets

variable {l p b c : List (Option Bracket)} {i j k d : ℕ} {starts : List ℕ}

theorem Covers.of_prefix {d : ℤ} (h : Covers d l) (hp : p <+: l) : Covers d p :=
  fun q hq => h q (hq.trans hp)

theorem Covers.depth_nonneg (h : Covers 0 l) : 0 ≤ depth l := by
  simpa using h l List.prefix_rfl

theorem Balanced.not_covers (hb : Balanced b) (c : List (Option Bracket)) :
    ¬ Covers 0 (b ++ some .closing :: c) := by
  rw [covers_append, covers_cons, hb.closed]
  rintro ⟨-, -, h⟩
  have := h [] List.nil_prefix
  simp at this

theorem Stack.covers (h : Stack l starts) : Covers 0 l := by
  induction h with
  | bottom h => exact h.nested
  | @push l b starts h hb ih =>
    have := ih.depth_nonneg
    rw [covers_append, covers_cons, zero_add, weight_opening]
    exact ⟨ih, this, hb.nested.le (by omega)⟩

/-- A list is well-nested so far, or it has a first closing bracket without a partner. -/
theorem exists_stack_or_overclosed (l : List (Option Bracket)) :
    (∃ starts, Stack l starts) ∨ ∃ b c, l = b ++ some .closing :: c ∧ Balanced b := by
  induction l using List.reverseRecOn with
  | nil => exact .inl ⟨[], .bottom .nil⟩
  | append_singleton l x ih =>
    rcases ih with ⟨starts, stack⟩ | ⟨b, c, rfl, hb⟩
    · match x, starts with
      | none, starts => exact .inl ⟨starts, stack.none⟩
      | some .opening, starts => exact .inl ⟨_, stack.opening⟩
      | some .closing, start :: starts => exact .inl ⟨starts, (stack.pop []).2⟩
      | some .closing, [] =>
        cases stack with
        | bottom hb => exact .inr ⟨l, [], rfl, hb⟩
    · exact .inr ⟨b, c ++ [x], by simp, hb⟩

theorem exists_overclosed (h : ¬ Covers 0 l) :
    ∃ b c, l = b ++ some .closing :: c ∧ Balanced b := by
  refine (exists_stack_or_overclosed l).resolve_left ?_
  rintro ⟨starts, stack⟩
  exact h stack.covers

/-- A closing bracket that the scan reaches ends a pair. -/
theorem exists_mem_scan_of_closing (i : ℕ) (starts : List ℕ) {n : ℕ}
    (h : l[n]? = some (some .closing))
    (reached : Covers starts.length (l.take (n + 1))) :
    ∃ start, (start, i + n) ∈ (scan l i starts).pairs := by
  induction l generalizing i n starts with
  | nil => simp at h
  | cons x l ih =>
    rw [List.take_succ_cons, covers_cons] at reached
    cases n with
    | zero =>
      obtain rfl : x = some .closing := by simpa using h
      cases starts with
      | nil => simp at reached
      | cons start starts => exact ⟨start, by simp [scan]⟩
    | succ n =>
      rw [List.getElem?_cons_succ] at h
      rw [show i + (n + 1) = i + 1 + n by omega]
      cases x with
      | none =>
        rw [scan]
        exact ih _ _ h (by simpa using reached.2)
      | some bracket =>
        cases bracket with
        | opening =>
          rw [scan]
          exact ih _ _ h (by simpa using reached.2)
        | closing =>
          cases starts with
          | nil => simpa using reached.2 [] List.nil_prefix
          | cons start starts =>
            obtain ⟨k, hmem⟩ := ih (i + 1) starts h (by simpa using reached.2)
            exact ⟨k, List.mem_cons_of_mem _ hmem⟩

/-- A pair is noted only when the scan comes to the end of it. -/
theorem covers_of_mem_scan (h : (k, j) ∈ (scan l i starts).pairs) :
    ∃ n, j = i + n ∧ Covers starts.length (l.take (n + 1)) := by
  induction l generalizing i starts with
  | nil => cases starts <;> simp [scan] at h
  | cons x l ih =>
    have later {starts' : List ℕ} (hw : (starts'.length : ℤ) = starts.length + weight x)
        (h : (k, j) ∈ (scan l (i + 1) starts').pairs) :
        ∃ n, j = i + n ∧ Covers starts.length ((x :: l).take (n + 1)) := by
      obtain ⟨n, rfl, hcovers⟩ := ih h
      refine ⟨n + 1, by omega, ?_⟩
      rw [List.take_succ_cons, covers_cons, ← hw]
      exact ⟨by omega, hcovers⟩
    cases x with
    | none => exact later (by simp) h
    | some bracket =>
      cases bracket with
      | opening => exact later (by simp) h
      | closing =>
        cases starts with
        | nil => simp [scan] at h
        | cons start starts =>
          rcases List.mem_cons.mp h with heq | h
          · obtain ⟨-, rfl⟩ := Prod.mk.inj heq
            refine ⟨0, rfl, ?_⟩
            simp only [List.length_cons, List.take_succ_cons, List.take_zero, covers_cons,
              covers_nil, weight_closing]
            omega
          · exact later (by simp) h

/-- The pairs noted are those that the scan has come to the end of. -/
theorem mem_pairs_scan_iff_reached :
    (i, j) ∈ (scan l 0 []).pairs ↔ Paired l i j ∧ Covers 0 (l.take (j + 1)) := by
  constructor
  · intro h
    obtain ⟨n, rfl, hcovers⟩ := covers_of_mem_scan h
    exact ⟨paired_of_mem_pairs h, by simpa using hcovers⟩
  · rintro ⟨paired, reached⟩
    obtain ⟨k, hmem⟩ :=
      exists_mem_scan_of_closing 0 [] paired.getElem?_right (by simpa using reached)
    rw [zero_add] at hmem
    rwa [paired.left_unique (paired_of_mem_pairs hmem)]

/-- Without a closing bracket too many all pairs are noted. -/
theorem mem_pairs_scan_iff_of_covers (h : Covers 0 l) :
    (i, j) ∈ (scan l 0 []).pairs ↔ Paired l i j := by
  rw [mem_pairs_scan_iff_reached, and_iff_left (h.of_prefix (List.take_prefix _ _))]

theorem Paired.append_right (h : Paired l i j) (y : List (Option Bracket)) :
    Paired (l ++ y) i j := by
  simpa using h.of_middle [] y

section Overclosed

variable (hb : Balanced b)
include hb

/-- The pairs noted in front of a closing bracket without a partner. -/
theorem mem_pairs_scan_overclosed_iff :
    (i, j) ∈ (scan (b ++ some .closing :: c) 0 []).pairs ↔
      Paired (b ++ some .closing :: c) i j ∧ j < b.length := by
  rw [mem_pairs_scan_iff_reached]
  refine and_congr_right fun _ => ⟨fun h => ?_, fun h => ?_⟩
  · by_contra hle
    refine hb.not_covers [] (h.of_prefix (List.prefix_take_iff.mpr ⟨?_, ?_⟩))
    · exact ⟨c, by simp⟩
    · rw [List.length_append, List.length_singleton]
      omega
  · rw [List.take_append_of_le_length h]
    exact hb.nested.of_prefix (List.take_prefix _ _)

theorem not_paired_overclosing : ¬ Paired (b ++ some .closing :: c) i b.length := by
  intro h
  have hopen := h.getElem?_left
  rw [List.getElem?_append_left h.lt] at hopen
  obtain ⟨j, hj⟩ := exists_paired_of_opening hb hopen
  have heq := h.right_unique (hj.append_right _)
  have := (List.getElem?_eq_some_iff.mp hj.getElem?_right).1
  omega

theorem exists_paired_before_overclosing (h : (b ++ some .closing :: c)[j]? = some (some .closing))
    (hj : j < b.length) : ∃ i, Paired (b ++ some .closing :: c) i j := by
  rw [List.getElem?_append_left hj] at h
  obtain ⟨i, hi⟩ := exists_paired_of_closing hb h
  exact ⟨i, hi.append_right _⟩

/-- An opening bracket with a balanced rest behind it has no partner. -/
theorem not_paired_open (a : List (Option Bracket)) :
    ¬ Paired (a ++ some .opening :: b) a.length j := by
  intro h
  obtain ⟨m, rfl⟩ : ∃ m, j = (a ++ [some Bracket.opening]).length + m := by
    have := h.lt
    exact ⟨j - (a.length + 1), by simp; omega⟩
  have hclose := h.getElem?_right
  rw [← List.singleton_append, ← List.append_assoc,
    List.getElem?_append_right (by omega), Nat.add_sub_cancel_left] at hclose
  obtain ⟨i, hi⟩ := exists_paired_of_closing hb hclose
  have hpaired := hi.of_middle (a ++ [some Bracket.opening]) []
  rw [List.append_nil, List.append_assoc, List.singleton_append] at hpaired
  have heq := h.left_unique hpaired
  rw [List.length_append] at heq
  simp at heq
  omega

end Overclosed

/-- With brackets still open every closing bracket has a partner. -/
theorem exists_paired_of_covers (h : Covers 0 l) (hclose : l[j]? = some (some .closing)) :
    ∃ i, Paired l i j := by
  obtain ⟨i, hmem⟩ := exists_mem_scan_of_closing 0 [] hclose
    (by simpa using h.of_prefix (List.take_prefix _ _))
  rw [zero_add] at hmem
  exact ⟨i, paired_of_mem_pairs hmem⟩

/-- The innermost of the brackets still open has no partner. -/
theorem exists_unpaired (h : Covers 0 l) (hopen : 0 < depth l) :
    ∃ i, l[i]? = some (some .opening) ∧ ∀ j, ¬ Paired l i j := by
  rcases exists_stack_or_overclosed l with ⟨starts, stack⟩ | ⟨b, c, rfl, hb⟩
  · cases stack with
    | bottom hb => exact absurd hb.closed hopen.ne'
    | @push a b _ _ hb => exact ⟨a.length, by simp, fun j => not_paired_open hb a⟩
  · exact absurd h (hb.not_covers c)

end TapeMachine.Brackets
