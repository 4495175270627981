import TapeMachine.Proofs.Brackets.Pairing

/-!
# Replacing a balanced stretch

A balanced stretch of a list can be replaced by another one. The positions around it keep their
entries, those behind it are shifted, and the brackets there stay paired as they were.
-/
namespace TapeMachine.Brackets

/-- Positions that hold the same entry when, from `start` on, `old` entries have been replaced by
`new` ones. -/
inductive Corresponds (start old new : ℕ) : ℕ → ℕ → Prop
  | before {k : ℕ} (h : k < start) : Corresponds start old new k k
  | behind (k : ℕ) : Corresponds start old new (start + old + k) (start + new + k)

namespace Corresponds

variable {start old new i j k : ℕ}

theorem exists_right (h : k < start ∨ start + old ≤ k) : ∃ j, Corresponds start old new k j := by
  rcases h with h | h
  · exact ⟨k, .before h⟩
  · obtain ⟨k, rfl⟩ := Nat.exists_eq_add_of_le h
    exact ⟨_, .behind k⟩

theorem not_inside (h : Corresponds start old new i j) (lo : start ≤ i) : start + old ≤ i := by
  cases h with
  | before h => omega
  | behind k => omega

theorem getElem?_eq {α : Type} {x l r y : List α}
    (h : Corresponds x.length l.length r.length i j) :
    (x ++ (l ++ y))[i]? = (x ++ (r ++ y))[j]? := by
  cases h with
  | before h => rw [List.getElem?_append_left h, List.getElem?_append_left h]
  | behind k => simp [Nat.add_assoc, List.getElem?_append]

end Corresponds

variable {l r x y : List (Option Bracket)} {i i' j j' : ℕ}

/-- The entries strictly between two positions. -/
def between (l : List (Option Bracket)) (i j : ℕ) : List (Option Bracket) :=
  (l.drop (i + 1)).take (j - (i + 1))

/-- The brackets at two positions are paired if what lies between them is balanced. -/
theorem paired_iff : Paired l i j ↔ i < j ∧ l[i]? = some (some .opening) ∧
    l[j]? = some (some .closing) ∧ Balanced (between l i j) := by
  constructor
  · intro h
    refine ⟨h.lt, h.getElem?_left, h.getElem?_right, ?_⟩
    obtain ⟨a, b, c, rfl, rfl, rfl, hb⟩ := h
    have hdrop : (a ++ some .opening :: (b ++ some .closing :: c)).drop (a.length + 1) =
        b ++ some .closing :: c := by
      simp [List.drop_append]
    rwa [between, hdrop, Nat.add_sub_cancel_left, List.take_left']
    rfl
  · rintro ⟨hlt, hi, hj, hb⟩
    obtain ⟨hil, hi⟩ := List.getElem?_eq_some_iff.mp hi
    obtain ⟨hjl, hj⟩ := List.getElem?_eq_some_iff.mp hj
    have hrest : (l.drop (i + 1)).drop (j - (i + 1)) = some .closing :: l.drop (j + 1) := by
      rw [List.drop_drop, Nat.add_sub_cancel' hlt, List.drop_eq_getElem_cons hjl, hj]
    refine ⟨l.take i, between l i j, l.drop (j + 1), ?_, by simp; omega, ?_, hb⟩
    · rw [between, ← hrest, List.take_append_drop, ← hi, ← List.drop_eq_getElem_cons hil,
        List.take_append_drop]
    · simp only [between, List.length_take, List.length_drop]
      omega

/-- What is balanced may be replaced in a balanced list. -/
theorem Balanced.replace (hl : Balanced l) (hr : Balanced r) (h : Balanced (x ++ (l ++ y))) :
    Balanced (x ++ (r ++ y)) := by
  obtain ⟨hnested, hclosed⟩ := h
  rw [covers_append, covers_append] at hnested
  obtain ⟨hx, hstretch, hy⟩ := hnested
  refine ⟨?_, by simpa [hl.closed, hr.closed] using hclosed⟩
  rw [covers_append, covers_append]
  have hlo : 0 ≤ 0 + depth x := by simpa using hstretch [] List.nil_prefix
  refine ⟨hx, hr.nested.le hlo, ?_⟩
  rw [hl.closed] at hy
  rwa [hr.closed]

/-- Pairs of a part are pairs of the whole. -/
theorem Paired.of_middle (h : Paired l i j) (x y : List (Option Bracket)) :
    Paired (x ++ (l ++ y)) (x.length + i) (x.length + j) := by
  obtain ⟨a, b, c, rfl, rfl, rfl, hb⟩ := h
  exact ⟨x ++ a, b, c ++ y, by simp, by simp, by omega, hb⟩

/-- A bracket outside a balanced stretch has its partner outside. -/
theorem Paired.exists_corresponds_right (hl : Balanced l) (h : Paired (x ++ (l ++ y)) i j)
    (hi : Corresponds x.length l.length r.length i i') :
    ∃ j', Corresponds x.length l.length r.length j j' := by
  apply Corresponds.exists_right
  by_contra hj
  obtain ⟨k, rfl⟩ : ∃ k, j = x.length + k := ⟨j - x.length, by omega⟩
  have hk : k < l.length := by omega
  have hclose : l[k]? = some (some .closing) := by
    have := h.getElem?_right
    rwa [List.getElem?_append_right (by omega), Nat.add_sub_cancel_left,
      List.getElem?_append_left hk] at this
  obtain ⟨n, hn⟩ := exists_paired_of_closing hl hclose
  have heq := h.left_unique (hn.of_middle x y)
  have := hi.not_inside (by omega)
  have := hn.lt
  omega

theorem Paired.exists_corresponds_left (hl : Balanced l) (h : Paired (x ++ (l ++ y)) i j)
    (hj : Corresponds x.length l.length r.length j j') :
    ∃ i', Corresponds x.length l.length r.length i i' := by
  apply Corresponds.exists_right
  by_contra hi
  obtain ⟨k, rfl⟩ : ∃ k, i = x.length + k := ⟨i - x.length, by omega⟩
  have hk : k < l.length := by omega
  have hopen : l[k]? = some (some .opening) := by
    have := h.getElem?_left
    rwa [List.getElem?_append_right (by omega), Nat.add_sub_cancel_left,
      List.getElem?_append_left hk] at this
  obtain ⟨n, hn⟩ := exists_paired_of_opening hl hopen
  have heq := h.right_unique (hn.of_middle x y)
  have := hj.not_inside (by have := hn.lt; omega)
  have := (List.getElem?_eq_some_iff.mp hn.getElem?_right).1
  omega

theorem between_across (hi : i < x.length) (l y : List (Option Bracket)) (k : ℕ) :
    between (x ++ (l ++ y)) i (x.length + l.length + k) = x.drop (i + 1) ++ (l ++ y.take k) := by
  have hx : x.length + l.length + k - (i + 1) = (x.drop (i + 1)).length + (l.length + k) := by
    rw [List.length_drop]
    omega
  rw [between, List.drop_append_of_le_length hi, hx, List.take_length_add_append,
    List.take_length_add_append]

theorem between_behind (x l y : List (Option Bracket)) (i j : ℕ) :
    between (x ++ (l ++ y)) (x.length + l.length + i) (x.length + l.length + j) =
      between y i j := by
  have hlen : x.length + l.length + i + 1 = x.length + (l.length + (i + 1)) := by omega
  rw [between, between, hlen, List.drop_length_add_append, List.drop_length_add_append]
  congr 1
  omega

/-- Pairs around a stretch stay pairs when it is replaced. -/
theorem Paired.replace (hl : Balanced l) (hr : Balanced r) (h : Paired (x ++ (l ++ y)) i j)
    (hi : Corresponds x.length l.length r.length i i')
    (hj : Corresponds x.length l.length r.length j j') : Paired (x ++ (r ++ y)) i' j' := by
  obtain ⟨hlt, hopen, hclose, hb⟩ := paired_iff.mp h
  refine paired_iff.mpr ⟨?_, hi.getElem?_eq ▸ hopen, hj.getElem?_eq ▸ hclose, ?_⟩
  · cases hi <;> cases hj <;> omega
  · cases hi with
    | before hi =>
      cases hj with
      | before hj =>
        have hlen : j - (i + 1) ≤ (x.drop (i + 1)).length := by
          rw [List.length_drop]
          omega
        rw [between, List.drop_append_of_le_length hi,
          List.take_append_of_le_length hlen] at hb ⊢
        exact hb
      | behind k =>
        rw [between_across hi] at hb ⊢
        exact hl.replace hr hb
    | behind k =>
      cases hj with
      | before hj => omega
      | behind n => rwa [between_behind] at hb ⊢

end TapeMachine.Brackets
