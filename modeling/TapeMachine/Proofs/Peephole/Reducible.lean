import TapeMachine.Proofs.Peephole.Feeding

/-!
# Where a rule applies

The rules of the pass apply to groups of two or three neighbours. An operation is taken in exactly
when it ends a group of which everything else is held back; if something of the group has been let
go already, the group is overlooked.
-/
namespace TapeMachine

/-- Neighbours of which a rule of the pass makes one operation. -/
inductive Reducible : List Op → Prop
  | moves (m n : Option ℤ) : Reducible [⟨.move, m⟩, ⟨.move, n⟩]
  | additions (m n : Option ℤ) : Reducible [⟨.add, m⟩, ⟨.add, n⟩]
  | setAddition (v n : Option ℤ) : Reducible [⟨.set, v⟩, ⟨.add, n⟩]
  | emptying (i j : Option ℤ) :
    Reducible [⟨.openLoop, i⟩, ⟨.add, some (-1)⟩, ⟨.closeLoop, j⟩]
  | seeking (i n j : Option ℤ) : Reducible [⟨.openLoop, i⟩, ⟨.move, n⟩, ⟨.closeLoop, j⟩]

/-- A rule applies to a group that some operations end with. -/
def EndsReducible (ops : List Op) : Prop := ∃ r, Reducible r ∧ r <:+ ops

namespace Reducible

variable {l r r' : List Op} {x y op op' : Op}

theorem length_cases (h : Reducible r) : r.length = 2 ∨ r.length = 3 := by
  cases h <;> simp

/-- A group has at least two operations. -/
theorem mem_of_suffix {t : List Op} (h : Reducible r) (hs : r <:+ l ++ t) (ht : t.length ≤ 2) :
    ∀ op ∈ t, op ∈ r := by
  have hlen := h.length_cases
  exact (List.suffix_of_suffix_length_le (List.suffix_append l t) hs (by omega)).subset

/-- No loop that is a group has a body of these tags. -/
theorem tag_ne_of_length (h : Reducible r) (hlen : r.length = 3) :
    ∀ op ∈ r, op.tag ≠ .set ∧ op.tag ≠ .seek := by
  cases h <;> simp_all

theorem not_suffix_singleton (h : Reducible r) : ¬ r <:+ [op] := by
  intro hs
  have hle := hs.length_le
  have hlen := h.length_cases
  rw [List.length_singleton] at hle
  omega

theorem suffix_pair (h : Reducible r) (hs : r <:+ [y, op]) : r = [y, op] :=
  (List.suffix_cons_iff.mp hs).resolve_right h.not_suffix_singleton

/-- A loop that is a group ends in no other group. -/
theorem suffix_unique (h : Reducible r) (h' : Reducible r') (hs : r <:+ l) (hs' : r' <:+ l) :
    r = r' := by
  wlog hle : r'.length ≤ r.length generalizing r r'
  · exact (this h' h hs' hs (by omega)).symm
  have hsuf := List.suffix_of_suffix_length_le hs' hs hle
  by_cases heq : r'.length = r.length
  · exact (hsuf.eq_of_length heq).symm
  · have hlen := h.length_cases
    have hlen' := h'.length_cases
    cases h with
    | emptying | seeking =>
      rcases List.suffix_cons_iff.mp hsuf with rfl | hsuf
      · exact absurd rfl heq
      · obtain rfl := h'.suffix_pair hsuf
        cases h'
    | _ =>
      rw [List.length_cons, List.length_singleton] at heq hle
      omega

theorem tag_of_concat (h : Reducible (l ++ [op])) :
    op.tag = .move ∨ op.tag = .add ∨ op.tag = .closeLoop := by
  generalize heq : l ++ [op] = r at h
  have hlast : r.getLast? = some op := by simp [← heq]
  cases h <;> cases hlast <;> simp

/-- Of the last operation of a group only the tag matters. -/
theorem congr_tag (h : Reducible (l ++ [op])) (htag : op'.tag = op.tag) :
    Reducible (l ++ [op']) := by
  obtain ⟨tag, arg⟩ := op
  obtain ⟨tag', arg'⟩ := op'
  obtain rfl : tag' = tag := htag
  have hlen := h.length_cases
  match l with
  | [] | _ :: _ :: _ :: _ => simp at hlen
  | [x] =>
    rw [List.singleton_append] at h ⊢
    cases h with
    | moves => exact .moves _ _
    | additions => exact .additions _ _
    | setAddition => exact .setAddition _ _
  | [x, y] =>
    rw [List.cons_append, List.singleton_append] at h ⊢
    cases h with
    | emptying => exact .emptying _ _
    | seeking => exact .seeking _ _ _

end Reducible

namespace EndsReducible

variable {l : List Op} {op op' : Op}

theorem exists_concat (h : EndsReducible (l ++ [op])) :
    ∃ x r, l = x ++ r ∧ Reducible (r ++ [op]) := by
  obtain ⟨r, hr, x, hx⟩ := h
  obtain ⟨r, last, rfl⟩ : ∃ r' last, r = r' ++ [last] := by
    rcases List.eq_nil_or_concat r with rfl | hr'
    · cases hr
    · simpa using hr'
  rw [← List.append_assoc] at hx
  obtain ⟨rfl, hop⟩ := List.append_inj' hx rfl
  obtain rfl := List.singleton_inj.mp hop
  exact ⟨x, r, rfl, hr⟩

theorem tag_of_concat (h : EndsReducible (l ++ [op])) :
    op.tag = .move ∨ op.tag = .add ∨ op.tag = .closeLoop := by
  obtain ⟨-, r, -, hr⟩ := h.exists_concat
  exact hr.tag_of_concat

theorem congr_tag (h : EndsReducible (l ++ [op])) (htag : op'.tag = op.tag) :
    EndsReducible (l ++ [op']) := by
  obtain ⟨x, r, rfl, hr⟩ := h.exists_concat
  exact ⟨r ++ [op'], hr.congr_tag htag, x, by simp⟩

end EndsReducible

namespace Window

variable {w : Window} {older : Option Op} {last cur op : Op}

theorem Folds.endsReducible {w' : Window} (h : Folds w cur w') :
    EndsReducible (w.toList ++ [cur]) := by
  cases h with
  | moves older m n => exact ⟨_, .moves (some m) (some n), older.toList, by simp [toList]⟩
  | additions older m n => exact ⟨_, .additions (some m) (some n), older.toList, by simp [toList]⟩
  | setAddition older v n =>
    exact ⟨_, .setAddition (some v) (some n), older.toList, by simp [toList]⟩
  | emptying => exact ⟨_, .emptying _ _, List.suffix_rfl⟩
  | seeking => exact ⟨_, .seeking _ _ _, List.suffix_rfl⟩

/-- An operation that ends no group is left alone. -/
theorem combine_eq_none (w : Window) (cur : Op) (h : ¬ EndsReducible (w.toList ++ [cur])) :
    w.combine cur = .ok none := by
  obtain ⟨older, newer⟩ := w
  obtain ⟨tag, arg⟩ := cur
  rcases newer with _ | ⟨tag', arg'⟩
  · rfl
  have pair (rule : Reducible [⟨tag', arg'⟩, ⟨tag, arg⟩]) : False :=
    h ⟨_, rule, ⟨older.toList, by simp [toList]⟩⟩
  unfold combine
  dsimp only
  split
  · exact (pair (.moves _ _)).elim
  · exact (pair (.additions _ _)).elim
  · exact (pair (.setAddition _ _)).elim
  · cases hid : idiom? ⟨older, some ⟨tag', arg'⟩⟩ with
    | none => rfl
    | some op => exact absurd (folds_of_idiom? hid arg).endsReducible h
  · rfl

theorem combine_pair_ne_none (h : Reducible [last, cur]) :
    combine ⟨older, some last⟩ cur ≠ .ok none := by
  obtain ⟨tag, m⟩ := last
  obtain ⟨tag', n⟩ := cur
  cases h <;> rcases m with _ | m <;> rcases n with _ | n <;> exact nofun

theorem combine_triple_ne_none (h : Reducible [op, last, cur]) :
    combine ⟨some op, some last⟩ cur ≠ .ok none := by
  cases h <;> exact nofun

/-- What is taken in changes the payload of the newest operation, whatever the older one is, or it
ends a loop. -/
theorem combine_cases {w' : Window} (h : w.combine cur = .ok (some w')) :
    (∃ last last', w = ⟨w.older, some last⟩ ∧ w' = ⟨w.older, some last'⟩ ∧ last'.tag = last.tag ∧
      ∀ o, combine ⟨o, some last⟩ cur = .ok (some ⟨o, some last'⟩)) ∨
    ∃ x body op, w = ⟨some x, some body⟩ ∧ w' = ⟨none, some op⟩ ∧ x.tag = .openLoop ∧
      (op.tag = .set ∨ op.tag = .seek) := by
  cases combine_eq_some_iff.mp h with
  | moves | additions | setAddition => exact .inl ⟨_, _, rfl, rfl, rfl, fun _ => rfl⟩
  | emptying => exact .inr ⟨_, _, _, rfl, rfl, rfl, .inl rfl⟩
  | seeking => exact .inr ⟨_, _, _, rfl, rfl, rfl, .inr rfl⟩

/-- The slots are filled from the newer one on. -/
def Packed (w : Window) : Prop := w.newer = none → w.older = none

theorem Packed.length_toList (packed : w.Packed) (h : w.older ≠ none) : w.toList.length = 2 := by
  match w, packed, h with
  | ⟨some _, some _⟩, _, _ => rfl
  | ⟨some _, none⟩, packed, _ => cases packed rfl
  | ⟨none, _⟩, _, h => exact absurd rfl h

/-- Without an opening bracket in front of it, no operation ends a loop. -/
theorem combine_closing (last : Op) (h : cur.tag = .closeLoop) :
    combine ⟨none, some last⟩ cur = .ok none := by
  refine combine_eq_none _ cur fun ⟨r, hr, hs⟩ => ?_
  obtain rfl := hr.suffix_pair hs
  cases hr <;> cases h

/-- What ends a group that is held back is not left alone. -/
theorem combine_ne_none (packed : w.Packed) (h : EndsReducible (w.toList ++ [cur])) :
    w.combine cur ≠ .ok none := by
  obtain ⟨r, hr, hs⟩ := h
  match w, packed, hs with
  | ⟨none, none⟩, _, hs => exact absurd hs hr.not_suffix_singleton
  | ⟨some _, none⟩, packed, _ => cases packed rfl
  | ⟨none, some y⟩, _, hs =>
    obtain rfl := hr.suffix_pair hs
    exact combine_pair_ne_none hr
  | ⟨some x, some y⟩, _, hs =>
    rcases List.suffix_cons_iff.mp hs with rfl | hs
    · exact combine_triple_ne_none hr
    · obtain rfl := hr.suffix_pair hs
      exact combine_pair_ne_none hr

end Window
end TapeMachine
