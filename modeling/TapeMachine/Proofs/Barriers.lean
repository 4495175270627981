import TapeMachine.Proofs.Peephole.Reducible

/-!
# Operations that no rule takes in

A `print`, a `read`, a `seek`, a `stop` or a tag without a meaning stops the pass from looking back:
what stands behind such an operation comes out as if the pass had begun there. While the operation
is still held back, its slot is like an empty one.
-/
namespace TapeMachine

/-- No rule of the pass applies to the operation. -/
def Op.isBarrier (op : Op) : Bool :=
  match op.tag with
  | .move | .add | .set | .openLoop | .closeLoop => false
  | _ => true

/-- No rule of the pass applies to the operation, and none yields it. -/
def Op.isInert (op : Op) : Bool := op.isBarrier && op.tag != .seek

section Rewriting

variable {p q l r : List Op}

theorem Rewrite.filter_isBarrier (h : Rewrite l r) : l.filter Op.isBarrier = [] := by
  cases h with
  | @idle op h =>
    obtain ⟨tag, arg⟩ := op
    cases tag <;> simp_all [Op.isNoop, Op.isBarrier]
  | _ => rfl

theorem Rewrite.filter_isInert (h : Rewrite l r) : l.filter Op.isInert = r.filter Op.isInert := by
  cases h with
  | @idle op h =>
    obtain ⟨tag, arg⟩ := op
    cases tag <;> simp_all [Op.isNoop, Op.isInert, Op.isBarrier]
  | _ => rfl

/-- What no rule applies to stays, in order. -/
theorem Rewrites.sublist_filter_isBarrier (h : Rewrites p q) :
    (p.filter Op.isBarrier).Sublist (q.filter Op.isBarrier) := by
  induction h with
  | refl => exact .refl _
  | tail _ last ih =>
    obtain ⟨x, y, h⟩ := last
    refine ih.trans ?_
    simp only [List.filter_append, h.filter_isBarrier, List.nil_append]
    exact (List.sublist_append_right _ _).append_left _

/-- What no rule yields either stays as it is. -/
theorem Rewrites.filter_isInert (h : Rewrites p q) : p.filter Op.isInert = q.filter Op.isInert := by
  induction h with
  | refl => rfl
  | tail _ last ih =>
    obtain ⟨x, y, h⟩ := last
    rw [ih]
    simp only [List.filter_append, h.filter_isInert]

end Rewriting

theorem Reducible.isBarrier_eq_false {r : List Op} (h : Reducible r) :
    ∀ op ∈ r, op.isBarrier = false := by
  cases h <;> simp [Op.isBarrier]

/-- Neither a barrier nor what follows it ends a group. -/
theorem not_endsReducible_of_barrier {l t : List Op} {b : Op} (barrier : b.isBarrier = true)
    (hb : b ∈ t) (ht : t.length ≤ 2) : ¬ EndsReducible (l ++ t) := by
  rintro ⟨r, hr, hs⟩
  have hno := hr.isBarrier_eq_false b (hr.mem_of_suffix hs ht b hb)
  rw [barrier] at hno
  cases hno

namespace Window

variable {b cur last : Op} {older : Option Op} {w : Window}

theorem combine_barrier (w : Window) (barrier : b.isBarrier = true) : w.combine b = .ok none :=
  w.combine_eq_none b (not_endsReducible_of_barrier barrier (by simp) (by simp))

theorem combine_behind_barrier (older : Option Op) (cur : Op) (barrier : b.isBarrier = true) :
    combine ⟨older, some b⟩ cur = .ok none := by
  refine combine_eq_none _ cur ?_
  rw [toList, Option.toList_some, List.append_assoc]
  exact not_endsReducible_of_barrier barrier (by simp) (by simp)

/-- A barrier in the older slot makes no difference. -/
theorem combine_older_barrier (barrier : b.isBarrier = true)
    (h : combine ⟨none, some last⟩ cur = .ok none) :
    combine ⟨some b, some last⟩ cur = .ok none := by
  refine combine_eq_none _ cur fun ⟨r, hr, hs⟩ => ?_
  rcases List.suffix_cons_iff.mp hs with rfl | hs
  · have hno := hr.isBarrier_eq_false b (by simp)
    rw [barrier] at hno
    cases hno
  · obtain rfl := hr.suffix_pair hs
    exact combine_pair_ne_none hr h

end Window

namespace Pass

variable {front : List Op} {b cur : Op} {s t s' t' : Pass} {a c : List Op}

/-- Two passes at the same point behind a barrier. The first has read `front` and the barrier as
well, and as long as the second one has let nothing go it may still hold the barrier back. -/
inductive Shadows (front : List Op) (b : Op) : Pass → Pass → Prop
  | released {e e' : Array Op} {w : Window} (emitted : e.toList = front ++ b :: e'.toList) :
    Shadows front b ⟨e, w⟩ ⟨e', w⟩
  | older {e : Array Op} {last : Op} (emitted : e.toList = front) :
    Shadows front b ⟨e, ⟨some b, some last⟩⟩ ⟨#[], ⟨none, some last⟩⟩
  | newer {e : Array Op} {o : Option Op} (emitted : e.toList ++ o.toList = front) :
    Shadows front b ⟨e, ⟨o, some b⟩⟩ ⟨#[], ⟨none, none⟩⟩

namespace Shadows

theorem toList (h : Shadows front b s t) : s.toList = front ++ b :: t.toList := by
  cases h with
  | released emitted => simp [Pass.toList, emitted]
  | older emitted => simp [Pass.toList, Window.toList, emitted]
  | newer emitted => simp [Pass.toList, Window.toList, ← emitted]

/-- An operation that merges into what stands behind a barrier that is held back. -/
theorem settle {e : Array Op} (last : Op) (emitted : e.toList = front) :
    Shadows front b ⟨e, Window.settle ⟨some b, some last⟩⟩
      ⟨#[], Window.settle ⟨none, some last⟩⟩ := by
  by_cases hnoop : last.isNoop = true
  · simp only [Window.settle, Option.any_some, hnoop, if_true]
    exact .newer (by simpa using emitted)
  · simp only [Window.settle, Option.any_some, hnoop]
    exact .older emitted

theorem feed (barrier : b.isBarrier = true) (h : Shadows front b s t) (ht : t.feed cur = .ok t') :
    ∃ s', s.feed cur = .ok s' ∧ Shadows front b s' t' := by
  cases h with
  | released emitted =>
    rcases feed_cases ht with ⟨hc, rfl⟩ | ⟨w, hc, rfl⟩
    · exact ⟨_, feed_of_combine_none hc, .released (by simp [emitted])⟩
    · exact ⟨_, feed_of_combine_some hc, .released emitted⟩
  | older emitted =>
    rcases feed_cases ht with ⟨hc, rfl⟩ | ⟨w, hc, rfl⟩
    · exact ⟨_, feed_of_combine_none (Window.combine_older_barrier barrier hc),
        .released (by simp [emitted])⟩
    · rcases Window.combine_cases hc with ⟨_, last', heq, rfl, -, hall⟩ | ⟨_, _, _, heq, -⟩
      · cases heq
        exact ⟨_, feed_of_combine_some (hall (some b)), settle last' emitted⟩
      · cases heq
  | newer emitted =>
    obtain ⟨-, rfl⟩ | ⟨w, hc, -⟩ := feed_cases ht
    · exact ⟨_, feed_of_combine_none (Window.combine_behind_barrier _ cur barrier),
        .older (by simpa using emitted)⟩
    · cases hc

theorem reads (barrier : b.isBarrier = true) (h : Shadows front b s t) (ht : Reads t c t') :
    ∃ s', Reads s c s' ∧ Shadows front b s' t' := by
  induction c generalizing s t with
  | nil =>
    obtain rfl := reads_nil.mp ht
    exact ⟨s, reads_nil.mpr rfl, h⟩
  | cons cur c ih =>
    obtain ⟨t₁, hfeed, ht₁⟩ := reads_cons.mp ht
    obtain ⟨s₁, hs₁, h₁⟩ := h.feed barrier hfeed
    obtain ⟨s', hs', h'⟩ := ih h₁ ht₁
    exact ⟨s', reads_cons.mpr ⟨s₁, hs₁, hs'⟩, h'⟩

end Shadows

/-- At a barrier the pass begins anew. -/
theorem optimize_barrier {x y : List Op} (barrier : b.isBarrier = true) (ha : optimize a = .ok x)
    (hc : optimize c = .ok y) : optimize (a ++ b :: c) = .ok (x ++ b :: y) := by
  obtain ⟨s, hs, rfl⟩ := optimize_eq_ok_iff.mp ha
  obtain ⟨t, ht, rfl⟩ := optimize_eq_ok_iff.mp hc
  have hb := feed_of_combine_none (Window.combine_barrier s.window barrier)
  have hstart : Shadows s.toList b
      ⟨s.emitted ++ s.window.older.toList, ⟨s.window.newer, some b⟩⟩ {} :=
    .newer (by simp [toList, Window.toList])
  obtain ⟨u, hu, h⟩ := hstart.reads barrier ht
  refine optimize_eq_ok_iff.mpr ⟨u, ?_, h.toList⟩
  exact reads_append.mpr ⟨s, hs, reads_cons.mpr ⟨_, hb, hu⟩⟩

end Pass

/-- What stands in front of an operation without a rule and what stands behind it are optimized by
themselves. Such operations are all kept, in order, and of those that no rule yields there are no
others. -/
theorem optimize_around_barrier (a c : List Op) {b : Op} (barrier : b.isBarrier = true)
    (numbers : ∀ op ∈ a ++ c, op.HasNumber) :
    ∃ x y, optimize a = .ok x ∧ optimize c = .ok y ∧ optimize (a ++ b :: c) = .ok (x ++ b :: y) ∧
      ((a ++ b :: c).filter Op.isBarrier).Sublist ((x ++ b :: y).filter Op.isBarrier) ∧
      (a ++ b :: c).filter Op.isInert = (x ++ b :: y).filter Op.isInert := by
  rw [List.forall_mem_append] at numbers
  obtain ⟨x, hx⟩ := exists_optimize_of_numbers numbers.1
  obtain ⟨y, hy⟩ := exists_optimize_of_numbers numbers.2
  have h := Pass.optimize_barrier barrier hx hy
  have hrewrites := rewrites_optimize h
  exact ⟨x, y, hx, hy, h, hrewrites.sublist_filter_isBarrier, hrewrites.filter_isInert⟩

/-- Behind a tag without a meaning an addition cancels, and the loop that is open in front of it is
not taken for an idiom. -/
theorem optimize_around_barrier_pause :
    optimize [⟨.openLoop, none⟩, ⟨.move, some 2⟩, ⟨.move, some (-2)⟩, ⟨.other "pause", some 7⟩,
        ⟨.add, some 200⟩, ⟨.add, some 56⟩, ⟨.add, some (-1)⟩, ⟨.closeLoop, none⟩] =
      .ok [⟨.openLoop, none⟩, ⟨.other "pause", some 7⟩, ⟨.add, some (-1)⟩, ⟨.closeLoop, none⟩] := by
  obtain ⟨x, y, hx, hy, h, -⟩ := optimize_around_barrier
    [⟨.openLoop, none⟩, ⟨.move, some 2⟩, ⟨.move, some (-2)⟩]
    [⟨.add, some 200⟩, ⟨.add, some 56⟩, ⟨.add, some (-1)⟩, ⟨.closeLoop, none⟩]
    (b := ⟨.other "pause", some 7⟩) rfl (by simp [Op.HasNumber])
  obtain rfl := Except.ok.inj (hx.symm.trans (by decide : _ = Except.ok [⟨.openLoop, none⟩]))
  obtain rfl := Except.ok.inj (hy.symm.trans
    (by decide : _ = Except.ok [⟨.add, some (-1)⟩, ⟨.closeLoop, none⟩]))
  exact h

end TapeMachine
