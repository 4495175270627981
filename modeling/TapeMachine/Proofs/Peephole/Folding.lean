import Mathlib.Tactic
import TapeMachine.Compile

/-!
# What the pass takes in

An operation is taken in by one of five rules: it changes the payload of the newest operation that
is held back, or it ends a loop and what is held back is all of that loop. An operation that is not
taken in lets the older of the held back ones go.
-/
namespace TapeMachine

variable {cur op : Op}

namespace Window

/-- One rule of the pass: what is held back, the operation that comes in, and what is held back
then. -/
inductive Folds : Window → Op → Window → Prop
  | moves (older : Option Op) (m n : ℤ) :
    Folds ⟨older, some ⟨.move, some m⟩⟩ ⟨.move, some n⟩ ⟨older, some ⟨.move, some (m + n)⟩⟩
  | additions (older : Option Op) (m n : ℤ) :
    Folds ⟨older, some ⟨.add, some m⟩⟩ ⟨.add, some n⟩ ⟨older, some ⟨.add, some (wrap (m + n))⟩⟩
  | setAddition (older : Option Op) (v n : ℤ) :
    Folds ⟨older, some ⟨.set, some v⟩⟩ ⟨.add, some n⟩ ⟨older, some ⟨.set, some (wrap (v + n))⟩⟩
  | emptying (x y : Option ℤ) :
    Folds ⟨some ⟨.openLoop, x⟩, some ⟨.add, some (-1)⟩⟩ ⟨.closeLoop, y⟩ ⟨none, some ⟨.set, some 0⟩⟩
  | seeking (x n y : Option ℤ) :
    Folds ⟨some ⟨.openLoop, x⟩, some ⟨.move, n⟩⟩ ⟨.closeLoop, y⟩ ⟨none, some ⟨.seek, n⟩⟩

variable {w w' : Window}

theorem folds_of_idiom? (h : w.idiom? = some op) (y : Option ℤ) :
    Folds w ⟨.closeLoop, y⟩ ⟨none, some op⟩ := by
  obtain ⟨older, newer⟩ := w
  unfold idiom? at h
  split at h
  · rename_i x body heq₁ heq₂
    obtain rfl : older = _ := heq₁
    obtain rfl : newer = _ := heq₂
    split_ifs at h with hadd hmove
    · cases h
      rw [hadd]
      exact .emptying x y
    · cases h
      obtain ⟨tag, n⟩ := body
      obtain rfl : tag = .move := hmove
      exact .seeking x n y
  · cases h

theorem combine_eq_some_iff : w.combine cur = .ok (some w') ↔ Folds w cur w' := by
  constructor
  · intro h
    obtain ⟨older, newer⟩ := w
    obtain ⟨tag, arg⟩ := cur
    rcases newer with _ | ⟨tag', arg'⟩
    · cases h
    unfold combine at h
    dsimp only at h
    split at h
    · rcases arg' with _ | m <;> rcases arg with _ | n <;> cases h
      exact .moves older m n
    · rcases arg' with _ | m <;> rcases arg with _ | n <;> cases h
      exact .additions older m n
    · rcases arg' with _ | v <;> rcases arg with _ | n <;> cases h
      exact .setAddition older v n
    · obtain ⟨op, hop, rfl⟩ := Option.map_eq_some_iff.mp (Except.ok.inj h)
      exact folds_of_idiom? hop arg
    · cases h
  · intro h
    cases h <;> rfl

end Window

namespace Pass

variable {s t : Pass} {w : Window}

theorem feed_of_combine_none (h : s.window.combine cur = .ok none) :
    s.feed cur = .ok ⟨s.emitted ++ s.window.older.toList, ⟨s.window.newer, some cur⟩⟩ := by
  rw [feed, h]
  rfl

theorem feed_of_combine_some (h : s.window.combine cur = .ok (some w)) :
    s.feed cur = .ok ⟨s.emitted, w.settle⟩ := by
  rw [feed, h]
  rfl

/-- All that one operation can do. -/
theorem feed_cases (h : s.feed cur = .ok t) :
    (s.window.combine cur = .ok none ∧
      t = ⟨s.emitted ++ s.window.older.toList, ⟨s.window.newer, some cur⟩⟩) ∨
    ∃ w, s.window.combine cur = .ok (some w) ∧ t = ⟨s.emitted, w.settle⟩ := by
  cases hc : s.window.combine cur with
  | error f =>
    rw [feed, hc] at h
    cases h
  | ok r =>
    cases r with
    | none => exact .inl ⟨rfl, Except.ok.inj (h.symm.trans (feed_of_combine_none hc))⟩
    | some w => exact .inr ⟨w, rfl, Except.ok.inj (h.symm.trans (feed_of_combine_some hc))⟩

end Pass
end TapeMachine
