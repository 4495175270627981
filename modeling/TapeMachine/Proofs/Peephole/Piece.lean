import TapeMachine.Proofs.Peephole.Folding
import TapeMachine.Proofs.Peephole.Word

/-!
# What the operations of an optimized program stand for

Every operation that leaves the peephole pass stands for a stretch of the source. What is dropped
belongs to the operation before it: it moves back to where it started and adds nothing there.
The rules of the pass keep this relation.
-/
namespace TapeMachine

open Word

/-- An operation does what a stretch of the source does. -/
inductive Stands : Op → Word → Prop
  | move {w : Word} {n : ℤ} (h : Acts w n 0) (ne : n ≠ 0) : Stands ⟨.move, some n⟩ w
  | add {c : Command} {w : Word} {n : ℤ} (hc : c.isAddition = true) (h : Acts (c :: w) 0 n)
    (byte : SignedByte n) (ne : n ≠ 0) : Stands ⟨.add, some n⟩ (c :: w)
  | openLoop {u : Word} (h : Acts u 0 0) : Stands ⟨.openLoop, some 0⟩ (.loopStart :: u)
  | closeLoop {u : Word} (h : Acts u 0 0) : Stands ⟨.closeLoop, some 0⟩ (.loopEnd :: u)
  | print {u : Word} (h : Acts u 0 0) : Stands ⟨.print, none⟩ (.output :: u)
  | read {u : Word} (h : Acts u 0 0) : Stands ⟨.read, none⟩ (.input :: u)
  | set {b u : Word} {v : ℤ} (hb : Acts b 0 (-1)) (hu : Acts u 0 v) (byte : SignedByte v) :
    Stands ⟨.set, some v⟩ (.loopStart :: (b ++ .loopEnd :: u))
  | seek {b u : Word} {n : ℤ} (hb : Acts b n 0) (hu : Acts u 0 0) (ne : n ≠ 0) :
    Stands ⟨.seek, some n⟩ (.loopStart :: (b ++ .loopEnd :: u))

namespace Stands

variable {op : Op} {w u : Word} {n v : ℤ}

theorem of_move (h : Stands ⟨.move, some n⟩ w) : Acts w n 0 ∧ n ≠ 0 := by
  cases h with
  | move h ne => exact ⟨h, ne⟩

theorem of_add (h : Stands ⟨.add, some n⟩ w) :
    Acts w 0 n ∧ ∃ c u, w = c :: u ∧ c.isAddition = true := by
  cases h with
  | add hc h _ _ => exact ⟨h, _, _, rfl, hc⟩

theorem of_openLoop {x : Option ℤ} (h : Stands ⟨.openLoop, x⟩ w) :
    ∃ u, w = .loopStart :: u ∧ Acts u 0 0 := by
  cases h with
  | openLoop h => exact ⟨_, rfl, h⟩

/-- What does nothing may follow. -/
theorem append_idle (h : Stands op w) (hu : Acts u 0 0) : Stands op (w ++ u) := by
  cases h with
  | move h ne => exact .move (h.append_idle hu) ne
  | add hc h byte ne => exact .add hc (h.append_idle hu) byte ne
  | openLoop h => exact .openLoop (h.append_idle hu)
  | closeLoop h => exact .closeLoop (h.append_idle hu)
  | print h => exact .print (h.append_idle hu)
  | read h => exact .read (h.append_idle hu)
  | set hb h byte =>
    rw [List.cons_append, List.append_assoc, List.cons_append]
    exact .set hb (h.append_idle hu) byte
  | seek hb h ne =>
    rw [List.cons_append, List.append_assoc, List.cons_append]
    exact .seek hb (h.append_idle hu) ne

/-- A `set` takes in an addition. -/
theorem set_append {c : Command} (h : Stands ⟨.set, some v⟩ w) (hc : c.isAddition = true) :
    Stands ⟨.set, some (wrap (v + c.amount))⟩ (w ++ [c]) := by
  cases h with
  | set hb hu _ =>
    rw [List.cons_append, List.append_assoc, List.cons_append]
    refine .set hb ?_ (signedByte_wrap _)
    simpa using (hu.append (.single_addition hc) (.inl rfl)).wrap

theorem of_command {c : Command} : Stands (Op.ofCommand c) [c] := by
  cases c with
  | left => exact .move (.single_move rfl) (by decide)
  | right => exact .move (.single_move rfl) (by decide)
  | increment => exact .add rfl (.single_addition rfl) (by decide) (by decide)
  | decrement => exact .add rfl (.single_addition rfl) (by decide) (by decide)
  | output => exact .print .nil
  | input => exact .read .nil
  | loopStart => exact .openLoop .nil
  | loopEnd => exact .closeLoop .nil

theorem isNoop_eq_false (h : Stands op w) : op.isNoop = false := by
  cases h <;> simp_all [Op.isNoop]

end Stands

/-- An operation and the stretch of the source that it stands for. -/
structure Piece where
  op : Op
  word : Word
  deriving DecidableEq, Repr

namespace Piece

/-- The place where a move ends is looked at by the source as well: in the stretch of the move
itself, or by the command right after it. -/
def Follows (p q : Piece) : Prop := p.op.tag = .move → Settled p.word ∨ q.op.tag ≠ .move

theorem Follows.of_tag {p q q' : Piece} (h : Follows p q) (htag : q'.op.tag = q.op.tag) :
    Follows p q' := by
  intro hp
  rw [htag]
  exact h hp

end Piece

namespace Window

/-- One rule of the pass, for the window and the command that comes in. -/
inductive Rule : Window → Command → Window → Prop
  | moves {older : Option Op} {n : ℤ} {c : Command} (hc : c.isMove = true) :
    Rule ⟨older, some ⟨.move, some n⟩⟩ c ⟨older, some ⟨.move, some (n + c.shift)⟩⟩
  | additions {older : Option Op} {n : ℤ} {c : Command} (hc : c.isAddition = true) :
    Rule ⟨older, some ⟨.add, some n⟩⟩ c ⟨older, some ⟨.add, some (wrap (n + c.amount))⟩⟩
  | setAddition {older : Option Op} {v : ℤ} {c : Command} (hc : c.isAddition = true) :
    Rule ⟨older, some ⟨.set, some v⟩⟩ c ⟨older, some ⟨.set, some (wrap (v + c.amount))⟩⟩
  | emptying {x : Option ℤ} :
    Rule ⟨some ⟨.openLoop, x⟩, some ⟨.add, some (-1)⟩⟩ .loopEnd ⟨none, some ⟨.set, some 0⟩⟩
  | seeking {x : Option ℤ} {n : ℤ} :
    Rule ⟨some ⟨.openLoop, x⟩, some ⟨.move, some n⟩⟩ .loopEnd ⟨none, some ⟨.seek, some n⟩⟩

/-- The end of a loop is taken in by one of the two rules for loops. -/
theorem Folds.rule {w w' : Window} {y : Option ℤ} (h : Folds w ⟨.closeLoop, y⟩ w')
    (hn : ∀ p ∈ w.newer, ∃ word, Stands p word) : Rule w .loopEnd w' := by
  cases h with
  | emptying => exact .emptying
  | seeking =>
    obtain ⟨word, hs⟩ := hn _ rfl
    cases hs with
    | move => exact .seeking

/-- A command is taken in by one of the rules, or it is left alone; then it is no move that
follows a move. -/
theorem combine_ofCommand (w : Window) (c : Command) (hn : ∀ p ∈ w.newer, ∃ word, Stands p word) :
    (w.combine (Op.ofCommand c) = .ok none ∧
      ∀ p ∈ w.newer, p.tag = .move → (Op.ofCommand c).tag ≠ .move) ∨
    ∃ w', w.combine (Op.ofCommand c) = .ok (some w') ∧ Rule w c w' := by
  obtain ⟨older, newer⟩ := w
  cases newer with
  | none => exact .inl ⟨rfl, by simp⟩
  | some p =>
    by_cases hend : c = .loopEnd
    · subst hend
      have hcomb : combine ⟨older, some p⟩ (Op.ofCommand .loopEnd) =
          .ok ((idiom? ⟨older, some p⟩).map fun op => ⟨none, some op⟩) := by
        obtain ⟨tag, arg⟩ := p
        cases tag <;> rfl
      rw [hcomb]
      cases hid : idiom? ⟨older, some p⟩ with
      | none => exact .inl ⟨rfl, by simp [Op.ofCommand]⟩
      | some op => exact .inr ⟨_, rfl, (folds_of_idiom? hid none).rule hn⟩
    · obtain ⟨word, hs⟩ := hn p rfl
      cases hs with
      | move h ne =>
        cases c with
        | left => exact .inr ⟨_, rfl, .moves rfl⟩
        | right => exact .inr ⟨_, rfl, .moves rfl⟩
        | loopEnd => exact absurd rfl hend
        | _ => exact .inl ⟨rfl, by simp [Op.ofCommand]⟩
      | add hc h byte ne =>
        cases c with
        | increment => exact .inr ⟨_, rfl, .additions rfl⟩
        | decrement => exact .inr ⟨_, rfl, .additions rfl⟩
        | loopEnd => exact absurd rfl hend
        | _ => exact .inl ⟨rfl, by simp⟩
      | set hb hu byte =>
        cases c with
        | increment => exact .inr ⟨_, rfl, .setAddition rfl⟩
        | decrement => exact .inr ⟨_, rfl, .setAddition rfl⟩
        | loopEnd => exact absurd rfl hend
        | _ => exact .inl ⟨rfl, by simp⟩
      | _ =>
        cases c with
        | loopEnd => exact absurd rfl hend
        | _ => exact .inl ⟨rfl, by simp⟩

end Window
end TapeMachine
