import TapeMachine.Proofs.Machine.Glide
import TapeMachine.Proofs.Peephole.Layout

/-!
# Sources with marks

Every command of a source has the mark that it has in its piece. The marked additions are the
ones that a compiled program does not check: they stand off the tape only on the way to a place
that is checked.
-/
namespace TapeMachine

open Word Brackets

theorem Word.isAddition_of_mem_marks {w : Word} {c : Command} (h : (c, true) ∈ marks w) :
    c.isAddition = true := by
  induction w with
  | nil => cases h
  | cons d w ih =>
    rcases List.mem_cons.mp h with h | h
    · obtain ⟨rfl, hmark⟩ := Prod.mk.inj h
      exact (Bool.and_eq_true_iff.mp hmark.symm).1
    · exact ih h

namespace Account

variable {a : Account} {l r : List Piece} {p : Piece}

/-- Every command of the source with its mark. -/
def marked (a : Account) : List (Command × Bool) :=
  marks a.lead ++ a.pieces.flatMap fun p => marks p.word

/-- Whether an addition stands at this place that the program does not check. -/
def overlooks (a : Account) (k : ℕ) : Bool := (a.marked[k]?).any Prod.snd

def symbols (a : Account) : Array Symbol := (a.words.map Symbol.command).toArray

theorem map_fst_marked (a : Account) : a.marked.map Prod.fst = a.words := by
  simp [marked, words, List.map_flatMap]

theorem getElem?_symbols (a : Account) (k : ℕ) :
    a.symbols[k]? = (a.marked[k]?).map fun x => Symbol.command x.1 := by
  rw [symbols, ← map_fst_marked, List.getElem?_toArray, List.getElem?_map, List.getElem?_map,
    Option.map_map]
  rfl

/-- The part of the marked source from a place on lies at that place. -/
theorem lies_of_marked {x y : List (Command × Bool)} (h : a.marked = x ++ y) :
    Direct.Lies a.overlooks a.symbols x.length y := by
  induction y generalizing x with
  | nil => trivial
  | cons z y ih =>
    have hz : a.marked[x.length]? = some z := by simp [h]
    refine ⟨by simp [getElem?_symbols, hz], by simp [overlooks, hz], ?_⟩
    have := ih (x := x ++ [z]) (by simp [h])
    rwa [List.length_append, List.length_singleton] at this

theorem lies_lead (a : Account) : Direct.Lies a.overlooks a.symbols 0 (marks a.lead) :=
  (Direct.lies_append.mp (lies_of_marked (x := []) rfl)).1

theorem lies_piece (hp : a.pieces = l ++ p :: r) :
    Direct.Lies a.overlooks a.symbols (a.place l) (marks p.word) := by
  have hsplit : a.marked = (marks a.lead ++ l.flatMap fun p => marks p.word) ++
      (marks p.word ++ r.flatMap fun p => marks p.word) := by
    simp [marked, hp]
  have hlies := (Direct.lies_append.mp (lies_of_marked hsplit)).1
  have hlen : (marks a.lead ++ l.flatMap fun p => marks p.word).length = a.place l := by
    simp [place, Piece.stretch, List.length_flatMap]
  rwa [hlen] at hlies

theorem marksAdditions (a : Account) : Direct.MarksAdditions a.overlooks a.symbols := by
  intro k hk
  obtain ⟨⟨c, b⟩, hget, rfl⟩ := (Option.any_eq_true _ _).mp hk
  refine ⟨c, ?_, by simp [getElem?_symbols, hget]⟩
  rcases List.mem_append.mp (List.mem_of_getElem? hget) with h | h
  · exact isAddition_of_mem_marks h
  · obtain ⟨p, -, h⟩ := List.mem_flatMap.mp h
    exact isAddition_of_mem_marks h

theorem getElem?_symbols_end (a : Account) : a.symbols[a.place a.pieces]? = none := by
  simp [symbols, place, words, Piece.stretch]

theorem overlooks_end (a : Account) : a.overlooks (a.place a.pieces) = false := by
  have h : a.marked[a.place a.pieces]? = none := by
    rw [List.getElem?_eq_none_iff, ← List.length_map (f := Prod.fst), map_fst_marked]
    simp [place, words, Piece.stretch]
  rw [overlooks, h]
  rfl

end Account
end TapeMachine
