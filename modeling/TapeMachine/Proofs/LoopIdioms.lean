import TapeMachine.Proofs.Peephole.Feeding

/-!
# Loops that become one operation

A loop with a body of additions only, or of moves only, is recognised wherever it stands. Its body
may cancel and begin again any number of times: then the opening bracket is the newest operation
held back, and it becomes the older one at the next command. Nothing in front of the loop is
touched meanwhile.
-/
namespace TapeMachine

/-- How much a word of additions adds in all. -/
def Word.gain (w : Word) : ℤ := (w.map Command.amount).sum

/-- The operations of one tag that merge with each other, and how a sum of theirs is kept. -/
inductive Merging : Tag → (ℤ → ℤ) → Prop
  | moves : Merging .move id
  | additions : Merging .add wrap

namespace Merging

variable {tag : Tag} {f : ℤ → ℤ} {older : Option Op} {m n : ℤ}

theorem combine (h : Merging tag f) :
    Window.combine ⟨older, some ⟨tag, some m⟩⟩ ⟨tag, some n⟩ =
      .ok (some ⟨older, some ⟨tag, some (f (m + n))⟩⟩) := by
  cases h <;> rfl

theorem combine_bracket (h : Merging tag f) {x : Option ℤ} :
    Window.combine ⟨older, some ⟨.openLoop, x⟩⟩ ⟨tag, some n⟩ = .ok none := by
  cases h <;> rfl

theorem isNoop_iff (h : Merging tag f) : Op.isNoop ⟨tag, some n⟩ = true ↔ n = 0 := by
  cases h <;> simp [Op.isNoop]

theorem fold_add (h : Merging tag f) : f (f m + n) = f (m + n) := by
  cases h <;> simp

theorem fold_zero (h : Merging tag f) : f 0 = 0 := by
  cases h <;> rfl

end Merging

namespace Pass

variable {done : List Op} {bracket : Op} {tag : Tag} {f : ℤ → ℤ} {m n : ℤ} {s t : Pass}

/-- The pass is inside a loop behind `done`: all that has been read of the body has come to one
operation with payload `n`, or to nothing if that is zero. -/
inductive Inside (done : List Op) (bracket : Op) (tag : Tag) : ℤ → Pass → Prop
  | empty {e : Array Op} {o : Option Op} (front : e.toList ++ o.toList = done) :
    Inside done bracket tag 0 ⟨e, ⟨o, some bracket⟩⟩
  | filled {e : Array Op} {n : ℤ} (front : e.toList = done) (ne : n ≠ 0) :
    Inside done bracket tag n ⟨e, ⟨some bracket, some ⟨tag, some n⟩⟩⟩

/-- Every opening bracket is let in. -/
theorem feed_opening (tag : Tag) (s : Pass) (x : Option ℤ) :
    ∃ t, s.feed ⟨.openLoop, x⟩ = .ok t ∧ Inside s.toList ⟨.openLoop, x⟩ tag 0 t := by
  obtain ⟨e, older, newer⟩ := s
  have hnone : Window.combine ⟨older, newer⟩ ⟨.openLoop, x⟩ = .ok none := by
    rcases newer with _ | ⟨_ | _ | _ | _ | _ | _, arg⟩ <;> rfl
  refine ⟨_, feed_of_combine_none hnone, .empty ?_⟩
  simp [toList, Window.toList]

theorem Inside.feed {x : Option ℤ} (merging : Merging tag f)
    (h : Inside done ⟨.openLoop, x⟩ tag m s) (ne : n ≠ 0) (kept : f n = n) :
    ∃ t, s.feed ⟨tag, some n⟩ = .ok t ∧ Inside done ⟨.openLoop, x⟩ tag (f (m + n)) t := by
  cases h with
  | empty front =>
    refine ⟨_, feed_of_combine_none merging.combine_bracket, ?_⟩
    rw [zero_add, kept]
    exact .filled (by simpa using front) ne
  | filled front _ =>
    refine ⟨_, feed_of_combine_some merging.combine, ?_⟩
    by_cases h0 : f (m + n) = 0
    · have hnoop := (merging.isNoop_iff (n := f (m + n))).mpr h0
      simp only [Window.settle, Option.any_some, hnoop, if_true]
      rw [h0]
      exact .empty (by simpa using front)
    · have hnoop : Op.isNoop ⟨tag, some (f (m + n))⟩ ≠ true := fun h => h0 (merging.isNoop_iff.mp h)
      simp only [Window.settle, Option.any_some, hnoop]
      exact .filled front h0

/-- Over a body of one kind the pass keeps the sum of what has been read. -/
theorem Inside.reads {x : Option ℤ} (merging : Merging tag f)
    (h : Inside done ⟨.openLoop, x⟩ tag m s) (fixed : f m = m) (ns : List ℤ)
    (units : ∀ n ∈ ns, n ≠ 0 ∧ f n = n) :
    ∃ t, Reads s (ns.map fun n => ⟨tag, some n⟩) t ∧
      Inside done ⟨.openLoop, x⟩ tag (f (m + ns.sum)) t := by
  induction ns generalizing m s with
  | nil => exact ⟨s, reads_nil.mpr rfl, by simpa [fixed] using h⟩
  | cons n ns ih =>
    obtain ⟨⟨ne, kept⟩, units⟩ := List.forall_mem_cons.mp units
    obtain ⟨t, hfeed, ht⟩ := h.feed merging ne kept
    have hfixed : f (f (m + n)) = f (m + n) := by simpa using merging.fold_add (m := m + n) (n := 0)
    obtain ⟨u, hreads, hu⟩ := ih ht hfixed units
    refine ⟨u, reads_cons.mpr ⟨t, hfeed, hreads⟩, ?_⟩
    rwa [merging.fold_add, add_assoc, ← List.sum_cons] at hu

/-- A loop behind whatever has been read, up to the end of its body. -/
theorem reads_body (merging : Merging tag f) (s : Pass) (x : Option ℤ) (ns : List ℤ)
    (units : ∀ n ∈ ns, n ≠ 0 ∧ f n = n) :
    ∃ t, Reads s (⟨.openLoop, x⟩ :: ns.map fun n => ⟨tag, some n⟩) t ∧
      Inside s.toList ⟨.openLoop, x⟩ tag (f ns.sum) t := by
  obtain ⟨t, hfeed, ht⟩ := feed_opening tag s x
  obtain ⟨u, hreads, hu⟩ := ht.reads merging merging.fold_zero ns units
  rw [zero_add] at hu
  exact ⟨u, reads_cons.mpr ⟨t, hfeed, hreads⟩, hu⟩

/-- At the closing bracket nothing is held back but the operation that the loop becomes. -/
theorem Inside.close_additions {x y : Option ℤ} (h : Inside done ⟨.openLoop, x⟩ .add (-1) s) :
    ∃ e, s.feed ⟨.closeLoop, y⟩ = .ok ⟨e, ⟨none, some ⟨.set, some 0⟩⟩⟩ ∧ e.toList = done := by
  cases h with
  | filled front _ => exact ⟨_, rfl, front⟩

theorem Inside.close_moves {x y : Option ℤ} (h : Inside done ⟨.openLoop, x⟩ .move n s)
    (ne : n ≠ 0) :
    ∃ e, s.feed ⟨.closeLoop, y⟩ = .ok ⟨e, ⟨none, some ⟨.seek, some n⟩⟩⟩ ∧ e.toList = done := by
  cases h with
  | empty _ => exact absurd rfl ne
  | filled front _ => exact ⟨_, rfl, front⟩

/-- A `set` takes in all additions that follow it. -/
theorem reads_set_additions (e : Array Op) (v : ℤ) (ns : List ℤ) :
    Reads ⟨e, ⟨none, some ⟨.set, some (wrap v)⟩⟩⟩ (ns.map fun n => ⟨.add, some n⟩)
      ⟨e, ⟨none, some ⟨.set, some (wrap (v + ns.sum))⟩⟩⟩ := by
  induction ns generalizing v with
  | nil => simp [reads_nil]
  | cons n ns ih =>
    refine reads_cons.mpr ⟨⟨e, ⟨none, some ⟨.set, some (wrap (v + n))⟩⟩⟩, ?_, ?_⟩
    · rw [feed_of_combine_some (w := ⟨none, some ⟨.set, some (wrap (wrap v + n))⟩⟩) rfl,
        wrap_wrap_add]
      rfl
    · rw [List.sum_cons, ← add_assoc]
      exact ih (v + n)

end Pass

section Words

variable {w : Word}

theorem map_ofCommand_of_additions (h : ∀ c ∈ w, c.isAddition = true) :
    w.map Op.ofCommand = (w.map Command.amount).map fun n => ⟨.add, some n⟩ := by
  rw [List.map_map]
  refine List.map_congr_left fun c hc => ?_
  have hc := h c hc
  cases c with
  | increment | decrement => rfl
  | _ => cases hc

theorem map_ofCommand_of_moves (h : ∀ c ∈ w, c.isMove = true) :
    w.map Op.ofCommand = (w.map Command.shift).map fun n => ⟨.move, some n⟩ := by
  rw [List.map_map]
  refine List.map_congr_left fun c hc => ?_
  have hc := h c hc
  cases c with
  | left | right => rfl
  | _ => cases hc

theorem amounts_of_additions (h : ∀ c ∈ w, c.isAddition = true) :
    ∀ n ∈ w.map Command.amount, n ≠ 0 ∧ wrap n = n := by
  intro n hn
  obtain ⟨c, hc, rfl⟩ := List.mem_map.mp hn
  have hc := h c hc
  cases c with
  | increment | decrement => exact ⟨by decide, by decide⟩
  | _ => cases hc

theorem shifts_of_moves (h : ∀ c ∈ w, c.isMove = true) :
    ∀ n ∈ w.map Command.shift, n ≠ 0 ∧ id n = n := by
  intro n hn
  obtain ⟨c, hc, rfl⟩ := List.mem_map.mp hn
  have hc := h c hc
  cases c with
  | left | right => exact ⟨by decide, rfl⟩
  | _ => cases hc

end Words

namespace Pass

variable {s : Pass} {cmds body more : List Command}

theorem reads_additions_loop (s : Pass) (additions : ∀ c ∈ body, c.isAddition = true)
    (counts : Word.gain body ≡ -1 [ZMOD 256]) (hmore : ∀ c ∈ more, c.isAddition = true) :
    ∃ e, Reads s ((.loopStart :: (body ++ .loopEnd :: more)).map Op.ofCommand)
        ⟨e, ⟨none, some ⟨.set, some (wrap (Word.gain more))⟩⟩⟩ ∧ e.toList = s.toList := by
  obtain ⟨t, ht, inside⟩ := reads_body .additions s (some 0) (body.map Command.amount)
    (amounts_of_additions additions)
  have hcount : wrap (Word.gain body) = wrap (-1) := by
    rw [wrap_eq_wrap_iff]
    exact Int.modEq_iff_dvd.mp counts.symm
  rw [← Word.gain, hcount] at inside
  obtain ⟨e, hclose, he⟩ := inside.close_additions (y := some 0)
  have hset := reads_set_additions e 0 (more.map Command.amount)
  rw [zero_add, ← Word.gain] at hset
  refine ⟨e, ?_, he⟩
  rw [List.map_cons, List.map_append, List.map_cons, map_ofCommand_of_additions additions,
    map_ofCommand_of_additions hmore, ← List.cons_append]
  exact reads_append.mpr ⟨t, ht, reads_cons.mpr ⟨_, hclose, hset⟩⟩

theorem reads_moves_loop (s : Pass) (moves : ∀ c ∈ body, c.isMove = true)
    (ne : Word.net body ≠ 0) :
    ∃ e, Reads s ((.loopStart :: (body ++ [.loopEnd])).map Op.ofCommand)
        ⟨e, ⟨none, some ⟨.seek, some (Word.net body)⟩⟩⟩ ∧ e.toList = s.toList := by
  obtain ⟨t, ht, inside⟩ := reads_body .moves s (some 0) (body.map Command.shift)
    (shifts_of_moves moves)
  obtain ⟨e, hclose, he⟩ := inside.close_moves (y := some 0) ne
  refine ⟨e, ?_, he⟩
  rw [List.map_cons, List.map_append, List.map_singleton, map_ofCommand_of_moves moves,
    ← List.cons_append]
  exact reads_append.mpr ⟨t, ht, reads_singleton.mpr hclose⟩

/-- What leaves one operation held back behind all that was there adds that operation. -/
theorem optimized_append {e : Array Op} {op : Op} (hs : Reads {} (cmds.map Op.ofCommand) s)
    (h : Reads s (more.map Op.ofCommand) ⟨e, ⟨none, some op⟩⟩) (he : e.toList = s.toList) :
    optimized (cmds ++ more) = .ok (s.toList ++ [op]) := by
  rw [optimized_of_reads (t := ⟨e, ⟨none, some op⟩⟩)]
  · simp [toList, Window.toList, he]
  · rw [List.map_append]
    exact reads_append.mpr ⟨s, hs, h⟩

end Pass

/-- Behind any commands, a loop that adds −1 in all becomes a `set`, which takes in the additions
that follow, and a loop that moves the pointer in all becomes a `seek`. -/
theorem optimize_pure_loops (cmds body : List Command) :
    ∃ ops, optimized cmds = .ok ops ∧
      ((∀ c ∈ body, c.isAddition = true) → Word.gain body ≡ -1 [ZMOD 256] →
        ∀ more : List Command, (∀ c ∈ more, c.isAddition = true) →
          optimized (cmds ++ .loopStart :: (body ++ .loopEnd :: more)) =
            .ok (ops ++ [⟨.set, some (wrap (Word.gain more))⟩])) ∧
      ((∀ c ∈ body, c.isMove = true) → Word.net body ≠ 0 →
        optimized (cmds ++ .loopStart :: (body ++ [.loopEnd])) =
          .ok (ops ++ [⟨.seek, some (Word.net body)⟩])) := by
  obtain ⟨s, hs, hops⟩ := Pass.exists_reads_commands cmds
  refine ⟨s.toList, hops, fun additions counts more hmore => ?_, fun moves ne => ?_⟩
  · obtain ⟨e, hreads, he⟩ := Pass.reads_additions_loop s additions counts hmore
    exact Pass.optimized_append hs hreads he
  · obtain ⟨e, hreads, he⟩ := Pass.reads_moves_loop s moves ne
    exact Pass.optimized_append hs hreads he

/-- Behind `]+[`, with a bracket held back, a body that cancels twice before it counts down, and one
that cancels before it moves two cells to the left. -/
theorem optimize_pure_loops_cancelling :
    optimized (commands (symbols "]+[[+--++--]-+++-")) =
      .ok [⟨.closeLoop, some 0⟩, ⟨.add, some 1⟩, ⟨.openLoop, some 0⟩, ⟨.set, some 1⟩] ∧
    optimized (commands (symbols "]+[[><<><<]")) =
      .ok [⟨.closeLoop, some 0⟩, ⟨.add, some 1⟩, ⟨.openLoop, some 0⟩, ⟨.seek, some (-2)⟩] := by
  have hcmds : optimized [.loopEnd, .increment, .loopStart] =
      .ok [⟨.closeLoop, some 0⟩, ⟨.add, some 1⟩, ⟨.openLoop, some 0⟩] := by decide
  constructor
  · obtain ⟨ops, hops, hset, -⟩ := optimize_pure_loops [.loopEnd, .increment, .loopStart]
      [.increment, .decrement, .decrement, .increment, .increment, .decrement, .decrement]
    obtain rfl := Except.ok.inj (hops.symm.trans hcmds)
    exact hset (by decide) (by decide)
      [.decrement, .increment, .increment, .increment, .decrement] (by decide)
  · obtain ⟨ops, hops, -, hseek⟩ := optimize_pure_loops [.loopEnd, .increment, .loopStart]
      [.right, .left, .left, .right, .left, .left]
    obtain rfl := Except.ok.inj (hops.symm.trans hcmds)
    exact hseek (by decide) (by decide)

end TapeMachine
