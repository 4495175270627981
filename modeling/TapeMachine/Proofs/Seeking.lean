import TapeMachine.Report
import TapeMachine.Proofs.Machine.Agreement

/-!
# Seeking a zero

A `seek` visits the places at equal distances from the pointer until one of them is off the tape or
holds a zero. Among as many places as the tape has cells there is such a one. A loop of moves, which
takes the pointer as far in each round, comes to the same place: on the way the pointer may leave
the tape, since only the brackets look at it.
-/
namespace TapeMachine

open Word Brackets

namespace Store

variable {s : Store} {n : ℤ} {k : ℕ}

/-- A search by steps of length `n` is over at its `k`-th place. -/
def Stops (s : Store) (n : ℤ) (k : ℕ) : Prop :=
  ¬ (s.shift (k * n)).InRange ∨ (s.shift (k * n)).cell? = some (some 0)

instance (s : Store) (n : ℤ) (k : ℕ) : Decidable (s.Stops n k) :=
  inferInstanceAs (Decidable (_ ∨ _))

/-- So many steps lead off the tape in either direction. -/
theorem stops_size (hr : s.InRange) (hn : n ≠ 0) : s.Stops n s.size.toNat := by
  left
  obtain ⟨lo, hi⟩ := hr
  have hsize : (s.size.toNat : ℤ) = s.size := Int.toNat_of_nonneg (lo.trans hi.le)
  rintro ⟨lo', hi'⟩
  simp only [shift, hsize] at lo' hi'
  rcases lt_or_gt_of_ne hn with neg | pos
  · have : s.size * n ≤ s.size * -1 := Int.mul_le_mul_of_nonneg_left (by omega) (by omega)
    omega
  · have : s.size * 1 ≤ s.size * n := Int.mul_le_mul_of_nonneg_left (by omega) (by omega)
    omega

theorem exists_isLeast_stops (hr : s.InRange) (hn : n ≠ 0) :
    ∃ k ≤ s.size.toNat, IsLeast {k | s.Stops n k} k :=
  have h : ∃ k, s.Stops n k := ⟨_, stops_size hr hn⟩
  ⟨Nat.find h, Nat.find_min' h (stops_size hr hn), Nat.isLeast_find h⟩

theorem not_stops_of_lt (hk : IsLeast {k | s.Stops n k} k) {j : ℕ} (hj : j < k) :
    ¬ s.Stops n j := fun h => (hk.2 h).not_gt hj

theorem not_stops (h : ¬ s.Stops n k) :
    (s.shift (k * n)).InRange ∧ (s.shift (k * n)).cell? ≠ some (some 0) := by
  rwa [Stops, not_or, not_not] at h

/-- On a tape with all its cells. -/
theorem exists_cell_of_not_stops (full : s.cells.size = s.size.toNat) (h : ¬ s.Stops n k) :
    ∃ c, (s.shift (k * n)).cell? = some c ∧ c ≠ some 0 := by
  obtain ⟨hr, hne⟩ := not_stops h
  have hcell := (isSome_cell?_iff (s := s.shift (k * n)) full).mpr hr
  obtain ⟨c, hc⟩ := Option.isSome_iff_exists.mp hcell
  exact ⟨c, hc, fun h0 => hne (h0 ▸ hc)⟩

theorem shift_succ_mul (s : Store) (k : ℕ) (n : ℤ) :
    s.shift ((k + 1 : ℕ) * n) = (s.shift (k * n)).shift n := by
  rw [shift_shift, Nat.cast_succ, add_mul, one_mul]

end Store

variable {s : Store} {n : ℤ} {k : ℕ}

namespace Compiled

variable {code : Array Op} {ip : ℤ} {c : Cell}

theorem step_of_fetch {op : Op} (hop : fetch code ip = some op) (s : Store) :
    step code ⟨ip, s⟩ = State.exec ⟨ip, s⟩ op := by
  simp only [step, hop]

section Seek

variable (hop : fetch code ip = some ⟨.seek, some n⟩)
include hop

theorem leads_seek_round (hc : s.cell? = some c) (hne : c ≠ some 0) (hr : (s.shift n).InRange) :
    Leads (step code) ⟨ip, s⟩ ⟨ip, s.shift n⟩ := by
  rw [Leads, step_of_fetch hop, exec_seek_of_ne hc hne]
  simp only [State.move, if_pos hr]

theorem step_seek_off (hc : s.cell? = some c) (hne : c ≠ some 0) (hr : ¬ (s.shift n).InRange) :
    step code ⟨ip, s⟩ = .done (.failed (s.shift n).offTape) ⟨ip, s.shift n⟩ := by
  rw [step_of_fetch hop, exec_seek_of_ne hc hne]
  simp only [State.move, if_neg hr]

theorem leads_seek_end (h0 : s.cell? = some (some 0)) :
    Leads (step code) ⟨ip, s⟩ ⟨ip + 1, s⟩ := by
  rw [Leads, step_of_fetch hop]
  simp only [State.exec, h0, State.advance]

/-- One step for each place up to one that is on the tape. -/
theorem reachesIn_seek (full : s.cells.size = s.size.toNat) (before : ∀ j < k, ¬ s.Stops n j)
    (hr : (s.shift (k * n)).InRange) :
    ReachesIn (step code) k ⟨ip, s⟩ ⟨ip, s.shift (k * n)⟩ := by
  have hrange : ∀ j ≤ k, (s.shift (j * n)).InRange := by
    intro j hj
    rcases Nat.lt_or_eq_of_le hj with hlt | rfl
    · exact (Store.not_stops (before j hlt)).1
    · exact hr
  have hround : ∀ j < k, ReachesIn (step code) 1 ⟨ip, s.shift (j * n)⟩
      ⟨ip, s.shift ((j + 1 : ℕ) * n)⟩ := by
    intro j hj
    obtain ⟨c, hc, hne⟩ := Store.exists_cell_of_not_stops full (before j hj)
    have hnext := hrange (j + 1) hj
    rw [Store.shift_succ_mul] at hnext ⊢
    exact .single (leads_seek_round hop hc hne hnext)
  simpa using ReachesIn.rounds (fun j => (⟨ip, s.shift (j * n)⟩ : State)) hround

end Seek

theorem exists_execute {size : ℤ} {channel : Channel} {e : Ending} {t : State}
    (room : Room.refusal? size = none) (run : EndsIn (step code) (.initial size channel) e t) :
    ∃ limit r, execute limit code size channel = some r ∧ r.channel = t.store.channel ∧
      r.ending = e.told := by
  obtain ⟨limit, hrun⟩ := run
  have hrun : Compiled.run limit code size channel = some (e, t) := hrun
  refine ⟨limit, ?_⟩
  simp only [execute, Compiled.report, room, hrun, Option.map_some]
  exact ⟨_, rfl, rfl, rfl⟩

/-- Carrying out a `seek` at `ip`, the machine comes to the `k`-th place. Where it is off the tape,
the report of the whole run says so, unless the place has a number too long to be written. -/
structure SeeksTo (code : Array Op) (ip n : ℤ) (s : Store) (k : ℕ) : Prop where
  found : (s.shift (k * n)).InRange →
    ReachesIn (step code) (k + 1) ⟨ip, s⟩ ⟨ip + 1, s.shift (k * n)⟩
  missed : ¬ (s.shift (k * n)).InRange →
    runFor (step code) k ⟨ip, s⟩ =
      some (.failed (.offTape (s.ptr + k * n) s.size), ⟨ip, s.shift (k * n)⟩)
  reported : ¬ (s.shift (k * n)).InRange → ∀ size channel, Room.refusal? size = none →
    Reaches (step code) (.initial size channel) ⟨ip, s⟩ →
    ∃ limit r, execute limit code size channel = some r ∧ r.channel = s.channel ∧
      r.ending = .failed (if Text.isWritable (s.ptr + k * n) && Text.isWritable s.size
        then .offTape (s.ptr + k * n) s.size else .numberTooLong)

theorem runFor_missed (hop : fetch code ip = some ⟨.seek, some n⟩)
    (full : s.cells.size = s.size.toNat) (hr : s.InRange) (hk : IsLeast {k | s.Stops n k} k)
    (off : ¬ (s.shift (k * n)).InRange) :
    runFor (step code) k ⟨ip, s⟩ =
      some (.failed (.offTape (s.ptr + k * n) s.size), ⟨ip, s.shift (k * n)⟩) := by
  cases k with
  | zero => exact absurd (by simpa using hr) off
  | succ k =>
    have hlast := Store.not_stops_of_lt hk (Nat.lt_succ_self k)
    obtain ⟨c, hc, hne⟩ := Store.exists_cell_of_not_stops full hlast
    have hreach := reachesIn_seek hop full
      (fun j hj => Store.not_stops_of_lt hk (Nat.lt_succ_of_lt hj)) (Store.not_stops hlast).1
    rw [Store.shift_succ_mul] at off ⊢
    refine hreach.runFor (n := 1) ?_
    rw [runFor, step_seek_off hop hc hne off, Store.shift_shift]
    simp [Store.offTape, Store.shift, add_mul]

theorem seeksTo (hop : fetch code ip = some ⟨.seek, some n⟩) (full : s.cells.size = s.size.toNat)
    (hr : s.InRange) (hk : IsLeast {k | s.Stops n k} k) : SeeksTo code ip n s k where
  found hin :=
    have hzero : (s.shift (k * n)).cell? = some (some 0) := hk.1.resolve_left (not_not_intro hin)
    (reachesIn_seek hop full (fun _ => Store.not_stops_of_lt hk) hin).trans
      (.single (leads_seek_end hop hzero))
  missed off := runFor_missed hop full hr hk off
  reported off _ _ room reach :=
    have missed : EndsIn (step code) ⟨ip, s⟩ _ _ := ⟨k, runFor_missed hop full hr hk off⟩
    exists_execute room (missed.of_reaches reach)

end Compiled

namespace Direct

variable {code : Array Symbol} {loops : LoopTable} {pc : ℕ} {w : Word} {c : Command}

/-- Moves are not checked, wherever they lead in between. -/
theorem reachesIn_moves (moves : ∀ c ∈ w, c.isMove = true)
    (stands : ∀ k c, w[k]? = some c → code[pc + k]? = some (.command c)) (s : Store) :
    ReachesIn (step code loops) w.length ⟨pc, s⟩ ⟨pc + w.length, s.shift (net w)⟩ := by
  induction w generalizing pc s with
  | nil => simp [ReachesIn]
  | cons c w ih =>
    have hfirst : Leads (step code loops) ⟨pc, s⟩ ⟨pc + 1, s.shift c.shift⟩ :=
      leads_shift (moves c List.mem_cons_self) (stands 0 c rfl)
    have hstands : ∀ k d, w[k]? = some d → code[pc + 1 + k]? = some (.command d) := by
      intro k d hd
      rw [Nat.add_right_comm]
      exact stands (k + 1) d hd
    have hrest := ih (fun d hd => moves d (List.mem_cons_of_mem c hd)) hstands (s.shift c.shift)
    rw [Store.shift_shift, ← net_cons, Nat.add_right_comm] at hrest
    exact ⟨_, hfirst, hrest⟩

/-- A loop with the moves `w` as its body stands at `pc`. -/
structure MovesAt (code : Array Symbol) (loops : LoopTable) (pc : ℕ) (w : Word) : Prop where
  moves : ∀ c ∈ w, c.isMove = true
  opening : code[pc]? = some (.command .loopStart)
  body : ∀ k c, w[k]? = some c → code[pc + 1 + k]? = some (.command c)
  closing : code[pc + 1 + w.length]? = some (.command .loopEnd)
  partner_opening : loops.partner? pc = some (pc + 1 + w.length)
  partner_closing : loops.partner? (pc + 1 + w.length) = some pc

/-- A source that holds the loop of the body `w`. -/
def withLoop (l : List Symbol) (w : Word) (r : List Symbol) : List Symbol :=
  l ++ .command .loopStart :: (w.map .command ++ .command .loopEnd :: r)

theorem paired_withLoop (l : List Symbol) (moves : ∀ c ∈ w, c.isMove = true) (r : List Symbol) :
    Paired ((withLoop l w r).map Symbol.bracket?) l.length (l.length + 1 + w.length) := by
  have hbody : Balanced ((w.map Symbol.command).map Symbol.bracket?) := by
    apply Balanced.of_forall_none
    rw [map_bracket?_command]
    intro x hx
    obtain ⟨c, hc, rfl⟩ := List.mem_map.mp hx
    exact Command.bracket?_of_isStraight (by simp [Command.isStraight, moves c hc])
  refine ⟨l.map Symbol.bracket?, _, r.map Symbol.bracket?, ?_, by simp, by simp, hbody⟩
  simp [withLoop, Symbol.bracket?, Command.bracket?]

theorem movesAt {l r : List Symbol} (moves : ∀ c ∈ w, c.isMove = true)
    (ht : LoopTable.ofSource (withLoop l w r) = .ok loops) :
    MovesAt (withLoop l w r).toArray loops l.length w := by
  obtain ⟨hopen, hclose⟩ := LoopTable.partner?_of_paired ht (paired_withLoop l moves r)
  refine ⟨moves, by simp [withLoop], ?_, ?_, hopen, hclose⟩
  · intro k c hk
    obtain ⟨hlt, rfl⟩ := List.getElem?_eq_some_iff.mp hk
    simp [withLoop, Nat.add_assoc, Nat.add_comm 1, List.getElem?_append, hlt]
  · simp [withLoop, Nat.add_assoc, Nat.add_comm 1]

namespace MovesAt

section Steps

variable {c : Cell} (h : MovesAt code loops pc w)
include h

theorem step_opening (hr : s.InRange) (hc : s.cell? = some c) :
    step code loops ⟨pc, s⟩ =
      .next ⟨if c = some 0 then pc + 1 + w.length + 1 else pc + 1, s⟩ := by
  simp only [step, h.opening, if_pos hr, State.exec, hc]
  split_ifs <;> simp [State.jump, State.advance, h.partner_opening]

theorem step_closing (hr : s.InRange) (hc : s.cell? = some c) :
    step code loops ⟨pc + 1 + w.length, s⟩ =
      .next ⟨if c = some 0 then pc + 1 + w.length + 1 else pc + 1, s⟩ := by
  simp only [step, h.closing, if_pos hr, State.exec, hc]
  split_ifs <;> simp [State.jump, State.advance, h.partner_closing]

theorem step_closing_off (hr : ¬ s.InRange) :
    step code loops ⟨pc + 1 + w.length, s⟩ =
      .done (.failed s.offTape) ⟨pc + 1 + w.length, s⟩ := by
  simp only [step, h.closing, if_neg hr, State.fail]

/-- From bracket to bracket. -/
theorem reachesIn_round (hr : s.InRange) (hc : s.cell? = some c) (hne : c ≠ some 0) :
    ReachesIn (step code loops) (w.length + 1) ⟨pc + 1 + w.length, s⟩
      ⟨pc + 1 + w.length, s.shift (net w)⟩ := by
  have hback : Leads (step code loops) ⟨pc + 1 + w.length, s⟩ ⟨pc + 1, s⟩ := by
    rw [Leads, h.step_closing hr hc, if_neg hne]
  exact ⟨_, hback, reachesIn_moves h.moves h.body s⟩

theorem reachesIn_rounds (full : s.cells.size = s.size.toNat)
    (before : ∀ j < k, ¬ s.Stops (net w) j) :
    ReachesIn (step code loops) (k * (w.length + 1)) ⟨pc + 1 + w.length, s⟩
      ⟨pc + 1 + w.length, s.shift (k * net w)⟩ := by
  have hround : ∀ j < k, ReachesIn (step code loops) (w.length + 1)
      ⟨pc + 1 + w.length, s.shift (j * net w)⟩
      ⟨pc + 1 + w.length, s.shift ((j + 1 : ℕ) * net w)⟩ := by
    intro j hj
    obtain ⟨c, hc, hne⟩ := Store.exists_cell_of_not_stops full (before j hj)
    rw [Store.shift_succ_mul]
    exact h.reachesIn_round (Store.not_stops (before j hj)).1 hc hne
  simpa using ReachesIn.rounds (fun j => (⟨pc + 1 + w.length, s.shift (j * net w)⟩ : State)) hround

end Steps

end MovesAt

/-- Coming to the opening bracket of a loop with body `w`, the machine goes on as a `seek` by the net
move of `w`: it leaves the loop at the `k`-th place or fails there at the closing bracket. -/
structure SeeksTo (code : Array Symbol) (loops : LoopTable) (pc : ℕ) (w : Word) (s : Store)
    (k : ℕ) : Prop where
  found : (s.shift (k * net w)).InRange →
    ReachesIn (step code loops) (k * (w.length + 1) + 1) ⟨pc, s⟩
      ⟨pc + 1 + w.length + 1, s.shift (k * net w)⟩
  missed : ¬ (s.shift (k * net w)).InRange →
    runFor (step code loops) (k * (w.length + 1) + 1) ⟨pc, s⟩ =
      some (.failed (.offTape (s.ptr + k * net w) s.size),
        ⟨pc + 1 + w.length, s.shift (k * net w)⟩)

theorem seeksTo (h : MovesAt code loops pc w) (full : s.cells.size = s.size.toNat)
    (hr : s.InRange) (hk : IsLeast {k | s.Stops (net w) k} k) : SeeksTo code loops pc w s k := by
  -- On the tape the two brackets take the same step, so the run may start at the closing one.
  have hsame : step code loops ⟨pc + 1 + w.length, s⟩ = step code loops ⟨pc, s⟩ := by
    obtain ⟨c, hc⟩ := Option.isSome_iff_exists.mp ((Store.isSome_cell?_iff full).mpr hr)
    rw [h.step_closing hr hc, h.step_opening hr hc]
  have hrounds := h.reachesIn_rounds full fun _ => Store.not_stops_of_lt hk
  constructor
  · intro hin
    have hzero : (s.shift (k * net w)).cell? = some (some 0) :=
      hk.1.resolve_left (not_not_intro hin)
    have hleave : Leads (step code loops) ⟨pc + 1 + w.length, s.shift (k * net w)⟩
        ⟨pc + 1 + w.length + 1, s.shift (k * net w)⟩ := by
      rw [Leads, h.step_closing hin hzero, if_pos rfl]
    exact (hrounds.trans (.single hleave)).congr_first hsame
  · intro hoff
    have hfail : runFor (step code loops) 1 ⟨pc + 1 + w.length, s.shift (k * net w)⟩ =
        some (.failed (.offTape (s.ptr + k * net w) s.size),
          ⟨pc + 1 + w.length, s.shift (k * net w)⟩) := by
      rw [runFor, h.step_closing_off hoff]
      rfl
    rw [← hrounds.runFor hfail, runFor, runFor, hsame]

end Direct

/-- From any place on a tape with all its cells, a search by steps of a length other than zero ends
within as many steps as the tape has cells, at the first place off the tape or with a zero. A `seek`
comes to that place, and so does every loop of moves with the same net move. A place off the tape is
named in the report of the run, if only its number can be written. -/
theorem seek_outcome (full : s.cells.size = s.size.toNat) (hr : s.InRange) (hn : n ≠ 0) :
    ∃ k ≤ s.size.toNat, IsLeast {k | s.Stops n k} k ∧
      (∀ code ip, Compiled.fetch code ip = some ⟨.seek, some n⟩ →
        Compiled.SeeksTo code ip n s k) ∧
      ∀ l w r loops, (∀ c ∈ w, c.isMove = true) → net w = n →
        LoopTable.ofSource (Direct.withLoop l w r) = .ok loops →
        Direct.SeeksTo (Direct.withLoop l w r).toArray loops l.length w s k := by
  obtain ⟨k, hle, hk⟩ := Store.exists_isLeast_stops hr hn
  refine ⟨k, hle, hk, ?_, ?_⟩
  · intro code ip hop
    exact Compiled.seeksTo hop full hr hk
  · rintro l w r loops moves rfl ht
    exact Direct.seeksTo (Direct.movesAt moves ht) full hr hk

/-- A tape with its only zero at an odd place and the pointer at its end. -/
def zeroAside : Store := ⟨5, #[some 1, some 7, some 3, some 0, some 2], 4, default⟩

theorem zeroAside_isLeast_stops : IsLeast {k | zeroAside.Stops (-2) k} 3 := by
  refine ⟨by decide, fun j hj => ?_⟩
  by_contra hlt
  have : ∀ j < 3, ¬ zeroAside.Stops (-2) j := by decide
  exact this j (not_le.mp hlt) hj

/-- Steps of two cells to the left miss the zero, and so does the loop `[<<<>]`, which leaves the tape
for a moment before it comes to the first cell. -/
theorem zeroAside_missed :
    runFor (Compiled.step #[⟨.seek, some (-2)⟩]) 3 ⟨0, zeroAside⟩ =
      some (.failed (.offTape (-2) 5), ⟨0, zeroAside.shift (-6)⟩) ∧
    ∃ loops, LoopTable.ofSource (Direct.withLoop [] [.left, .left, .left, .right] []) = .ok loops ∧
      runFor (Direct.step (Direct.withLoop [] [.left, .left, .left, .right] []).toArray loops) 16
          ⟨0, zeroAside⟩ =
        some (.failed (.offTape (-2) 5), ⟨5, zeroAside.shift (-6)⟩) := by
  obtain ⟨k, -, hk, hseek, hloop⟩ :=
    seek_outcome (s := zeroAside) (n := -2) (by decide) (by decide) (by decide)
  obtain rfl : k = 3 := hk.unique zeroAside_isLeast_stops
  refine ⟨(hseek _ 0 (by decide)).missed (by decide), _, rfl, ?_⟩
  exact (hloop [] _ [] _ (by decide) (by decide) rfl).missed (by decide)

/-- The number of the place that a step of this length leads to has one digit too many. -/
def farStep : ℤ := (10 ^ 4300 : ℕ) - 1

def farSeek : Array Op :=
  #[⟨.add, some 1⟩, ⟨.move, some 1⟩, ⟨.add, some 1⟩, ⟨.seek, some farStep⟩, ⟨.stop, none⟩]

/-- The search leaves the tape with its first step, but the run is not reported to end off the
tape. -/
theorem farSeek_not_reported :
    IsLeast {k | Store.Stops ⟨2, #[some 1, some 1], 1, .ofInput []⟩ farStep k} 1 ∧
    Reaches (Compiled.step farSeek) (.initial 2 (.ofInput []))
      ⟨3, ⟨2, #[some 1, some 1], 1, .ofInput []⟩⟩ ∧
    (execute 4 farSeek 2 (.ofInput [])).map Report.ending = some (.failed .numberTooLong) := by
  refine ⟨⟨?_, fun j hj => ?_⟩, ?_, by decide +kernel⟩
  · left
    decide +kernel
  · by_contra hlt
    obtain rfl : j = 0 := Nat.lt_one_iff.mp (not_le.mp hlt)
    revert hj
    decide +kernel
  · have hfirst : Leads (Compiled.step farSeek) (.initial 2 (.ofInput []))
        ⟨1, ⟨2, #[some 1, some 0], 0, .ofInput []⟩⟩ := rfl
    have hmove : Leads (Compiled.step farSeek) ⟨1, ⟨2, #[some 1, some 0], 0, .ofInput []⟩⟩
        ⟨2, ⟨2, #[some 1, some 0], 1, .ofInput []⟩⟩ := rfl
    have hsecond : Leads (Compiled.step farSeek) ⟨2, ⟨2, #[some 1, some 0], 1, .ofInput []⟩⟩
        ⟨3, ⟨2, #[some 1, some 1], 1, .ofInput []⟩⟩ := rfl
    exact .tail (.tail (.single hfirst) hmove) hsecond

end TapeMachine
