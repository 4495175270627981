import TapeMachine.Machine.Compiled
import TapeMachine.Proofs.Machine.Loops
import TapeMachine.Proofs.Machine.Placement

/-!
# Programs agree with their sources

The machine for compiled programs and the tolerant machine for the source are in lockstep. Their
states correspond at the places where a piece begins, and also inside a loop that seeks a zero:
there each step of the program is one round of the loop.
-/
namespace TapeMachine

open Word Brackets

theorem Compiled.step_of_getElem? {code : Array Op} {k : ℕ} {op : Op} (h : code[k]? = some op)
    (s : Store) : step code ⟨k, s⟩ = State.exec ⟨k, s⟩ op := by
  simp [step, fetch, h]

theorem Compiled.exec_seek_of_ne {s : State} {c : Cell} (hc : s.store.cell? = some c)
    (hne : c ≠ some 0) (n : ℤ) : s.exec ⟨.seek, some n⟩ = s.move s.ip n := by
  simp only [State.exec, hc]

theorem Compiled.exec_seek {s : State} {v : ℤ} (hv : s.store.cell? = some (some v)) (hne : v ≠ 0)
    (n : ℤ) : s.exec ⟨.seek, some n⟩ = s.move s.ip n :=
  exec_seek_of_ne hv (by simpa using hne) n

namespace Account

/-- A program and a loop table made from the source of an account. -/
structure Runs (a : Account) (code : Array Op) (loops : LoopTable) : Prop where
  sound : a.Sound
  program : a.HasProgram code
  table : LoopTable.ofSource (a.words.map Symbol.command) = .ok loops

/-- Corresponding states: between two pieces, or at the end of a round of a loop that seeks. -/
inductive Meets (a : Account) : Compiled.State → Direct.State → Prop
  | between {l r : List Piece} {s : Store} (pieces : a.pieces = l ++ r) (bytes : s.Bytes)
    (inRange : s.InRange) : Meets a ⟨l.length, s⟩ ⟨a.place l, s⟩
  | seeking {l r : List Piece} {b u : Word} {n : ℤ} {s : Store} (hb : Acts b n 0)
    (hu : Acts u 0 0)
    (pieces : a.pieces = l ++ ⟨⟨.seek, some n⟩, .loopStart :: (b ++ .loopEnd :: u)⟩ :: r)
    (bytes : s.Bytes) (inRange : s.InRange) :
    Meets a ⟨l.length, s⟩ ⟨a.place l + 1 + b.length, s⟩

/-- Corresponding ends: in the same way, with the same effects. A missing input is told by the
index of its own operation or command. -/
inductive Concur : Ending → Compiled.State → Ending → Direct.State → Prop
  | halted {s : Compiled.State} {t : Direct.State} (store : s.store = t.store) :
    Concur .halted s .halted t
  | noInput {s : Compiled.State} {t : Direct.State} (i j : ℤ) (store : s.store = t.store) :
    Concur (.failed (.noInput i)) s (.failed (.noInput j)) t
  | offTape {s : Compiled.State} {t : Direct.State} (pos size : ℤ)
    (channel : s.store.channel = t.store.channel) :
    Concur (.failed (.offTape pos size)) s (.failed (.offTape pos size)) t

/-- The machine for sources, the overlooked additions passed over while the pointer is off the
tape. -/
abbrev tolerant (a : Account) (loops : LoopTable) : Direct.State → Step Direct.State :=
  Direct.tolerantStep a.overlooks a.symbols loops

variable {a : Account} {code : Array Op} {loops : LoopTable} {l r : List Piece} {p : Piece}
  {c : Command} {b u : Word} {s : Store} {n v : ℤ} {d : Direct.State}

namespace Runs

theorem partner? (h : a.Runs code loops) {i j : ℕ}
    (paired : Paired (a.words.map Command.bracket?) i j) :
    loops.partner? i = some j ∧ loops.partner? j = some i := by
  apply LoopTable.partner?_of_paired h.table
  rw [List.map_map]
  exact paired

theorem loopAt (h : a.Runs code loops) (hp : a.pieces = l ++ p :: r)
    (hw : p.word = .loopStart :: (b ++ .loopEnd :: u)) (hb : Acts b n v) :
    Direct.LoopAt a.overlooks a.symbols loops (a.place l) b u := by
  obtain ⟨hopen, hclose⟩ := h.partner? (paired_of_idiom hp hw hb)
  exact ⟨hw ▸ lies_piece hp, hopen, hclose⟩

end Runs

theorem getElem?_symbols_place (hp : a.pieces = l ++ p :: r) (hw : p.word = c :: u) :
    a.symbols[a.place l]? = some (.command c) := by
  have hl := lies_piece hp
  rw [hw] at hl
  exact hl.1

theorem Meets.next (hp : a.pieces = l ++ p :: r) (hs : s.Bytes) (hr : s.InRange) :
    Meets a ⟨l.length + 1, s⟩ ⟨a.place l + p.word.length, s⟩ := by
  have hnext : a.pieces = (l ++ [p]) ++ r := by simp [hp]
  have hmeets := Meets.between hnext hs hr
  rwa [place_concat, List.length_append, List.length_singleton, Nat.cast_succ] at hmeets

section Answers

/-- After the first command of a piece, what follows it does nothing. -/
theorem answers_first (hp : a.pieces = l ++ p :: r) (hw : p.word = c :: u) (hu : Acts u 0 0)
    (hs : s.Bytes) (hr : s.InRange) (first : Leads (a.tolerant loops) d ⟨a.place l + 1, s⟩) :
    Answers (a.tolerant loops) (Meets a) Concur d (.next ⟨l.length + 1, s⟩) := by
  have hl := lies_piece hp
  rw [hw] at hl
  refine ⟨_, .head' first ?_, Meets.next hp hs hr⟩
  rw [hw, List.length_cons, add_comm u.length, ← add_assoc]
  exact Direct.glide_idle hu hs hl.2.2 hr

/-- A checked move is answered if the source goes there or fails there. -/
theorem answers_move {k ip : ℤ}
    (hin : (s.shift n).InRange →
      ∃ d', Passes (a.tolerant loops) d d' ∧ Meets a ⟨ip, s.shift n⟩ d')
    (hout : ¬ (s.shift n).InRange →
      Direct.Fails a.overlooks a.symbols loops d (s.shift n).offTape)
    (hd : d.store.channel = s.channel) :
    Answers (a.tolerant loops) (Meets a) Concur d (Compiled.State.move ⟨k, s⟩ ip n) := by
  unfold Compiled.State.move
  by_cases hr : (s.shift n).InRange
  · rw [if_pos hr]
    exact hin hr
  · rw [if_neg hr]
    obtain ⟨t, ends, ht⟩ := hout hr
    exact ⟨_, t, ends, .offTape _ _ (hd.symm.trans ht.symm)⟩

/-- Behind a move that is not settled the pointer must be on the tape. -/
theorem Sound.guarded (hs : a.Sound) {w : Word}
    (hp : a.pieces = l ++ ⟨⟨.move, some n⟩, w⟩ :: r) :
    Settled w ∨ Direct.Guarded a.overlooks a.symbols loops (a.place l + w.length) := by
  rw [or_iff_not_imp_left]
  intro hw
  have hplace := place_concat a l ⟨⟨.move, some n⟩, w⟩
  have hnext : a.pieces = (l ++ [⟨⟨.move, some n⟩, w⟩]) ++ r := by simp [hp]
  rw [← hplace]
  cases r with
  | nil =>
    rw [List.append_nil] at hnext
    rw [← hnext]
    exact Direct.guarded_of_end a.getElem?_symbols_end a.overlooks_end
  | cons q r =>
    obtain ⟨qop, qword⟩ := q
    have hfollows : qop.tag ≠ .move := by
      have hchain := hs.follows
      rw [hp, List.isChain_append] at hchain
      exact ((List.isChain_cons_cons.mp hchain.2.1).1 rfl).resolve_left hw
    have hl := lies_piece hnext
    have hstands : Stands qop qword := hs.stands ⟨qop, qword⟩ (by simp [hp])
    -- Every operation but a move begins with a command that is checked.
    cases hstands with
    | move => exact absurd rfl hfollows
    | @add d u n hd hu =>
      have hidle : ahead u = 0 := by
        have hnet := hu.net
        rw [net_cons, Command.shift_of_isAddition hd, zero_add] at hnet
        rw [ahead_eq_net fun x hx => hu.straight x (List.mem_cons_of_mem _ hx), hnet]
      refine Direct.guarded_of_command (Command.isMove_eq_false_of_isAddition hd) hl.1 ?_
      rw [hl.2.1, hidle]
      simp
    | openLoop | closeLoop | print | read | set | seek =>
      exact Direct.guarded_of_command rfl hl.1 hl.2.1

namespace Runs

theorem answers_opening (h : a.Runs code loops)
    (hp : a.pieces = l ++ ⟨⟨.openLoop, some 0⟩, .loopStart :: u⟩ :: r) (hu : Acts u 0 0)
    (hs : s.Bytes) (hr : s.InRange) :
    Answers (a.tolerant loops) (Meets a) Concur ⟨a.place l, s⟩
      (Compiled.step code ⟨l.length, s⟩) := by
  obtain ⟨m, q, r', rfl, hloop⟩ := exists_loop_of_opening h.program.balanced hp rfl
  obtain ⟨v, hv, -⟩ := hs.exists_cell hr
  have hlead : Leads (a.tolerant loops) ⟨a.place l, s⟩ _ :=
    Direct.leads_opening (getElem?_symbols_place hp rfl) hr hv
      (h.partner? (hloop.paired_words h.sound)).1
  rw [Compiled.step_of_getElem? (h.program.getElem?_loop hloop).1]
  by_cases h0 : v = 0
  · obtain ⟨x, hx, hidle⟩ := hloop.exists_closing h.sound
    simp only [Compiled.State.exec, hv, h0, if_true, Compiled.State.jump]
    rw [if_pos h0] at hlead
    exact answers_first hloop.pieces_closing hx hidle hs hr hlead
  · simp only [Compiled.State.exec, hv, Option.some.injEq, h0, if_false, Compiled.State.advance]
    rw [if_neg h0] at hlead
    exact answers_first hp rfl hu hs hr hlead

theorem answers_closing (h : a.Runs code loops)
    (hp : a.pieces = l ++ ⟨⟨.closeLoop, some 0⟩, .loopEnd :: u⟩ :: r) (hu : Acts u 0 0)
    (hs : s.Bytes) (hr : s.InRange) :
    Answers (a.tolerant loops) (Meets a) Concur ⟨a.place l, s⟩
      (Compiled.step code ⟨l.length, s⟩) := by
  obtain ⟨l', q, m, rfl, hloop⟩ := exists_loop_of_closing h.program.balanced hp rfl
  obtain ⟨v, hv, -⟩ := hs.exists_cell hr
  have hlead : Leads (a.tolerant loops) ⟨a.place (l' ++ q :: m), s⟩ _ :=
    Direct.leads_closing (getElem?_symbols_place hp rfl) hr hv
      (h.partner? (hloop.paired_words h.sound)).2
  rw [Compiled.step_of_getElem? (h.program.getElem?_loop hloop).2]
  by_cases h0 : v = 0
  · simp only [Compiled.State.exec, hv, h0, if_true, Compiled.State.advance]
    rw [if_pos h0] at hlead
    exact answers_first hp rfl hu hs hr hlead
  · obtain ⟨x, hx, hidle⟩ := hloop.exists_opening h.sound
    simp only [Compiled.State.exec, hv, Option.some.injEq, h0, if_false, Compiled.State.jump]
    rw [if_neg h0] at hlead
    exact answers_first hloop.pieces hx hidle hs hr hlead

/-- One operation empties the cell and adds what follows the loop. -/
theorem answers_set (h : a.Runs code loops)
    (hp : a.pieces = l ++ ⟨⟨.set, some v⟩, .loopStart :: (b ++ .loopEnd :: u)⟩ :: r)
    (hb : Acts b 0 (-1)) (hu : Acts u 0 v) (hbyte : SignedByte v) (hs : s.Bytes)
    (hr : s.InRange) :
    Answers (a.tolerant loops) (Meets a) Concur ⟨a.place l, s⟩
      (Compiled.step code ⟨l.length, s⟩) := by
  obtain ⟨w, hv, -⟩ := hs.exists_cell hr
  have hloop := h.loopAt hp rfl hb
  have hzero : SignedByte 0 := by decide
  have htail : Reaches (a.tolerant loops) _ _ :=
    Direct.glide_adds hu (hs.put hzero) hloop.lies_behind hr (hs.cell?_put hr _)
  rw [Store.put_put, zero_add, hbyte.wrap_eq] at htail
  rw [Compiled.step_of_getElem? (h.program.getElem?_of_none hp rfl)]
  simp only [Compiled.State.exec, hv, Compiled.State.advance]
  refine ⟨_, (hloop.passes_emptied hb hs hr).trans_left htail, ?_⟩
  have hnext := Meets.next hp (hs.put hbyte) (s := s.put (some v)) hr
  rwa [List.length_cons, List.length_append, List.length_cons,
    show a.place l + (b.length + (u.length + 1) + 1) =
      a.place l + 1 + b.length + 1 + u.length by omega] at hnext

/-- Each step of a `seek` is a round of the loop; `d` is at the bracket before or behind it. -/
theorem answers_seek (h : a.Runs code loops)
    (hp : a.pieces = l ++ ⟨⟨.seek, some n⟩, .loopStart :: (b ++ .loopEnd :: u)⟩ :: r)
    (hb : Acts b n 0) (hu : Acts u 0 0) (hs : s.Bytes) (hr : s.InRange)
    (hv : s.cell? = some (some v)) (hd : d.store = s)
    (hlead : Leads (a.tolerant loops) d
      ⟨if v = 0 then a.place l + 1 + b.length + 1 else a.place l + 1, s⟩) :
    Answers (a.tolerant loops) (Meets a) Concur d (Compiled.step code ⟨l.length, s⟩) := by
  have hloop := h.loopAt hp rfl hb
  rw [Compiled.step_of_getElem? (h.program.getElem?_of_none hp rfl)]
  by_cases h0 : v = 0
  · subst h0
    simp only [Compiled.State.exec, hv, Compiled.State.advance]
    refine ⟨_, .head' hlead (Direct.glide_idle hu hs hloop.lies_behind hr), ?_⟩
    have hnext := Meets.next hp hs hr
    rwa [List.length_cons, List.length_append, List.length_cons,
      show a.place l + (b.length + (u.length + 1) + 1) =
        a.place l + 1 + b.length + 1 + u.length by omega] at hnext
  · rw [if_neg h0] at hlead
    rw [Compiled.exec_seek (s := ⟨l.length, s⟩) hv h0]
    apply answers_move
    · intro hin
      exact ⟨_, .head' hlead (hloop.reaches_moved hb hs hin), .seeking hb hu hp (hs.shift n) hin⟩
    · intro hoff
      exact (hloop.fails_moved hb hs hoff).of_leads hlead (by rw [hd])
    · rw [hd]

/-- Between two pieces the source answers the next operation with its piece, and at the end of the
program with its own end. -/
theorem answers_between (h : a.Runs code loops) (hp : a.pieces = l ++ r) (hs : s.Bytes)
    (hr : s.InRange) :
    Answers (a.tolerant loops) (Meets a) Concur ⟨a.place l, s⟩
      (Compiled.step code ⟨l.length, s⟩) := by
  obtain ⟨v, hv, -⟩ := hs.exists_cell hr
  cases r with
  | nil =>
    rw [List.append_nil] at hp
    rw [← hp, Compiled.step_of_getElem? h.program.getElem?_stop]
    refine ⟨_, ⟨a.place a.pieces, s⟩, .of_done ?_, .halted rfl⟩
    simp [tolerant, Direct.tolerantStep, Direct.step, a.getElem?_symbols_end, hr]
  | cons p r =>
    obtain ⟨op, w⟩ := p
    have hl := lies_piece hp
    have hstands : Stands op w := h.sound.stands ⟨op, w⟩ (by simp [hp])
    cases hstands with
    | @move w n hw ne =>
      rw [Compiled.step_of_getElem? (h.program.getElem?_of_none hp rfl)]
      apply answers_move
      · intro hin
        refine ⟨_, (Direct.glide_moves hw hs hl hin).passes ?_, Meets.next hp (hs.shift n) hin⟩
        simp [hw.ne_nil ne]
      · intro hoff
        rw [← hw.net] at hoff ⊢
        exact Direct.fails_off hw.straight hs hl (h.sound.guarded hp) hoff
      · rfl
    | @add c w n hc hw byte ne =>
      rw [Compiled.step_of_getElem? (h.program.getElem?_of_none hp rfl)]
      simp only [Compiled.State.exec, hv, Compiled.State.advance]
      refine ⟨_, (Direct.glide_adds hw hs hl hr hv).passes ?_,
        Meets.next hp (hs.put (signedByte_wrap _)) hr⟩
      simp
    | openLoop hu => exact h.answers_opening hp hu hs hr
    | closeLoop hu => exact h.answers_closing hp hu hs hr
    | print hu =>
      rw [Compiled.step_of_getElem? (h.program.getElem?_of_none hp rfl)]
      simp only [Compiled.State.exec, hv, Compiled.State.advance]
      refine answers_first hp rfl hu (hs.emit _) hr ?_
      rw [Leads, tolerant, Direct.tolerantStep_exec rfl hl.1 hr]
      simp only [Direct.State.exec, hv, Direct.State.advance]
    | read hu =>
      rw [Compiled.step_of_getElem? (h.program.getElem?_of_none hp rfl)]
      have hstep : a.tolerant loops ⟨a.place l, s⟩ = _ := Direct.tolerantStep_exec rfl hl.1 hr
      cases hread : s.channel.read with
      | none =>
        simp only [Compiled.State.exec, hread, Compiled.State.fail]
        refine ⟨_, ⟨a.place l, s⟩, .of_done ?_, .noInput _ (a.place l) rfl⟩
        rw [hstep]
        simp only [Direct.State.exec, hread, Direct.State.fail]
      | some x =>
        obtain ⟨x, rest⟩ := x
        have hcell : Store.cell? { s with channel := rest } = some (some v) := hv
        simp only [Compiled.State.exec, hread, hcell, Compiled.State.advance]
        refine answers_first hp rfl hu ((hs.withChannel rest).put (signedByte_wrap _)) hr ?_
        rw [Leads, hstep]
        simp only [Direct.State.exec, hread, Direct.State.advance]
    | set hb hu byte => exact h.answers_set hp hb hu byte hs hr
    | seek hb hu ne =>
      exact h.answers_seek hp hb hu hs hr hv rfl ((h.loopAt hp rfl hb).leads_start hr hv)

theorem lockstep (h : a.Runs code loops) :
    Lockstep (Compiled.step code) (a.tolerant loops) (Meets a) Concur := by
  intro s d hmeets
  cases hmeets with
  | between hp hs hr => exact h.answers_between hp hs hr
  | seeking hb hu hp hs hr =>
    obtain ⟨v, hv, -⟩ := hs.exists_cell hr
    exact h.answers_seek hp hb hu hs hr hv rfl ((h.loopAt hp rfl hb).leads_end hr hv)

end Runs

end Answers
end Account
end TapeMachine
