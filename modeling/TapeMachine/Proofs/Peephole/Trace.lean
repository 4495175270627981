import TapeMachine.Proofs.Peephole.Piece

/-!
# The peephole pass with its sources

The pass again, with the stretch of the source that each operation was made of. What is dropped
goes to the operation before it, and to the lead of the program if there is none. The pieces of
a source therefore hold all of it, in order, and their operations are the optimized program.
-/
namespace TapeMachine

open Word

/-- How far the pass has come. The pieces have the newest first; `held` of them are held back. -/
structure Trace where
  lead : Word := []
  pieces : List Piece := []
  held : ℕ := 0

namespace Trace

def window (t : Trace) : Window :=
  match t.held, t.pieces with
  | 0, _ => ⟨none, none⟩
  | 1, p :: _ => ⟨none, some p.op⟩
  | _ + 2, p :: x :: _ => ⟨some x.op, some p.op⟩
  | _, _ => ⟨none, none⟩

/-- Holds back a command that no rule takes in. -/
def push (t : Trace) (c : Command) : Trace :=
  ⟨t.lead, ⟨Op.ofCommand c, [c]⟩ :: t.pieces, if t.held = 0 then 1 else 2⟩

/-- Makes one piece of the newest `k` and a command. -/
def join (t : Trace) (k : ℕ) (op : Op) (c : Command) : Trace :=
  ⟨t.lead, ⟨op, (t.pieces.take k).reverse.flatMap Piece.word ++ [c]⟩ :: t.pieces.drop k,
    t.held + 1 - k⟩

/-- Adds a stretch of the source that does nothing to what stands before it. -/
def absorb (t : Trace) (w : Word) : Trace :=
  match t.pieces with
  | [] => { t with lead := t.lead ++ w }
  | p :: rest => { t with pieces := ⟨p.op, p.word ++ w⟩ :: rest }

/-- Drops the newest operation if it does nothing. -/
def settle (t : Trace) : Trace :=
  match t.pieces with
  | [] => t
  | p :: rest => if p.op.isNoop then absorb ⟨t.lead, rest, t.held - 1⟩ p.word else t

def feed (t : Trace) (c : Command) : Trace :=
  match t.window.combine (Op.ofCommand c) with
  | .ok (some ⟨none, some op⟩) => (t.join t.held op c).settle
  | .ok (some ⟨some _, some op⟩) => (t.join 1 op c).settle
  | _ => t.push c

/-- The pieces are the source, and their operations do what it does. -/
structure Sound (t : Trace) (read : Word) : Prop where
  words : t.lead ++ t.pieces.reverse.flatMap Piece.word = read
  idle : Acts t.lead 0 0
  stands : ∀ p ∈ t.pieces, Stands p.op p.word
  follows : t.pieces.IsChain fun q p => p.Follows q

namespace Sound

variable {lead read w : Word} {p : Piece} {rest : List Piece} {held held' : ℕ}

theorem cons (h : Sound ⟨lead, rest, held⟩ read) (hp : Stands p.op p.word)
    (hf : ∀ q ∈ rest.head?, q.Follows p) : Sound ⟨lead, p :: rest, held'⟩ (read ++ p.word) := by
  obtain ⟨hw, hi, hs, hc⟩ := h
  refine ⟨?_, hi, ?_, List.isChain_cons.mpr ⟨hf, hc⟩⟩
  · simp only [List.reverse_cons, List.flatMap_append, List.flatMap_singleton] at hw ⊢
    rw [← List.append_assoc, hw]
  · intro q hq
    rcases List.mem_cons.mp hq with rfl | hq
    · exact hp
    · exact hs q hq

theorem tail (h : Sound ⟨lead, p :: rest, held⟩ read) (held' : ℕ) :
    ∃ read', read = read' ++ p.word ∧ Sound ⟨lead, rest, held'⟩ read' ∧ Stands p.op p.word ∧
      ∀ q ∈ rest.head?, q.Follows p := by
  obtain ⟨hw, hi, hs, hc⟩ := h
  obtain ⟨hf, hc⟩ := List.isChain_cons.mp hc
  refine ⟨lead ++ rest.reverse.flatMap Piece.word, ?_, ⟨rfl, hi, ?_, hc⟩, hs p (by simp), hf⟩
  · simp only [List.reverse_cons, List.flatMap_append, List.flatMap_singleton] at hw
    rw [← hw, List.append_assoc]
  · exact fun q hq => hs q (List.mem_cons_of_mem _ hq)

theorem absorb (h : Sound ⟨lead, rest, held⟩ read) (hw : Acts w 0 0) :
    Sound (Trace.absorb ⟨lead, rest, held⟩ w) (read ++ w) := by
  cases rest with
  | nil =>
    obtain ⟨rfl, hi, hs, hc⟩ := h
    exact ⟨by simp [Trace.absorb], hi.append_idle hw, hs, hc⟩
  | cons p rest =>
    obtain ⟨read', rfl, htail, hp, hf⟩ := h.tail held
    rw [List.append_assoc]
    refine htail.cons (p := ⟨p.op, p.word ++ w⟩) (hp.append_idle hw) fun q hq => ?_
    exact (hf q hq).of_tag rfl

end Sound

/-- What the pass keeps. A move that is no longer held back while nothing else is has been
looked at where it ends. -/
structure Inv (t : Trace) (read : Word) : Prop where
  sound : Sound t read
  held_le : t.held ≤ t.pieces.length
  held_le_two : t.held ≤ 2
  settled : t.held = 0 → ∀ p ∈ t.pieces.head?, p.op.tag = .move → Settled p.word

namespace Inv

theorem initial : Inv {} [] :=
  ⟨⟨rfl, .nil, by simp, .nil⟩, le_rfl, by simp, by simp⟩

variable {lead read : Word} {p x : Piece} {rest : List Piece} {t : Trace} {c : Command} {op : Op}

theorem window_cases (h : Inv t read) :
    (t.held = 0 ∧ t.window = ⟨none, none⟩) ∨
    (∃ p rest, t = ⟨t.lead, p :: rest, 1⟩ ∧ t.window = ⟨none, some p.op⟩) ∨
    ∃ p x rest, t = ⟨t.lead, p :: x :: rest, 2⟩ ∧ t.window = ⟨some x.op, some p.op⟩ := by
  obtain ⟨lead, pieces, held⟩ := t
  have hle := h.held_le_two
  have hlen := h.held_le
  match held, pieces with
  | 0, _ => exact .inl ⟨rfl, rfl⟩
  | 1, p :: rest => exact .inr (.inl ⟨p, rest, rfl, rfl⟩)
  | 2, p :: x :: rest => exact .inr (.inr ⟨p, x, rest, rfl, rfl⟩)
  | 1, [] => simp at hlen
  | 2, [] => simp at hlen
  | 2, [_] => simp at hlen

theorem stands_newer (h : Inv t read) : ∀ op ∈ t.window.newer, ∃ w, Stands op w := by
  intro op hop
  rcases h.window_cases with ⟨-, hw⟩ | ⟨p, rest, ht, hw⟩ | ⟨p, x, rest, ht, hw⟩ <;> rw [hw] at hop
  · cases hop
  · cases hop
    exact ⟨_, h.sound.stands p (by rw [ht]; simp)⟩
  · cases hop
    exact ⟨_, h.sound.stands p (by rw [ht]; simp)⟩

/-- A piece that does nothing goes to the one before it, and leaves it settled. -/
theorem settle_of_idle {n : ℕ} {q : Piece} (h : Sound ⟨lead, rest, n⟩ read)
    (hq : q.op.isNoop = true) (hw : Acts q.word 0 0) (hn : n ≤ rest.length) (hn2 : n ≤ 2)
    (hs : n = 0 → ∀ p ∈ rest.head?, p.op.tag = .move → Settled (p.word ++ q.word)) :
    Inv (settle ⟨lead, q :: rest, n + 1⟩) (read ++ q.word) := by
  simp only [settle, hq, if_true, Nat.add_sub_cancel]
  refine ⟨h.absorb hw, ?_, ?_, ?_⟩
  · cases rest <;> simpa [absorb] using hn
  · cases rest <;> simpa [absorb] using hn2
  · cases rest with
    | nil => simp [absorb]
    | cons p rest => simpa [absorb] using hs

theorem settle_of_stands {n : ℕ} {q : Piece} (h : Sound ⟨lead, rest, n⟩ read)
    (hq : Stands q.op q.word) (hf : ∀ p ∈ rest.head?, p.Follows q) (hn : n ≤ rest.length)
    (hn1 : n ≤ 1) : Inv (settle ⟨lead, q :: rest, n + 1⟩) (read ++ q.word) := by
  simp only [settle, hq.isNoop_eq_false, Bool.false_eq_true, if_false]
  exact ⟨h.cons hq hf, by simpa using hn, by simpa using hn1, by simp⟩

theorem push (h : Inv t read)
    (hc : ∀ p ∈ t.window.newer, p.tag = .move → (Op.ofCommand c).tag ≠ .move) :
    Inv (t.push c) (read ++ [c]) := by
  have hle := h.held_le_two
  have hlen := h.held_le
  refine ⟨h.sound.cons (p := ⟨Op.ofCommand c, [c]⟩) .of_command fun p hp hmove => ?_, ?_, ?_, ?_⟩
  · rcases h.window_cases with ⟨h0, -⟩ | ⟨q, rest, ht, hw⟩ | ⟨q, x, rest, ht, hw⟩
    · exact .inl (h.settled h0 p hp hmove)
    · rw [ht] at hp
      cases hp
      exact .inr (hc p.op (by rw [hw]; rfl) hmove)
    · rw [ht] at hp
      cases hp
      exact .inr (hc p.op (by rw [hw]; rfl) hmove)
  · simp only [Trace.push, List.length_cons]
    split <;> omega
  · simp only [Trace.push]
    split <;> omega
  · simp only [Trace.push]
    split <;> simp

/-- The newest piece takes in a command and keeps its tag. -/
theorem grow {n : ℕ} (h : Inv ⟨lead, p :: rest, n + 1⟩ read) (htag : op.tag = p.op.tag)
    (hop : (op.isNoop = true ∧ Acts (p.word ++ [c]) 0 0) ∨ Stands op (p.word ++ [c])) :
    Inv (settle ⟨lead, ⟨op, p.word ++ [c]⟩ :: rest, n + 1⟩) (read ++ [c]) := by
  obtain ⟨read', rfl, hrest, hp, hf⟩ := h.sound.tail n
  have hn : n ≤ rest.length := by simpa using h.held_le
  have hn1 : n ≤ 1 := by simpa using h.held_le_two
  rw [List.append_assoc]
  rcases hop with ⟨hnoop, hw⟩ | hstands
  · refine settle_of_idle (q := ⟨op, p.word ++ [c]⟩) hrest hnoop hw hn (by omega) ?_
    intro _ z hz hmove
    rcases hf z hz hmove with hsettled | hne
    · exact hsettled.append hw
    · -- What does nothing and is no move is an addition, and it starts where the move ends.
      obtain ⟨pop, word⟩ := p
      have hadd : pop.tag = .add := by
        simp only [Op.isNoop, Bool.and_eq_true, Bool.or_eq_true, beq_iff_eq] at hnoop
        rw [htag] at hnoop
        exact hnoop.1.resolve_left hne
      cases hp with
      | @add d u _ hd _ _ _ => exact .of_idle hd (by simpa using hw.net)
      | _ => cases hadd
  · exact settle_of_stands (q := ⟨op, p.word ++ [c]⟩) hrest hstands
      (fun z hz => (hf z hz).of_tag htag) hn hn1

/-- A loop that is an idiom becomes one piece. -/
theorem close (h : Inv ⟨lead, p :: x :: rest, 2⟩ read) (hne : op.tag ≠ .move)
    (hop : Stands op (x.word ++ (p.word ++ [c]))) :
    Inv (settle ⟨lead, ⟨op, x.word ++ (p.word ++ [c])⟩ :: rest, 1⟩) (read ++ [c]) := by
  obtain ⟨read', rfl, hrest, -, -⟩ := h.sound.tail 1
  obtain ⟨read', rfl, hrest, -, -⟩ := hrest.tail 0
  rw [List.append_assoc, List.append_assoc]
  exact settle_of_stands (q := ⟨op, x.word ++ (p.word ++ [c])⟩) hrest hop
    (fun _ _ _ => .inr hne) (by simp) (by simp)

/-- Rules that leave the older operation as it is. -/
theorem grow_of_rule {n : ℕ} {older : Option Op} (h : Inv ⟨lead, p :: rest, n + 1⟩ read)
    (rule : Window.Rule ⟨older, some p.op⟩ c ⟨older, some op⟩) :
    Inv (settle ⟨lead, ⟨op, p.word ++ [c]⟩ :: rest, n + 1⟩) (read ++ [c]) := by
  obtain ⟨-, -, -, hp, -⟩ := h.sound.tail n
  obtain ⟨pop, word⟩ := p
  cases rule with
  | @moves _ k _ hc =>
    have hacts := hp.of_move.1.append (.single_move hc) (.inr rfl)
    refine h.grow rfl ?_
    by_cases h0 : k + c.shift = 0
    · rw [h0] at hacts ⊢
      exact .inl ⟨rfl, hacts⟩
    · exact .inr (.move hacts h0)
  | @additions _ k _ hc =>
    obtain ⟨hacts, d, u, rfl, hd⟩ := hp.of_add
    have hacts := (hacts.append (.single_addition hc) (.inl rfl)).wrap
    refine h.grow rfl ?_
    by_cases h0 : wrap (k + c.amount) = 0
    · rw [h0] at hacts ⊢
      exact .inl ⟨rfl, hacts⟩
    · exact .inr (.add hd hacts (signedByte_wrap _) h0)
  | setAddition hc => exact h.grow rfl (.inr (hp.set_append hc))

theorem feed (h : Inv t read) (c : Command) : Inv (t.feed c) (read ++ [c]) := by
  unfold Trace.feed
  rcases Window.combine_ofCommand t.window c h.stands_newer with ⟨hnone, hc⟩ | ⟨w, hsome, rule⟩
  · rw [hnone]
    exact h.push hc
  rw [hsome]
  rcases h.window_cases with ⟨-, hw⟩ | ⟨⟨op, word⟩, rest, ht, hw⟩ | ⟨⟨op, word⟩, x, rest, ht, hw⟩
  · rw [hw] at rule
    cases rule
  · rw [hw] at rule
    rw [ht] at h ⊢
    have hgrow {op'} (rule : Window.Rule ⟨none, some op⟩ c ⟨none, some op'⟩) := h.grow_of_rule rule
    cases rule with
    | moves hc => simpa [join] using hgrow (.moves hc)
    | additions hc => simpa [join] using hgrow (.additions hc)
    | setAddition hc => simpa [join] using hgrow (.setAddition hc)
  · rw [hw] at rule
    rw [ht] at h ⊢
    have hgrow {op'} (rule : Window.Rule ⟨some x.op, some op⟩ c ⟨some x.op, some op'⟩) :=
      h.grow_of_rule rule
    obtain ⟨xop, xword⟩ := x
    have hx : Stands xop xword := h.sound.stands ⟨xop, xword⟩ (by simp)
    have hp : Stands op word := h.sound.stands ⟨op, word⟩ (by simp)
    cases rule with
    | moves hc => simpa [join] using hgrow (.moves hc)
    | additions hc => simpa [join] using hgrow (.additions hc)
    | setAddition hc => simpa [join] using hgrow (.setAddition hc)
    | emptying =>
      obtain ⟨u, rfl, hu⟩ := hx.of_openLoop
      have hstands := Stands.set (hu.append hp.of_add.1 (.inl rfl)) .nil (by decide)
      simpa [join] using h.close (by simp) (by simpa using hstands)
    | seeking =>
      obtain ⟨u, rfl, hu⟩ := hx.of_openLoop
      have hbody := hu.append hp.of_move.1 (.inl rfl)
      have hstands := Stands.seek hbody .nil (by simpa using hp.of_move.2)
      simpa [join] using h.close (by simp) (by simpa using hstands)

theorem foldl (h : Inv t read) (cmds : Word) : Inv (cmds.foldl Trace.feed t) (read ++ cmds) := by
  induction cmds generalizing t read with
  | nil => simpa using h
  | cons c cmds ih => simpa using ih (h.feed c)

end Inv

/-- The operations that are no longer held back, the newest first. -/
def emittedOps (t : Trace) : List Op := (t.pieces.drop t.held).map Piece.op

/-- The pass and the trace are at the same point. -/
structure Tracks (t : Trace) (p : Pass) : Prop where
  window : p.window = t.window
  emitted : p.emitted.toList = t.emittedOps.reverse

theorem emittedOps_absorb (lead w : Word) (rest : List Piece) (held : ℕ) :
    emittedOps (absorb ⟨lead, rest, held⟩ w) = emittedOps ⟨lead, rest, held⟩ := by
  cases rest with
  | nil => rfl
  | cons p rest => cases held <;> simp [absorb, emittedOps]

theorem window_settle {lead : Word} {q : Piece} {rest : List Piece} {n : ℕ} (hn : n ≤ rest.length)
    (hn1 : n ≤ 1) :
    (settle ⟨lead, q :: rest, n + 1⟩).window = (window ⟨lead, q :: rest, n + 1⟩).settle := by
  match n, rest with
  | 0, [] | 0, _ :: _ | 1, x :: _ =>
    by_cases hq : q.op.isNoop = true <;> simp [settle, absorb, window, Window.settle, hq]
  | 1, [] => simp at hn

theorem emittedOps_settle (lead : Word) (q : Piece) (rest : List Piece) (n : ℕ) :
    emittedOps (settle ⟨lead, q :: rest, n + 1⟩) = emittedOps ⟨lead, rest, n⟩ := by
  by_cases hq : q.op.isNoop = true
  · simp only [settle, hq, if_true]
    exact emittedOps_absorb ..
  · simp only [settle, hq]
    rfl

namespace Tracks

variable {t : Trace} {p : Pass} {read : Word}

theorem push (h : Tracks t p) (inv : Inv t read) (c : Command) :
    Tracks (t.push c)
      ⟨p.emitted ++ p.window.older.toList, ⟨p.window.newer, some (Op.ofCommand c)⟩⟩ := by
  obtain ⟨hwin, hem⟩ := h
  rw [hwin]
  rcases inv.window_cases with ⟨h0, hw⟩ | ⟨q, rest, ht, hw⟩ | ⟨q, x, rest, ht, hw⟩ <;> rw [hw]
  · refine ⟨by simp [Trace.push, Trace.window, h0], ?_⟩
    simpa [Trace.push, emittedOps, h0] using hem
  · rw [ht] at hem ⊢
    exact ⟨rfl, by simpa [Trace.push, emittedOps] using hem⟩
  · rw [ht] at hem ⊢
    exact ⟨rfl, by simpa [Trace.push, emittedOps] using hem⟩

theorem settle {lead : Word} {q : Piece} {rest : List Piece} {n : ℕ} {w : Window}
    (hn : n ≤ rest.length) (hn1 : n ≤ 1) (hw : w = Trace.window ⟨lead, q :: rest, n + 1⟩)
    (hem : p.emitted.toList = (emittedOps ⟨lead, rest, n⟩).reverse) :
    Tracks (Trace.settle ⟨lead, q :: rest, n + 1⟩) ⟨p.emitted, w.settle⟩ := by
  refine ⟨?_, ?_⟩
  · rw [window_settle hn hn1, hw]
  · rw [emittedOps_settle]
    exact hem

theorem feed (h : Tracks t p) (inv : Inv t read) (c : Command) :
    ∃ p', p.feed (Op.ofCommand c) = .ok p' ∧ Tracks (t.feed c) p' := by
  have hwin := h.window
  unfold Pass.feed Trace.feed
  rw [hwin]
  rcases Window.combine_ofCommand t.window c inv.stands_newer with ⟨hnone, -⟩ | ⟨w, hsome, rule⟩
  · rw [hnone]
    exact ⟨_, rfl, hwin ▸ h.push inv c⟩
  rw [hsome]
  refine ⟨_, rfl, ?_⟩
  have hem := h.emitted
  rcases inv.window_cases with
    ⟨-, hw⟩ | ⟨⟨op, word⟩, rest, ht, hw⟩ | ⟨⟨op, word⟩, ⟨xop, xword⟩, rest, ht, hw⟩
  · rw [hw] at rule
    cases rule
  · rw [hw] at rule
    rw [ht] at hem ⊢
    cases rule with
    | moves | additions | setAddition =>
      simp only [join, List.drop_one, List.tail_cons, Nat.add_sub_cancel]
      exact settle (by simp) (by simp) rfl (by simpa [emittedOps] using hem)
  · rw [hw] at rule
    rw [ht] at hem ⊢
    cases rule with
    | moves | additions | setAddition =>
      simp only [join, List.drop_one, List.tail_cons, Nat.add_sub_cancel]
      exact settle (by simp) (by simp) rfl (by simpa [emittedOps] using hem)
    | emptying | seeking =>
      simp only [join, List.drop_succ_cons, List.drop_zero, Nat.reduceAdd, Nat.reduceSub]
      exact settle (by simp) (by simp) rfl (by simpa [emittedOps] using hem)

theorem foldlM (h : Tracks t p) (inv : Inv t read) (cmds : Word) :
    ∃ p', (cmds.map Op.ofCommand).foldlM Pass.feed p = .ok p' ∧
      Tracks (cmds.foldl Trace.feed t) p' := by
  induction cmds generalizing t p read with
  | nil => exact ⟨p, rfl, h⟩
  | cons c cmds ih =>
    obtain ⟨p₁, hp₁, h₁⟩ := h.feed inv c
    obtain ⟨p₂, hp₂, h₂⟩ := ih h₁ (inv.feed c)
    refine ⟨p₂, ?_, h₂⟩
    rw [List.map_cons, List.foldlM_cons, hp₁]
    exact hp₂

theorem toList (h : Tracks t p) (inv : Inv t read) :
    p.toList = (t.pieces.map Piece.op).reverse := by
  rw [Pass.toList, h.window, h.emitted]
  rcases inv.window_cases with ⟨h0, hw⟩ | ⟨q, rest, ht, hw⟩ | ⟨q, x, rest, ht, hw⟩ <;> rw [hw]
  · simp [emittedOps, h0, Window.toList]
  · rw [ht]
    simp [emittedOps, Window.toList]
  · rw [ht]
    simp [emittedOps, Window.toList]

end Tracks
end Trace

/-- A source in pieces: a lead that does nothing, and then one piece for each operation. -/
structure Account where
  lead : Word
  pieces : List Piece

namespace Account

/-- The pieces of a source after the peephole pass. -/
def ofCommands (cmds : Word) : Account :=
  let t := cmds.foldl Trace.feed {}
  ⟨t.lead, t.pieces.reverse⟩

def ops (a : Account) : List Op := a.pieces.map Piece.op

/-- The whole source. -/
def words (a : Account) : Word := a.lead ++ a.pieces.flatMap Piece.word

structure Sound (a : Account) : Prop where
  idle : Acts a.lead 0 0
  stands : ∀ p ∈ a.pieces, Stands p.op p.word
  follows : a.pieces.IsChain Piece.Follows

variable (cmds : Word)

theorem sound_ofCommands : (ofCommands cmds).Sound := by
  obtain ⟨-, hi, hs, hc⟩ := (Trace.Inv.initial.foldl cmds).sound
  refine ⟨hi, fun p hp => hs p (List.mem_reverse.mp hp), List.isChain_reverse.mpr hc⟩

@[simp] theorem words_ofCommands : (ofCommands cmds).words = cmds :=
  (Trace.Inv.initial.foldl cmds).sound.words

/-- The optimized program consists of the operations of the pieces. -/
theorem optimize_eq : optimize (cmds.map Op.ofCommand) = .ok (ofCommands cmds).ops := by
  obtain ⟨p, hp, h⟩ := (show Trace.Tracks {} {} from ⟨rfl, rfl⟩).foldlM Trace.Inv.initial cmds
  have hlist := h.toList (Trace.Inv.initial.foldl cmds)
  rw [optimize, hp, ops, ofCommands, List.map_reverse]
  exact congrArg Except.ok hlist

end Account
end TapeMachine
