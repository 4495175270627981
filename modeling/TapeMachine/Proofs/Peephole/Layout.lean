import TapeMachine.Proofs.Brackets.Assembly
import TapeMachine.Proofs.Peephole.Trace

/-!
# Where the pieces of a source stand

The pieces of a source have the brackets of its optimized program: what is dropped or becomes a
single operation is balanced in itself. So a source is balanced if and only if its program is,
compilation succeeds on the balanced sources, and the loops of a program stand for loops of the
source.
-/
namespace TapeMachine

open Word Brackets

theorem Command.bracket?_of_isStraight {c : Command} (h : c.isStraight = true) :
    c.bracket? = none := by
  cases c <;> simp_all [isStraight, isMove, isAddition, bracket?]

theorem Word.Acts.brackets {w : Word} {n a : ℤ} (h : Acts w n a) :
    ∀ x ∈ w.map Command.bracket?, x = none := by
  intro x hx
  obtain ⟨c, hc, rfl⟩ := List.mem_map.mp hx
  exact Command.bracket?_of_isStraight (h.straight c hc)

theorem Word.Acts.covers_iff {w : Word} {n a d : ℤ} (h : Acts w n a) :
    Covers d (w.map Command.bracket?) ↔ 0 ≤ d := by
  refine ⟨fun hc => by simpa using hc [] List.nil_prefix, fun hd p hp => ?_⟩
  rw [depth_eq_zero_of_forall_none fun x hx => h.brackets x (hp.mem hx)]
  omega

theorem Word.Acts.depth {w : Word} {n a : ℤ} (h : Acts w n a) :
    depth (w.map Command.bracket?) = 0 :=
  depth_eq_zero_of_forall_none h.brackets

namespace Stands

variable {op : Op} {w : Word} {d : ℤ}

theorem depth (h : Stands op w) : depth (w.map Command.bracket?) = weight op.bracket? := by
  cases h with
  | move h _ => exact h.depth
  | add _ h _ _ => exact h.depth
  | openLoop h | closeLoop h | print h | read h =>
    simp [Command.bracket?, Op.bracket?, h.depth]
  | set hb hu _ => simp [Command.bracket?, Op.bracket?, hb.depth, hu.depth]
  | seek hb hu _ => simp [Command.bracket?, Op.bracket?, hb.depth, hu.depth]

/-- A stretch of the source closes a bracket that is not open only if its operation does. -/
theorem covers_iff (h : Stands op w) :
    Covers d (w.map Command.bracket?) ↔ Covers d [op.bracket?] := by
  have hnone : Covers d [none] ↔ 0 ≤ d := by simp [covers_cons]
  cases h with
  | move h _ => exact h.covers_iff.trans hnone.symm
  | add _ h _ _ => exact h.covers_iff.trans hnone.symm
  | openLoop h | closeLoop h | print h | read h =>
    simp [Command.bracket?, Op.bracket?, covers_cons, h.covers_iff]
  | set hb hu _ =>
    simp [Command.bracket?, Op.bracket?, covers_cons, covers_append, hb.covers_iff, hb.depth,
      hu.covers_iff]
    omega
  | seek hb hu _ =>
    simp [Command.bracket?, Op.bracket?, covers_cons, covers_append, hb.covers_iff, hb.depth,
      hu.covers_iff]
    omega

theorem of_opening (h : Stands op w) (hop : op.bracket? = some .opening) :
    ∃ u, w = .loopStart :: u ∧ Acts u 0 0 := by
  cases h with
  | openLoop h => exact ⟨_, rfl, h⟩
  | _ => cases hop

theorem of_closing (h : Stands op w) (hop : op.bracket? = some .closing) :
    ∃ u, w = .loopEnd :: u ∧ Acts u 0 0 := by
  cases h with
  | closeLoop h => exact ⟨_, rfl, h⟩
  | _ => cases hop

end Stands

namespace Piece

def brackets (pieces : List Piece) : List (Option Bracket) := pieces.map fun p => p.op.bracket?

def stretch (pieces : List Piece) : Word := pieces.flatMap Piece.word

@[simp] theorem stretch_append (l r : List Piece) : stretch (l ++ r) = stretch l ++ stretch r := by
  simp [stretch]

@[simp] theorem stretch_cons (p : Piece) (l : List Piece) :
    stretch (p :: l) = p.word ++ stretch l := by
  simp [stretch]

variable {pieces : List Piece} {d : ℤ}

theorem depth_stretch (h : ∀ p ∈ pieces, Stands p.op p.word) :
    depth ((stretch pieces).map Command.bracket?) = depth (brackets pieces) := by
  induction pieces with
  | nil => rfl
  | cons p pieces ih =>
    rw [stretch_cons, List.map_append, depth_append, (h p (by simp)).depth,
      ih fun q hq => h q (List.mem_cons_of_mem _ hq)]
    simp [brackets]

theorem covers_stretch_iff (h : ∀ p ∈ pieces, Stands p.op p.word) :
    Covers d ((stretch pieces).map Command.bracket?) ↔ Covers d (brackets pieces) := by
  induction pieces generalizing d with
  | nil => rfl
  | cons p pieces ih =>
    have hp := h p (by simp)
    rw [stretch_cons, List.map_append, covers_append, hp.covers_iff, hp.depth,
      ih fun q hq => h q (List.mem_cons_of_mem _ hq)]
    rw [show brackets (p :: pieces) = [p.op.bracket?] ++ brackets pieces from rfl, covers_append]
    simp

theorem balanced_stretch_iff (h : ∀ p ∈ pieces, Stands p.op p.word) :
    Balanced ((stretch pieces).map Command.bracket?) ↔ Balanced (brackets pieces) := by
  have hd := depth_stretch h
  have hc := covers_stretch_iff (d := 0) h
  exact ⟨fun b => ⟨hc.mp b.nested, hd ▸ b.closed⟩, fun b => ⟨hc.mpr b.nested, hd.trans b.closed⟩⟩

end Piece

namespace Account

open Piece

variable {a : Account} {l m r : List Piece} {p q : Piece}

/-- The position behind the lead and some pieces. -/
def place (a : Account) (l : List Piece) : ℕ := a.lead.length + (stretch l).length

theorem place_append (a : Account) (l r : List Piece) :
    a.place (l ++ r) = a.place l + (stretch r).length := by
  rw [place, place, stretch_append, List.length_append, add_assoc]

theorem place_concat (a : Account) (l : List Piece) (p : Piece) :
    a.place (l ++ [p]) = a.place l + p.word.length := by
  simp [place_append, stretch]

theorem brackets_pieces (a : Account) : brackets a.pieces = a.ops.map Op.bracket? := by
  simp [brackets, ops]

theorem Sound.depth_eq (h : a.Sound) :
    depth (a.words.map Command.bracket?) = depth (a.ops.map Op.bracket?) := by
  rw [← brackets_pieces, ← depth_stretch h.stands, words, List.map_append, depth_append,
    h.idle.depth, zero_add]
  rfl

theorem Sound.covers_iff (h : a.Sound) {d : ℤ} :
    Covers d (a.words.map Command.bracket?) ↔ Covers d (a.ops.map Op.bracket?) := by
  rw [← brackets_pieces, ← covers_stretch_iff h.stands, words, List.map_append, covers_append,
    h.idle.covers_iff, h.idle.depth, add_zero]
  refine ⟨fun hc => hc.2, fun hc => ⟨?_, hc⟩⟩
  simpa using hc [] List.nil_prefix

theorem Sound.balanced_iff (h : a.Sound) :
    Balanced (a.words.map Command.bracket?) ↔ Balanced (a.ops.map Op.bracket?) := by
  constructor
  · exact fun b => ⟨h.covers_iff.mp b.nested, h.depth_eq ▸ b.closed⟩
  · exact fun b => ⟨h.covers_iff.mpr b.nested, h.depth_eq.trans b.closed⟩

/-- A scan finds the same fault in a source as in its program. -/
theorem Sound.fault_scan_eq (h : a.Sound) :
    (scan (a.words.map Command.bracket?) 0 []).fault =
      (scan (a.ops.map Op.bracket?) 0 []).fault := by
  simp only [fault_scan_start, h.covers_iff, h.depth_eq]

/-- A loop of a program, from its opening piece to its closing one. -/
structure Loop (a : Account) (l : List Piece) (p : Piece) (m : List Piece) (q : Piece)
    (r : List Piece) : Prop where
  pieces : a.pieces = l ++ p :: (m ++ q :: r)
  opening : p.op.bracket? = some .opening
  closing : q.op.bracket? = some .closing
  body : Balanced (brackets m)

namespace Loop

theorem paired_ops (h : a.Loop l p m q r) :
    Paired (a.ops.map Op.bracket?) l.length (l ++ p :: m).length := by
  refine ⟨brackets l, brackets m, brackets r, ?_, by simp [brackets], ?_, h.body⟩
  · rw [← brackets_pieces, h.pieces]
    simp [brackets, h.opening, h.closing]
  · simp [brackets]
    omega

/-- The loop that a loop of the program stands for. -/
theorem paired_words (h : a.Loop l p m q r) (hs : a.Sound) :
    Paired (a.words.map Command.bracket?) (a.place l) (a.place (l ++ p :: m)) := by
  have hstands : ∀ x ∈ l ++ p :: (m ++ q :: r), Stands x.op x.word := h.pieces ▸ hs.stands
  obtain ⟨pop, pword⟩ := p
  obtain ⟨qop, qword⟩ := q
  have hp : Stands pop pword := hstands ⟨pop, pword⟩ (by simp)
  have hq : Stands qop qword := hstands ⟨qop, qword⟩ (by simp)
  have hm : Balanced ((stretch m).map Command.bracket?) :=
    (balanced_stretch_iff fun x hx => hstands x (by simp [hx])).mpr h.body
  have hopen := h.opening
  have hclose := h.closing
  cases hp with
  | @openLoop u hu =>
    cases hq with
    | @closeLoop v hv =>
      refine ⟨(a.lead ++ stretch l).map Command.bracket?,
        (u ++ stretch m).map Command.bracket?, (v ++ stretch r).map Command.bracket?,
        ?_, ?_, ?_, ?_⟩
      · rw [Account.words, h.pieces]
        simp [Piece.stretch, Command.bracket?]
      · simp [place]
      · simp [place_append]
        omega
      · rw [List.map_append]
        exact (Balanced.of_forall_none hu.brackets).append hm
    | _ => simp [Op.bracket?] at hclose
  | _ => simp [Op.bracket?] at hopen

theorem pieces_closing (h : a.Loop l p m q r) : a.pieces = (l ++ p :: m) ++ q :: r := by
  simp [h.pieces]

theorem exists_opening (h : a.Loop l p m q r) (hs : a.Sound) :
    ∃ u, p.word = .loopStart :: u ∧ Acts u 0 0 :=
  (hs.stands p (by simp [h.pieces])).of_opening h.opening

theorem exists_closing (h : a.Loop l p m q r) (hs : a.Sound) :
    ∃ u, q.word = .loopEnd :: u ∧ Acts u 0 0 :=
  (hs.stands q (by simp [h.pieces])).of_closing h.closing

end Loop

theorem exists_loop_of_opening (bal : Balanced (a.ops.map Op.bracket?))
    (hp : a.pieces = l ++ p :: r) (hopen : p.op.bracket? = some .opening) :
    ∃ m q r', r = m ++ q :: r' ∧ a.Loop l p m q r' := by
  have hl : (a.ops.map Op.bracket?)[l.length]? = some (some .opening) := by
    rw [← brackets_pieces, hp]
    simp [brackets, hopen]
  obtain ⟨j, x, b, c, heq, hx, -, hb⟩ := exists_paired_of_opening bal hl
  rw [← brackets_pieces, hp, brackets, List.map_append, List.map_cons] at heq
  obtain ⟨-, heq⟩ := List.append_inj heq (by simpa using hx.symm)
  obtain ⟨m, r₁, rfl, hm, hr₁⟩ := List.map_eq_append_iff.mp (List.cons.inj heq).2
  obtain ⟨q, r', rfl, hq, -⟩ := List.map_eq_cons_iff.mp hr₁
  exact ⟨m, q, r', rfl, hp, hopen, hq, by rw [brackets, hm]; exact hb⟩

theorem exists_loop_of_closing (bal : Balanced (a.ops.map Op.bracket?))
    (hq : a.pieces = l ++ q :: r) (hclose : q.op.bracket? = some .closing) :
    ∃ l' p m, l = l' ++ p :: m ∧ a.Loop l' p m q r := by
  have hl : (a.ops.map Op.bracket?)[l.length]? = some (some .closing) := by
    rw [← brackets_pieces, hq]
    simp [brackets, hclose]
  obtain ⟨i, x, b, c, heq, rfl, hj, hb⟩ := exists_paired_of_closing bal hl
  rw [← brackets_pieces, hq, brackets, List.map_append, List.map_cons, ← List.cons_append,
    ← List.append_assoc] at heq
  obtain ⟨heq, -⟩ := List.append_inj heq (by
    rw [List.length_append, List.length_cons, List.length_map]
    omega)
  obtain ⟨l', m₁, rfl, -, hm₁⟩ := List.map_eq_append_iff.mp heq
  obtain ⟨p, m, rfl, hp, hm⟩ := List.map_eq_cons_iff.mp hm₁
  exact ⟨l', p, m, rfl, by simpa using hq, hp, hclose, by rw [brackets, hm]; exact hb⟩

/-- A loop that has become one operation is still a loop of the source. -/
theorem paired_of_idiom (hp : a.pieces = l ++ p :: r) {b u : Word} {n v : ℤ}
    (hw : p.word = .loopStart :: (b ++ .loopEnd :: u)) (hb : Acts b n v) :
    Paired (a.words.map Command.bracket?) (a.place l) (a.place l + 1 + b.length) := by
  refine ⟨(a.lead ++ stretch l).map Command.bracket?, b.map Command.bracket?,
    (u ++ stretch r).map Command.bracket?, ?_, ?_, by simp, .of_forall_none hb.brackets⟩
  · rw [Account.words, hp]
    simp [Piece.stretch, hw, Command.bracket?]
  · simp [place]

end Account

section Compile

variable {source : List Symbol} {code : Array Op}

/-- The program of an account: its operations with their loops linked, and a `stop` behind them. -/
def Account.HasProgram (a : Account) (code : Array Op) : Prop :=
  ∃ linked, (link a.ops).program = .ok linked ∧ code = linked.push ⟨.stop, none⟩

theorem Account.hasProgram_iff {a : Account} : a.HasProgram code ↔ assemble a.ops = .ok code := by
  constructor
  · rintro ⟨linked, hlink, rfl⟩
    exact assemble_of_program_link hlink
  · exact exists_program_link_of_assemble

theorem compile_eq_ok_iff :
    compile source = .ok code ↔ (Account.ofCommands (commands source)).HasProgram code := by
  rw [compile_eq_assemble, Account.optimize_eq, Account.hasProgram_iff]
  rfl

/-- Compilation fails with the fault of the source's own brackets. -/
theorem compile_eq_error_iff {f : Fault} :
    compile source = .error f ↔
      (scan ((commands source).map Command.bracket?) 0 []).fault = some f := by
  have hscan := (Account.sound_ofCommands (commands source)).fault_scan_eq
  rw [Account.words_ofCommands] at hscan
  rw [hscan, ← assemble_eq_error_iff, compile_eq_assemble, Account.optimize_eq]
  rfl

/-- The sources that compile are the balanced ones. -/
theorem exists_compile_iff :
    (∃ code, compile source = .ok code) ↔ Balanced ((commands source).map Command.bracket?) := by
  have hbal := (Account.sound_ofCommands (commands source)).balanced_iff
  rw [Account.words_ofCommands] at hbal
  rw [hbal, ← exists_assemble_iff]
  simp only [compile_eq_ok_iff, Account.hasProgram_iff]

namespace Account.HasProgram

variable {a : Account} {l m r : List Piece} {p q : Piece}

theorem balanced (h : a.HasProgram code) : Balanced (a.ops.map Op.bracket?) :=
  exists_assemble_iff.mp ⟨code, hasProgram_iff.mp h⟩

theorem size_code (h : a.HasProgram code) : code.size = a.pieces.length + 1 := by
  rw [size_assemble (hasProgram_iff.mp h), ops, List.length_map]

theorem getElem?_stop (h : a.HasProgram code) : code[a.pieces.length]? = some ⟨.stop, none⟩ := by
  rw [← List.length_map (f := Piece.op), ← ops]
  exact getElem?_assemble_stop (hasProgram_iff.mp h)

theorem getElem?_of_none (h : a.HasProgram code) (hp : a.pieces = l ++ p :: r)
    (hop : p.op.bracket? = none) : code[l.length]? = some p.op :=
  getElem?_assemble_of_none (hasProgram_iff.mp h) (by simp [ops, hp]) hop

/-- The brackets of a loop know each other. -/
theorem getElem?_loop (h : a.HasProgram code) (hl : a.Loop l p m q r) :
    code[l.length]? = some ⟨.openLoop, some (l ++ p :: m).length⟩ ∧
      code[(l ++ p :: m).length]? = some ⟨.closeLoop, some l.length⟩ :=
  getElem?_assemble_of_paired (hasProgram_iff.mp h) hl.paired_ops

/-- What an operation of a program was made from, and where it stands. -/
inductive Origin (a : Account) : ℕ → Op → Prop
  | piece {l r : List Piece} {p : Piece} (pieces : a.pieces = l ++ p :: r)
    (plain : p.op.bracket? = none) : Origin a l.length p.op
  | opening {l m r : List Piece} {p q : Piece} (loop : a.Loop l p m q r) :
    Origin a l.length ⟨.openLoop, some (l ++ p :: m).length⟩
  | closing {l m r : List Piece} {p q : Piece} (loop : a.Loop l p m q r) :
    Origin a (l ++ p :: m).length ⟨.closeLoop, some l.length⟩
  | stop : Origin a a.pieces.length ⟨.stop, none⟩

theorem origin (h : a.HasProgram code) {k : ℕ} {op : Op} (hop : code[k]? = some op) :
    Origin a k op := by
  have hlt := (Array.getElem?_eq_some_iff.mp hop).1
  rw [h.size_code] at hlt
  rcases Nat.lt_succ_iff_lt_or_eq.mp hlt with hk | rfl
  · obtain ⟨l, p, r, hp, rfl⟩ : ∃ l p r, a.pieces = l ++ p :: r ∧ l.length = k :=
      ⟨a.pieces.take k, a.pieces[k], a.pieces.drop (k + 1),
        by rw [← List.drop_eq_getElem_cons hk, List.take_append_drop],
        List.length_take_of_le hk.le⟩
    match hb : p.op.bracket? with
    | none =>
      obtain rfl := Option.some.inj (hop.symm.trans (h.getElem?_of_none hp hb))
      exact .piece hp hb
    | some .opening =>
      obtain ⟨m, q, r', rfl, hl⟩ := exists_loop_of_opening h.balanced hp hb
      obtain rfl := Option.some.inj (hop.symm.trans (h.getElem?_loop hl).1)
      exact .opening hl
    | some .closing =>
      obtain ⟨l', q, m, rfl, hl⟩ := exists_loop_of_closing h.balanced hp hb
      obtain rfl := Option.some.inj (hop.symm.trans (h.getElem?_loop hl).2)
      exact .closing hl
  · obtain rfl := Option.some.inj (hop.symm.trans h.getElem?_stop)
    exact .stop

end Account.HasProgram
end Compile
end TapeMachine
