import TapeMachine.Backend
import TapeMachine.Proofs.Brackets.Matching
import TapeMachine.Proofs.Structured.BigStep

/-!
# Sources as nested programs

The machine for sources, with its loop table and its program counter, does what the nested program
of the source does. A part of the program stands in a stretch of the source; the machine that begins
there either fails as the part does, or comes to the end of the stretch with the store that the part
leaves. Both brackets of a loop do the same, so that the end of a body is the loop again.
-/
namespace TapeMachine

open Brackets

namespace Direct

section Placed

variable {cmds : List Command} {k i j : ℕ} {a : Action} {b p : Program}

/-- The commands of a program stand in a list from a position on. -/
def Placed (cmds : List Command) (k : ℕ) (p : Program) : Prop :=
  ∃ l r, cmds = l ++ (p.commands ++ r) ∧ l.length = k

theorem Placed.whole (p : Program) : Placed p.commands 0 p := ⟨[], [], by simp, rfl⟩

theorem Placed.first (h : Placed cmds k (.act a p)) : cmds[k]? = some a.command := by
  obtain ⟨l, r, rfl, rfl⟩ := h
  simp [Program.commands]

theorem Placed.rest (h : Placed cmds k (.act a p)) : Placed cmds (k + 1) p := by
  obtain ⟨l, r, rfl, rfl⟩ := h
  exact ⟨l ++ [a.command], r, by simp [Program.commands], by simp⟩

theorem Placed.body (h : Placed cmds k (.loop b p)) : Placed cmds (k + 1) b := by
  obtain ⟨l, r, rfl, rfl⟩ := h
  exact ⟨l ++ [.loopStart], .loopEnd :: (p.commands ++ r), by simp [Program.commands], by simp⟩

theorem Placed.behind (h : Placed cmds k (.loop b p)) :
    Placed cmds (k + (b.commands.length + 2)) p := by
  obtain ⟨l, r, rfl, rfl⟩ := h
  exact ⟨l ++ .loopStart :: (b.commands ++ [.loopEnd]), r, by simp [Program.commands], by simp⟩

/-- The brackets of a loop belong together. -/
theorem Placed.paired (h : Placed cmds k (.loop b p)) :
    Paired (cmds.map Command.bracket?) k (k + 1 + b.commands.length) := by
  obtain ⟨l, r, rfl, rfl⟩ := h
  exact ⟨l.map Command.bracket?, b.brackets, (p.commands ++ r).map Command.bracket?,
    by simp [Program.commands, Program.brackets, Command.bracket?], by simp,
    by simp [Program.brackets], b.balanced_brackets⟩

theorem getElem?_of_paired (h : Paired (cmds.map Command.bracket?) i j) :
    cmds[i]? = some .loopStart ∧ cmds[j]? = some .loopEnd := by
  have hi := h.getElem?_left
  have hj := h.getElem?_right
  rw [List.getElem?_map, Option.map_eq_some_iff] at hi hj
  obtain ⟨c, hc, hopen⟩ := hi
  obtain ⟨d, hd, hclose⟩ := hj
  rw [hc, hd, Command.bracket?_eq_opening_iff.mp hopen, Command.bracket?_eq_closing_iff.mp hclose]
  exact ⟨rfl, rfl⟩

end Placed

section Machine

variable {cmds : List Command} {loops : LoopTable} {k i j n pc : ℕ} {s t u : Store} {a : Action}
  {b p : Program} {e : Ending} {f : Fault}

/-- The machine for a list of commands. -/
abbrev machine (cmds : List Command) (loops : LoopTable) : State → Step State :=
  step (cmds.map Symbol.command).toArray loops

theorem getElem?_code (cmds : List Command) (k : ℕ) :
    (cmds.map Symbol.command).toArray[k]? = (cmds[k]?).map Symbol.command := by
  rw [List.getElem?_toArray, List.getElem?_map]

/-- Everything but a move looks at the pointer first. -/
theorem machine_checked {c : Command} (hk : cmds[k]? = some c) (hc : c.isMove = false) :
    machine cmds loops ⟨k, s⟩ =
      if s.InRange then State.exec ⟨k, s⟩ loops (.command c)
      else .done (.failed s.offTape) ⟨k, s⟩ := by
  have hcode := getElem?_code cmds k
  rw [hk, Option.map_some] at hcode
  cases c <;> cases hc <;> simp only [machine, step, hcode, State.fail]

variable (loops) in
theorem machine_act (hs : s.Bytes) (hk : cmds[k]? = some a.command) :
    machine cmds loops ⟨k, s⟩ =
      match a.perform k s with
      | .ok t => .next ⟨k + 1, t⟩
      | .error f => .done (.failed f) ⟨k, s⟩ := by
  cases a with
  | left | right =>
    have hcode := getElem?_code cmds k
    rw [hk] at hcode
    simp only [machine, step, hcode]
    rfl
  | increment | decrement | output =>
    rw [machine_checked hk rfl, Action.perform, Store.checked]
    split_ifs with hr
    · simp [Action.command, State.exec, State.add, hs.cell?_eq_value hr, State.advance, Store.put,
        Store.holding, Store.emit, sub_eq_add_neg]
    · rfl
  | input =>
    rw [machine_checked hk rfl, Action.perform, Store.checked]
    split_ifs with hr
    · cases hread : s.channel.read <;>
        simp [Action.command, State.exec, hread, State.fail, State.advance, Store.put, Store.holding]
    · rfl

/-- What the machine does at either bracket of a loop, whose brackets have positions `i` and `j`. -/
def turn (i j pc : ℕ) (s : Store) : Step State :=
  if s.InRange then .next ⟨(if s.value = 0 then j else i) + 1, s⟩
  else .done (.failed s.offTape) ⟨pc, s⟩

theorem machine_loopStart (hs : s.Bytes) (hk : cmds[i]? = some .loopStart)
    (hp : loops.partner? i = some j) : machine cmds loops ⟨i, s⟩ = turn i j i s := by
  rw [machine_checked hk rfl, turn]
  split_ifs with hr h0
  · simp [State.exec, hs.cell?_eq_value hr, h0, State.jump, hp]
  · simp [State.exec, hs.cell?_eq_value hr, h0, State.advance]
  · rfl

theorem machine_loopEnd (hs : s.Bytes) (hk : cmds[j]? = some .loopEnd)
    (hp : loops.partner? j = some i) : machine cmds loops ⟨j, s⟩ = turn i j j s := by
  rw [machine_checked hk rfl, turn]
  split_ifs with hr h0
  · simp [State.exec, hs.cell?_eq_value hr, h0, State.advance]
  · simp [State.exec, hs.cell?_eq_value hr, h0, State.jump, hp]
  · rfl

variable (loops) in
theorem machine_end (hk : cmds[k]? = none) :
    machine cmds loops ⟨k, s⟩ =
      if s.InRange then .done .halted ⟨k, s⟩ else .done (.failed s.offTape) ⟨k, s⟩ := by
  have hcode := getElem?_code cmds k
  rw [hk] at hcode
  simp only [machine, step, hcode]
  rfl

variable (cmds loops) in
/-- The machine begins at position `k` and ends within `n` steps, wherever that is. -/
def EndsWithin (n k : ℕ) (s : Store) (e : Ending) (t : Store) : Prop :=
  ∃ pc, runFor (machine cmds loops) n ⟨k, s⟩ = some (e, ⟨pc, t⟩)

theorem not_endsWithin_zero : ¬ EndsWithin cmds loops 0 k s e t := by
  rintro ⟨pc, h⟩
  cases h

theorem EndsWithin.exists_succ (h : EndsWithin cmds loops n k s e t) : ∃ m, n = m + 1 :=
  Nat.exists_eq_succ_of_ne_zero (by
    rintro rfl
    exact not_endsWithin_zero h)

theorem endsWithin_of_next (h : machine cmds loops ⟨k, s⟩ = .next ⟨i, u⟩) :
    EndsWithin cmds loops (n + 1) k s e t ↔ EndsWithin cmds loops n i u e t := by
  simp only [EndsWithin, runFor, h]

theorem endsWithin_of_done {e' : Ending} (h : machine cmds loops ⟨k, s⟩ = .done e' ⟨pc, u⟩) :
    EndsWithin cmds loops (n + 1) k s e t ↔ e = e' ∧ t = u := by
  simp only [EndsWithin, runFor, h, Option.some.injEq, Prod.mk.injEq, State.mk.injEq]
  constructor
  · rintro ⟨_, rfl, rfl, rfl⟩
    exact ⟨rfl, rfl⟩
  · rintro ⟨rfl, rfl⟩
    exact ⟨pc, rfl, rfl, rfl⟩

/-- The closing bracket of a loop is as good as its opening one. -/
theorem endsWithin_of_turn (hi : machine cmds loops ⟨i, s⟩ = turn i j i s)
    (hj : machine cmds loops ⟨j, s⟩ = turn i j j s) :
    EndsWithin cmds loops n j s e t ↔ EndsWithin cmds loops n i s e t := by
  cases n with
  | zero => exact iff_of_false not_endsWithin_zero not_endsWithin_zero
  | succ n =>
    unfold turn at hi hj
    by_cases hr : s.InRange
    · rw [if_pos hr] at hi hj
      rw [endsWithin_of_next hi, endsWithin_of_next hj]
    · rw [if_neg hr] at hi hj
      rw [endsWithin_of_done hi, endsWithin_of_done hj]

variable (cmds loops) in
/-- What is still to come when a part of the program has ended as `e` in `t`: nothing if it has
failed, and otherwise a run from position `k` on. -/
def Remains (n k : ℕ) (e : Ending) (t : Store) (e' : Ending) (t' : Store) : Prop :=
  match e with
  | .halted => EndsWithin cmds loops n k t e' t'
  | .failed f => e' = .failed f ∧ t' = t

end Machine

section Parts

variable {cmds : List Command} {loops : LoopTable} {k n : ℕ} {s u t t' : Store} {a : Action}
  {b p : Program} {e e' : Ending} {f : Fault}

theorem Placed.endsWithin_ok (hp : Placed cmds k (.act a p)) (hs : s.Bytes)
    (first : a.perform k s = .ok u) :
    EndsWithin cmds loops (n + 1) k s e t ↔ EndsWithin cmds loops n (k + 1) u e t := by
  have hstep := machine_act loops hs hp.first
  rw [first] at hstep
  exact endsWithin_of_next hstep

theorem Placed.endsWithin_fault (hp : Placed cmds k (.act a p)) (hs : s.Bytes)
    (first : a.perform k s = .error f) :
    EndsWithin cmds loops (n + 1) k s e t ↔ e = .failed f ∧ t = s := by
  have hstep := machine_act loops hs hp.first
  rw [first] at hstep
  exact endsWithin_of_done hstep

variable (hp : Placed cmds k (.loop b p))
  (ht : LoopTable.ofSource (cmds.map Symbol.command) = .ok loops) (hs : s.Bytes)

include hp ht hs

/-- The table of a list gives the two brackets of each loop the same effect. -/
theorem Placed.turns :
    machine cmds loops ⟨k, s⟩ = turn k (k + 1 + b.commands.length) k s ∧
      machine cmds loops ⟨k + 1 + b.commands.length, s⟩ =
        turn k (k + 1 + b.commands.length) (k + 1 + b.commands.length) s := by
  obtain ⟨hopen, hclose⟩ := getElem?_of_paired hp.paired
  obtain ⟨hi, hj⟩ := LoopTable.partner?_of_paired ht (map_bracket?_command cmds ▸ hp.paired)
  exact ⟨machine_loopStart hs hopen hi, machine_loopEnd hs hclose hj⟩

/-- At the end of its body a loop is as at its beginning. -/
theorem Placed.endsWithin_again :
    EndsWithin cmds loops n (k + 1 + b.commands.length) s e t ↔ EndsWithin cmds loops n k s e t :=
  endsWithin_of_turn (hp.turns ht hs).1 (hp.turns ht hs).2

theorem Placed.endsWithin_offTape (off : ¬ s.InRange) :
    EndsWithin cmds loops (n + 1) k s e t ↔ e = .failed s.offTape ∧ t = s := by
  have hstep := (hp.turns ht hs).1
  rw [turn, if_neg off] at hstep
  exact endsWithin_of_done hstep

theorem Placed.endsWithin_skip (inRange : s.InRange) (zero : s.value = 0) :
    EndsWithin cmds loops (n + 1) k s e t ↔
      EndsWithin cmds loops n (k + (b.commands.length + 2)) s e t := by
  have hstep := (hp.turns ht hs).1
  rw [turn, if_pos inRange, if_pos zero,
    show k + 1 + b.commands.length + 1 = k + (b.commands.length + 2) by omega] at hstep
  exact endsWithin_of_next hstep

theorem Placed.endsWithin_enter (inRange : s.InRange) (ne : s.value ≠ 0) :
    EndsWithin cmds loops (n + 1) k s e t ↔ EndsWithin cmds loops n (k + 1) s e t := by
  have hstep := (hp.turns ht hs).1
  rw [turn, if_pos inRange, if_neg ne] at hstep
  exact endsWithin_of_next hstep

end Parts

section Whole

variable {cmds : List Command} {loops : LoopTable} {k n : ℕ} {s t t' : Store} {p : Program}
  {e e' : Ending}

/-- The machine does what a part of the program does, and then what remains. -/
theorem exists_endsWithin_of_runs (ht : LoopTable.ofSource (cmds.map Symbol.command) = .ok loops)
    (run : p.Runs k s e t) (hp : Placed cmds k p) (hs : s.Bytes)
    (h : ∃ n, Remains cmds loops n (k + p.commands.length) e t e' t') :
    ∃ n, EndsWithin cmds loops n k s e' t' := by
  induction run with
  | done => exact h
  | act first _ ih =>
    rw [Program.length_commands_act, ← Nat.add_assoc] at h
    obtain ⟨n, hn⟩ := ih hp.rest ((Action.touch_of_perform first).bytes hs) h
    exact ⟨n + 1, (hp.endsWithin_ok hs first).mpr hn⟩
  | fault first =>
    obtain ⟨_, hend⟩ := h
    exact ⟨1, (hp.endsWithin_fault hs first).mpr hend⟩
  | offTape off =>
    obtain ⟨_, hend⟩ := h
    exact ⟨1, (hp.endsWithin_offTape ht hs off).mpr hend⟩
  | skip inRange zero _ ih =>
    rw [Program.length_commands_loop, ← Nat.add_assoc] at h
    obtain ⟨n, hn⟩ := ih hp.behind hs h
    exact ⟨n + 1, (hp.endsWithin_skip ht hs inRange zero).mpr hn⟩
  | again inRange ne body _ hbody hrest =>
    obtain ⟨n, hn⟩ := hrest hp (body.bytes hs) h
    -- What is left of the loop is what remains at the end of the body.
    obtain ⟨m, hm⟩ := hbody hp.body hs ⟨n, (hp.endsWithin_again ht (body.bytes hs)).mpr hn⟩
    exact ⟨m + 1, (hp.endsWithin_enter ht hs inRange ne).mpr hm⟩
  | inside inRange ne _ ih =>
    obtain ⟨m, hm⟩ := ih hp.body hs h
    exact ⟨m + 1, (hp.endsWithin_enter ht hs inRange ne).mpr hm⟩

/-- A run that ends does what the part of the program does that it begins with, and what remains of
it is no longer. -/
theorem exists_runs_of_endsWithin (ht : LoopTable.ofSource (cmds.map Symbol.command) = .ok loops)
    (hp : Placed cmds k p) (hs : s.Bytes) (h : EndsWithin cmds loops n k s e' t') :
    ∃ e t, p.Runs k s e t ∧
      ∃ m ≤ n, Remains cmds loops m (k + p.commands.length) e t e' t' := by
  -- By induction on the length of the run, as a loop leads back to itself.
  induction n using Nat.strong_induction_on generalizing k s p e' t' with
  | _ n ih =>
    cases p with
    | done => exact ⟨.halted, s, .done, n, le_rfl, h⟩
    | act a p =>
      obtain ⟨n, rfl⟩ := h.exists_succ
      cases first : a.perform k s with
      | ok u =>
        obtain ⟨e, t, run, m, hm, hrest⟩ := ih n n.lt_succ_self hp.rest
          ((Action.touch_of_perform first).bytes hs) ((hp.endsWithin_ok hs first).mp h)
        rw [Program.length_commands_act, ← Nat.add_assoc]
        exact ⟨e, t, .act first run, m, Nat.le_succ_of_le hm, hrest⟩
      | error f =>
        exact ⟨.failed f, s, .fault first, 0, Nat.zero_le _, (hp.endsWithin_fault hs first).mp h⟩
    | loop b p =>
      obtain ⟨n, rfl⟩ := h.exists_succ
      by_cases inRange : s.InRange
      · by_cases zero : s.value = 0
        · obtain ⟨e, t, run, m, hm, hrest⟩ := ih n n.lt_succ_self hp.behind hs
            ((hp.endsWithin_skip ht hs inRange zero).mp h)
          rw [Program.length_commands_loop, ← Nat.add_assoc]
          exact ⟨e, t, .skip inRange zero run, m, Nat.le_succ_of_le hm, hrest⟩
        · obtain ⟨e₁, u, body, m, hm, hrest⟩ := ih n n.lt_succ_self hp.body hs
            ((hp.endsWithin_enter ht hs inRange zero).mp h)
          cases e₁ with
          | failed f =>
            exact ⟨.failed f, u, .inside inRange zero body, m, Nat.le_succ_of_le hm, hrest⟩
          | halted =>
            obtain ⟨e, t, run, m', hm', hrest⟩ := ih m (Nat.lt_succ_of_le hm) hp (body.bytes hs)
              ((hp.endsWithin_again ht (body.bytes hs)).mp hrest)
            exact ⟨e, t, .again inRange zero body run, m', by omega, hrest⟩
      · exact ⟨_, s, .offTape inRange, 0, Nat.zero_le _,
          (hp.endsWithin_offTape ht hs inRange).mp h⟩

/-- At the end of the list the machine looks at the pointer once more. -/
theorem exists_endsWithin_end_iff (hk : cmds[k]? = none) :
    (∃ n, EndsWithin cmds loops n k s e t) ↔
      (s.InRange ∧ e = .halted ∨ ¬ s.InRange ∧ e = .failed s.offTape) ∧ t = s := by
  have hstep := machine_end loops hk (s := s)
  have hdone {e' : Ending} (hstep : machine cmds loops ⟨k, s⟩ = .done e' ⟨k, s⟩) :
      (∃ n, EndsWithin cmds loops n k s e t) ↔ e = e' ∧ t = s := by
    constructor
    · rintro ⟨n, hn⟩
      obtain ⟨n, rfl⟩ := hn.exists_succ
      exact (endsWithin_of_done hstep).mp hn
    · exact fun h => ⟨1, (endsWithin_of_done hstep).mpr h⟩
  by_cases hr : s.InRange
  · rw [if_pos hr] at hstep
    rw [hdone hstep]
    simp [hr]
  · rw [if_neg hr] at hstep
    rw [hdone hstep]
    simp [hr]

/-- The machine ends on the list of a program as the program does. -/
theorem exists_endsWithin_iff_ends
    (ht : LoopTable.ofSource (p.commands.map Symbol.command) = .ok loops) (hs : s.Bytes) :
    (∃ n, EndsWithin p.commands loops n 0 s e t) ↔ p.Ends s e t := by
  have hend {u : Store} :
      (∃ n, EndsWithin p.commands loops n (0 + p.commands.length) u e t) ↔ _ :=
    exists_endsWithin_end_iff (by simp)
  constructor
  · rintro ⟨n, h⟩
    obtain ⟨e₁, u, run, m, -, hrest⟩ := exists_runs_of_endsWithin ht (.whole p) hs h
    cases e₁ with
    | halted =>
      obtain ⟨⟨hr, rfl⟩ | ⟨hr, rfl⟩, rfl⟩ := hend.mp ⟨m, hrest⟩
      · exact .halted run hr
      · exact .offTape run hr
    | failed f =>
      obtain ⟨rfl, rfl⟩ := hrest
      exact .failed run
  · intro h
    cases h with
    | halted run hr =>
      exact exists_endsWithin_of_runs ht run (.whole p) hs (hend.mpr ⟨.inl ⟨hr, rfl⟩, rfl⟩)
    | offTape run hr =>
      exact exists_endsWithin_of_runs ht run (.whole p) hs (hend.mpr ⟨.inr ⟨hr, rfl⟩, rfl⟩)
    | failed run => exact exists_endsWithin_of_runs ht run (.whole p) hs ⟨0, rfl, rfl⟩

end Whole
end Direct

/-- What has a loop table is translated, whatever the backend has kept from earlier translations. -/
theorem Backend.translate_direct {source : List Symbol} {loops : LoopTable}
    (h : LoopTable.ofSource source = .ok loops) (name : String) (size : TapeSize)
    (code : Option (Array Symbol)) (kept : Option LoopTable) :
    translate ⟨name, size, .direct code kept⟩ source =
      ⟨⟨name, size, .direct (some source.toArray) (some loops)⟩, none, []⟩ := by
  simp only [translate, h]

/-- A properly nested list of commands is the list of one program. The direct backend translates it,
and on every tape and every input the machine comes to an end exactly if the program does, in the
same way and with the same store. -/
theorem direct_run_iff_program_ends (cmds : List Command)
    (nested : Balanced (cmds.map Command.bracket?)) :
    (∃! p : Program, p.commands = cmds) ∧
    ∃ loops,
      (∀ name size code kept,
        Backend.translate ⟨name, size, .direct code kept⟩ (cmds.map Symbol.command) =
          ⟨⟨name, size, .direct (some (cmds.map Symbol.command).toArray) (some loops)⟩, none, []⟩) ∧
      ∀ p : Program, p.commands = cmds →
        ∀ (size : TapeSize) (input : List Char) (e : Ending) (t : Store),
          (∃ limit pc, Direct.run limit (cmds.map Symbol.command).toArray loops size.val
            (.ofInput input) = some (e, ⟨pc, t⟩)) ↔
          p.Ends (.blank size.val (.ofInput input)) e t := by
  obtain ⟨p, rfl⟩ := Program.exists_of_balanced nested
  refine ⟨⟨p, rfl, fun q hq => Program.commands_injective hq⟩, ?_⟩
  obtain ⟨loops, ht⟩ := LoopTable.exists_ofSource_iff.mpr (map_bracket?_command p.commands ▸ nested)
  refine ⟨loops, Backend.translate_direct ht, ?_⟩
  intro q hq size input e t
  obtain rfl := Program.commands_injective hq
  exact Direct.exists_endsWithin_iff_ends ht (.blank size.val (.ofInput input))

/-- The source `,[>+<-]` reads a byte and carries it over to the next cell. -/
def transfer : Program :=
  .act .input (.loop (.act .right (.act .increment (.act .left (.act .decrement .done)))) .done)

/-- It needs two cells. On a tape with one it comes off the tape, and is stopped there. -/
theorem program_ends_transfer :
    transfer.Ends (.blank 2 (.ofInput ['\x02'])) .halted ⟨2, #[some 0, some 2], 0, .ofInput []⟩ ∧
      transfer.Ends (.blank 1 (.ofInput ['\x02'])) (.failed (.offTape 1 1))
        ⟨1, #[some 2], 1, .ofInput []⟩ := by
  obtain ⟨-, loops, htranslate, hiff⟩ :=
    direct_run_iff_program_ends transfer.commands (by decide +kernel)
  have htable : (Backend.translate ⟨"naive", ⟨2, by decide⟩, .direct none none⟩
      (transfer.commands.map Symbol.command)).backend.engine =
        .direct (some (transfer.commands.map Symbol.command).toArray)
          (some ⟨#[none, some 6, none, none, none, none, some 1]⟩) := by decide +kernel
  rw [htranslate] at htable
  obtain rfl := Option.some.inj (Engine.direct.inj htable).2
  refine ⟨(hiff _ rfl ⟨2, by decide⟩ ['\x02'] _ _).mp ⟨20, 7, by decide +kernel⟩, ?_⟩
  exact (hiff _ rfl ⟨1, by decide⟩ ['\x02'] _ _).mp ⟨20, 3, by decide +kernel⟩

end TapeMachine
