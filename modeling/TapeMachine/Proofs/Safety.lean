import TapeMachine.Proofs.Machine.Ends
import TapeMachine.Proofs.Shape

/-!
# Safety

What the compiler makes of a source runs safely: the instruction pointer stays in the program, the
data pointer on the tape, every cell holds a signed byte, and every operation finds the payload
that it needs. So there are three ways for a run to end: it halts at the last operation, it fails
off the tape, or there is no input. The source itself ends in these ways as well.
-/
namespace TapeMachine

open Brackets

/-- The payload that an operation needs in a program of `size` operations. -/
def Op.Typed (op : Op) (size : ℕ) : Prop :=
  match op.tag with
  | .move | .add | .seek => ∃ n, op.arg = some n
  | .openLoop | .closeLoop => ∃ k : ℕ, op.arg = some (k : ℤ) ∧ k + 1 < size
  | .set => ∃ v, op.arg = some v ∧ SignedByte v
  | .print | .read | .stop => op.arg = none
  | .other _ => False

/-- The ends that are due to the source and not to its translation. -/
inductive Ending.Ordinary (size : ℤ) : Ending → Prop
  | halted : Ordinary size .halted
  | offTape (pos : ℤ) (off : ¬ (0 ≤ pos ∧ pos < size)) : Ordinary size (.failed (.offTape pos size))
  | noInput (index : ℤ) : Ordinary size (.failed (.noInput index))

/-- Only characters of one byte have been written. -/
def Store.Printed (s : Store) : Prop := ∀ c ∈ s.channel.output.toList, c.toNat < 256

theorem Store.printed_blank (size : ℤ) (input : List Char) :
    (Store.blank size (.ofInput input)).Printed := by
  simp [Printed, blank, Channel.ofInput, Channel.output]

/-- The operations of a well-formed program have the payloads that they need. -/
theorem WellFormed.typed {code : Array Op} {k : ℕ} {op : Op} (h : WellFormed code)
    (hop : code[k]? = some op) : op.Typed code.size := by
  obtain ⟨tag, arg⟩ := op
  have hpayload := h.payload k _ hop
  cases tag with
  | move | add | seek =>
    obtain ⟨n, harg, -⟩ := hpayload
    exact ⟨n, harg⟩
  | openLoop =>
    obtain ⟨j, hj⟩ := h.opening k _ hop rfl
    obtain rfl : arg = some (j : ℤ) := by simpa using hop.symm.trans hj.opening
    have hlt := (Array.getElem?_eq_some_iff.mp hj.closing).1
    have hstop := h.stop j _ hj.closing
    simp only [reduceCtorEq, false_iff] at hstop
    exact ⟨j, rfl, by omega⟩
  | closeLoop =>
    obtain ⟨i, hi⟩ := h.closing k _ hop rfl
    obtain rfl : arg = some (i : ℤ) := by simpa using hop.symm.trans hi.closing
    have hlt := (Array.getElem?_eq_some_iff.mp hop).1
    have := hi.lt
    exact ⟨i, rfl, by omega⟩
  | set | print | read | stop => exact hpayload
  | other name => exact hpayload

namespace Compiled

variable {code : Array Op} {size n ip : ℤ} {s t : State} {store : Store} {e : Ending} {op : Op}
  {k : ℕ}

/-- A program that does not leave itself: every payload is right, and the only `stop` is the last
operation. -/
structure Closed (code : Array Op) : Prop where
  nonempty : 0 < code.size
  typed : ∀ (k : ℕ) (op : Op), code[k]? = some op → op.Typed code.size
  stop : ∀ (k : ℕ) (op : Op), code[k]? = some op → (op.tag = .stop ↔ k + 1 = code.size)

/-- What holds whenever the machine fetches an operation. -/
structure Safe (code : Array Op) (size : ℤ) (s : State) : Prop where
  ip_nonneg : 0 ≤ s.ip
  ip_lt : s.ip < code.size
  size_eq : s.store.size = size
  inRange : s.store.InRange
  bytes : s.store.Bytes
  printed : s.store.Printed

/-- A step leads to a safe state, or the run ends in an ordinary way. -/
def Keeps (code : Array Op) (size : ℤ) : Step State → Prop
  | .next t => Safe code size t
  | .done e t => e.Ordinary size ∧ (e = .halted → t.ip + 1 = code.size) ∧ t.store.Printed

namespace Safe

theorem next (h : Safe code size s) (touch : s.store.Touch store) (hr : store.InRange)
    (lo : 0 ≤ ip) (hi : ip < code.size) : Safe code size ⟨ip, store⟩ :=
  ⟨lo, hi, touch.size.trans h.size_eq, hr, touch.bytes h.bytes, touch.output h.printed⟩

theorem keeps_move (h : Safe code size s) (lo : 0 ≤ ip) (hi : ip < code.size) :
    Keeps code size (s.move ip n) := by
  have htouch := Store.Touch.shift (s := s.store) n
  by_cases hr : (s.store.shift n).InRange
  · simp only [State.move, if_pos hr]
    exact h.next htouch hr lo hi
  · have hsize : (s.store.shift n).size = size := h.size_eq
    simp only [State.move, if_neg hr]
    refine ⟨?_, by simp, htouch.output h.printed⟩
    rw [Store.InRange, hsize] at hr
    rw [Store.offTape, hsize]
    exact .offTape _ hr

/-- The operation at the instruction pointer, and whether it is the last one. -/
theorem exists_op (h : Safe code size s) (hc : Closed code) :
    ∃ op, fetch code s.ip = some op ∧ op.Typed code.size ∧
      (op.tag = .stop ↔ s.ip + 1 = code.size) := by
  have hlt : s.ip.toNat < code.size := by
    have := h.ip_nonneg
    have := h.ip_lt
    omega
  have hop := Array.getElem?_eq_getElem hlt
  refine ⟨code[s.ip.toNat], by rw [fetch, if_pos h.ip_nonneg, hop], hc.typed _ _ hop, ?_⟩
  rw [hc.stop _ _ hop]
  have := h.ip_nonneg
  omega

/-- What one step preserves. -/
theorem keeps_step (h : Safe code size s) (hc : Closed code) : Keeps code size (step code s) := by
  obtain ⟨⟨tag, arg⟩, hop, htyped, hstop⟩ := h.exists_op hc
  obtain ⟨v, hv, -⟩ := h.bytes.exists_cell h.inRange
  have hlo : 0 ≤ s.ip + 1 := Int.add_nonneg h.ip_nonneg Int.one_nonneg
  have hnext (hne : tag ≠ .stop) : s.ip + 1 < code.size :=
    lt_of_le_of_ne h.ip_lt fun heq => hne (hstop.mpr heq)
  simp only [step, hop]
  cases tag with
  | move =>
    obtain ⟨n, rfl⟩ := htyped
    exact h.keeps_move hlo (hnext (by simp))
  | add =>
    obtain ⟨n, rfl⟩ := htyped
    simp only [State.exec, hv]
    exact h.next (.put (signedByte_wrap _)) h.inRange hlo (hnext (by simp))
  | openLoop =>
    obtain ⟨k, rfl, hk⟩ := htyped
    simp only [State.exec, hv]
    split_ifs
    · exact h.next .stay h.inRange (by omega) (by omega)
    · exact h.next .stay h.inRange hlo (hnext (by simp))
  | closeLoop =>
    obtain ⟨k, rfl, hk⟩ := htyped
    simp only [State.exec, hv]
    split_ifs
    · exact h.next .stay h.inRange hlo (hnext (by simp))
    · exact h.next .stay h.inRange (by omega) (by omega)
  | set =>
    obtain ⟨w, rfl, hw⟩ := htyped
    simp only [State.exec, hv]
    exact h.next (.put hw) h.inRange hlo (hnext (by simp))
  | seek =>
    obtain ⟨n, rfl⟩ := htyped
    by_cases h0 : v = 0
    · subst h0
      simp only [State.exec, hv]
      exact h.next .stay h.inRange hlo (hnext (by simp))
    · rw [exec_seek hv h0]
      exact h.keeps_move h.ip_nonneg h.ip_lt
  | print =>
    simp only [State.exec, hv]
    exact h.next (.emit v) h.inRange hlo (hnext (by simp))
  | read =>
    cases hread : s.store.channel.read with
    | none =>
      simp only [State.exec, hread]
      exact ⟨.noInput _, by simp, h.printed⟩
    | some x =>
      obtain ⟨x, rest⟩ := x
      have hcell : Store.cell? { s.store with channel := rest } = some (some v) := hv
      simp only [State.exec, hread, hcell]
      exact h.next (.read hread) h.inRange hlo (hnext (by simp))
  | stop => exact ⟨.halted, fun _ => hstop.mp rfl, h.printed⟩
  | other name => exact htyped.elim

theorem of_reaches (hc : Closed code) (h : Safe code size s) (reach : Reaches (step code) s t) :
    Safe code size t := by
  refine reach.invariant (fun u w hu lead => ?_) h
  have hkeeps := hu.keeps_step hc
  rw [show step code u = .next w from lead] at hkeeps
  exact hkeeps

theorem of_endsIn (hc : Closed code) (h : Safe code size s) (run : EndsIn (step code) s e t) :
    Keeps code size (.done e t) := by
  obtain ⟨u, reach, last⟩ := run.exists_last
  rw [← last]
  exact (of_reaches hc h reach).keeps_step hc

theorem initial (hc : Closed code) (size : TapeSize) (input : List Char) :
    Safe code size.val (.initial size.val (.ofInput input)) :=
  ⟨le_rfl, Int.natCast_pos.mpr hc.nonempty, rfl, Store.inRange_blank _ _, .blank _ _,
    Store.printed_blank _ _⟩

end Safe

/-- Compiled programs are closed. -/
theorem closed_of_hasProgram {a : Account} (hs : a.Sound) (h : a.HasProgram code) :
    Closed code :=
  have hwf := h.wellFormed hs
  ⟨hwf.nonempty, fun _ _ => hwf.typed, hwf.stop⟩

end Compiled

namespace Direct

variable {source : List Symbol} {loops : LoopTable} {size : ℤ} {s t : State} {e : Ending}

/-- What holds at every step of a source. -/
structure Sound (size : ℤ) (s : State) : Prop where
  size_eq : s.store.size = size
  bytes : s.store.Bytes

theorem Sound.of_reaches {code : Array Symbol} (h : Sound size s)
    (reach : Reaches (step code loops) s t) : Sound size t := by
  refine reach.invariant (fun u w hu lead => ?_) h
  have htouch := touch_of_step lead
  exact ⟨htouch.size.trans hu.size_eq, htouch.bytes hu.bytes⟩

/-- Every bracket has a partner in the table of its source. -/
theorem exists_partner (ht : LoopTable.ofSource source = .ok loops) {k : ℕ} {b : Bracket}
    (hk : (source.map Symbol.bracket?)[k]? = some (some b)) : ∃ j, loops.partner? k = some j := by
  have bal := LoopTable.exists_ofSource_iff.mp ⟨loops, ht⟩
  cases b with
  | opening =>
    obtain ⟨j, hj⟩ := exists_paired_of_opening bal hk
    exact ⟨j, (LoopTable.partner?_of_paired ht hj).1⟩
  | closing =>
    obtain ⟨j, hj⟩ := exists_paired_of_closing bal hk
    exact ⟨j, (LoopTable.partner?_of_paired ht hj).2⟩

theorem Sound.ordinary_exec (h : Sound size s) (hr : s.store.InRange)
    (ht : LoopTable.ofSource source = .ok loops) {x : Symbol} (hx : source.toArray[s.pc]? = some x)
    (last : s.exec loops x = .done e t) : e.Ordinary size := by
  obtain ⟨v, hv, -⟩ := h.bytes.exists_cell hr
  have hpartner {b : Bracket} (hb : x.bracket? = some b) : ∃ j, loops.partner? s.pc = some j := by
    apply exists_partner (b := b) ht
    rw [List.getElem?_map, ← List.getElem?_toArray, hx, Option.map_some, hb]
  cases x with
  | remark text => cases last
  | command c =>
    cases c with
    | left => cases last
    | right => cases last
    | increment | decrement =>
      simp only [State.exec, State.add, hv] at last
      cases last
    | output =>
      simp only [State.exec, hv] at last
      cases last
    | input =>
      simp only [State.exec] at last
      split at last
      · cases last
        exact .noInput _
      · cases last
    | loopStart | loopEnd =>
      obtain ⟨j, hj⟩ := hpartner rfl
      simp only [State.exec, hv, State.jump, hj] at last
      split_ifs at last
      cases last

/-- The last step of a source ends the run in an ordinary way. -/
theorem Sound.ordinary (h : Sound size s) (ht : LoopTable.ofSource source = .ok loops)
    (last : step source.toArray loops s = .done e t) : e.Ordinary size := by
  by_cases hr : s.store.InRange
  · unfold step at last
    split at last
    · cases last
    · cases last
    · rename_i hx
      rw [if_pos hr] at last
      exact h.ordinary_exec hr ht hx last
    · rw [if_pos hr] at last
      cases last
      exact .halted
  · have hoff : e = .failed s.store.offTape := by
      unfold step at last
      split at last
      · cases last
      · cases last
      · rw [if_neg hr] at last
        cases last
        rfl
      · rw [if_neg hr] at last
        cases last
        rfl
    rw [Store.InRange, h.size_eq] at hr
    rw [hoff, Store.offTape, h.size_eq]
    exact .offTape _ hr

end Direct

theorem Compiled.Ends.ordinary {source : List Symbol} {size : TapeSize} {input : List Char}
    {e : Ending} {s : State} (h : Ends source size input e s) : e.Ordinary size.val := by
  obtain ⟨code, limit, hcode, hrun⟩ := h
  have hclosed := closed_of_hasProgram (Account.sound_ofCommands _) (compile_eq_ok_iff.mp hcode)
  exact (Safe.of_endsIn hclosed (Safe.initial hclosed size input) ⟨limit, hrun⟩).1

theorem Direct.Ends.ordinary {source : List Symbol} {size : TapeSize} {input : List Char}
    {e : Ending} {t : State} (h : Ends source size input e t) : e.Ordinary size.val := by
  obtain ⟨loops, limit, ht, hrun⟩ := h
  obtain ⟨u, reach, last⟩ := EndsIn.exists_last ⟨limit, hrun⟩
  have hsound : Sound size.val u := Sound.of_reaches ⟨rfl, .blank _ _⟩ reach
  exact hsound.ordinary ht last

/-- Everything that can happen in a run of a compiled program, and in a run of its source. -/
theorem runs_safe (source : List Symbol) (size : TapeSize) (input : List Char) :
    (∀ code, compile source = .ok code →
      (∀ s, Reaches (Compiled.step code) (.initial size.val (.ofInput input)) s →
        Compiled.Safe code size.val s ∧
          ∃ op, Compiled.fetch code s.ip = some op ∧ op.Typed code.size) ∧
      ((∃ limit e s, Compiled.run limit code size.val (.ofInput input) = some (e, s) ∧
          e.Ordinary size.val ∧ (e = .halted → s.ip + 1 = code.size) ∧ s.store.Printed) ∨
        ∀ limit, Compiled.run limit code size.val (.ofInput input) = none)) ∧
    ∀ loops, LoopTable.ofSource (parsed source) = .ok loops →
      (∃ limit e t,
          Direct.run limit (parsed source).toArray loops size.val (.ofInput input) = some (e, t) ∧
          e.Ordinary size.val) ∨
        ∀ limit,
          Direct.run limit (parsed source).toArray loops size.val (.ofInput input) = none := by
  constructor
  · intro code hcode
    have hclosed := Compiled.closed_of_hasProgram (Account.sound_ofCommands _)
      (compile_eq_ok_iff.mp hcode)
    have hinitial := Compiled.Safe.initial hclosed size input
    constructor
    · intro s reach
      have hsafe := Compiled.Safe.of_reaches hclosed hinitial reach
      obtain ⟨op, hop, htyped, -⟩ := hsafe.exists_op hclosed
      exact ⟨hsafe, op, hop, htyped⟩
    · rcases endsIn_or_forall_runFor (Compiled.step code) (.initial size.val (.ofInput input))
        with ⟨e, s, limit, hrun⟩ | hforever
      · exact .inl ⟨limit, e, s, hrun, Compiled.Safe.of_endsIn hclosed hinitial ⟨limit, hrun⟩⟩
      · exact .inr hforever
  · intro loops ht
    rcases endsIn_or_forall_runFor (Direct.step (parsed source).toArray loops)
      (.initial size.val (.ofInput input)) with ⟨e, t, limit, hrun⟩ | hforever
    · obtain ⟨u, reach, last⟩ := EndsIn.exists_last ⟨limit, hrun⟩
      have hsound : Direct.Sound size.val u := Direct.Sound.of_reaches ⟨rfl, .blank _ _⟩ reach
      exact .inl ⟨limit, e, t, hrun, hsound.ordinary ht last⟩
    · exact .inr hforever

/-- The program of `,[-]>.` is `read`, `set 0`, `move 1`, `print`, `stop`. -/
theorem runs_safe_countdown :
    (∀ s, Reaches (Compiled.step #[⟨.read, none⟩, ⟨.set, some 0⟩, ⟨.move, some 1⟩, ⟨.print, none⟩,
        ⟨.stop, none⟩]) (.initial 1 (.ofInput ['\x03'])) s → s.ip < 5 ∧ s.store.InRange) ∧
      ∃ limit e t, Direct.run limit (parsed (symbols ",[-]>.")).toArray
          ⟨#[none, some 3, none, some 1, none, none]⟩ 1 (.ofInput ['\x03']) = some (e, t) ∧
        e.Ordinary 1 := by
  obtain ⟨hcompiled, hdirect⟩ := runs_safe (symbols ",[-]>.") ⟨1, by decide⟩ ['\x03']
  constructor
  · intro s reach
    obtain ⟨hsafe, -⟩ := (hcompiled _ (by decide)).1 s reach
    exact ⟨hsafe.ip_lt, hsafe.inRange⟩
  · rcases hdirect ⟨#[none, some 3, none, some 1, none, none]⟩ (by decide) with
      hends | hforever
    · exact hends
    · exact absurd (hforever 20) (by decide)

end TapeMachine
