import TapeMachine.Proofs.Machine.Tolerant

/-!
# Runs over straight words

On a straight word the tolerant machine has a simple rule. If the word ends on the tape, the
machine comes to its end and the tape has changed by the tally of the word. If it ends off the
tape, the machine fails at the place where the word ends: at an addition there, if the word is
settled, and otherwise at the symbol behind the word at the latest.
-/
namespace TapeMachine

open Word

namespace Store

variable {s : Store} {w : Word} {c : Command} {n a v : ℤ}

/-- The store after a straight word, additions off the tape left out. -/
def follow (s : Store) (w : Word) : Store := (s.bump fun q => tally w (q - s.ptr)).shift (net w)

theorem Bytes.follow_nil (hs : s.Bytes) : s.follow [] = s := by
  simp [follow, hs.bump_eq_self]

theorem follow_move (hc : c.isMove = true) (s : Store) (w : Word) :
    (s.shift c.shift).follow w = s.follow (c :: w) := by
  have htally (q : ℤ) : tally w (q - (s.shift c.shift).ptr) = tally (c :: w) (q - s.ptr) := by
    simp [tally, Command.amount_of_isMove hc, Store.shift, sub_sub]
  simp only [follow, htally, bump_shift, shift_shift, net_cons]

theorem follow_addition (hc : c.isAddition = true) (s : Store) (w : Word) :
    (s.bump fun q => if q = s.ptr then c.amount else 0).follow w = s.follow (c :: w) := by
  have hptr : (s.bump fun q => if q = s.ptr then c.amount else 0).ptr = s.ptr := rfl
  simp only [follow, bump_bump, hptr, tally, net_cons, Command.shift_of_isAddition hc, sub_zero,
    zero_add, sub_eq_zero]

theorem follow_of_acts (s : Store) (h : Acts w n a) :
    s.follow w = (s.bump fun q => if q = s.ptr then a else 0).shift n := by
  rw [follow, h.net]
  congr 1
  apply bump_congr
  intro q
  by_cases hq : q = s.ptr
  · rw [if_pos hq, hq, sub_self]
    exact h.here
  · rw [if_neg hq, sub_zero]
    exact h.elsewhere _ (sub_ne_zero.mpr hq)

theorem Bytes.follow_of_moves (hs : s.Bytes) (h : Acts w n 0) : s.follow w = s.shift n := by
  rw [s.follow_of_acts h, hs.bump_eq_self]
  simp

theorem Bytes.follow_of_adds (hs : s.Bytes) (hr : s.InRange) (hv : s.cell? = some (some v))
    (h : Acts w 0 a) : s.follow w = s.put (some (wrap (v + a))) := by
  rw [s.follow_of_acts h, shift_zero, hs.put_eq_bump hr hv]

end Store

namespace Direct

variable {skip : ℕ → Bool} {code : Array Symbol} {loops : LoopTable} {pc : ℕ} {s : Store}
  {c : Command} {w : Word} {n a v : ℤ}

theorem leads_shift (hc : c.isMove = true) (hcode : code[pc]? = some (.command c)) :
    Leads (step code loops) ⟨pc, s⟩ ⟨pc + 1, s.shift c.shift⟩ := by
  cases c with
  | left | right =>
    simp only [Leads, step, hcode]
    rfl
  | increment | decrement | output | input | loopStart | loopEnd => cases hc

theorem leads_move (hc : c.isMove = true) (hcode : code[pc]? = some (.command c))
    (hskip : skip pc = false) :
    Leads (tolerantStep skip code loops) ⟨pc, s⟩ ⟨pc + 1, s.shift c.shift⟩ := by
  simp only [Leads, tolerantStep, hskip, Bool.false_eq_true, false_and, if_false]
  exact leads_shift hc hcode

theorem leads_addition (hc : c.isAddition = true) (hcode : code[pc]? = some (.command c))
    (hr : s.InRange) (hv : s.cell? = some (some v)) :
    Leads (tolerantStep skip code loops) ⟨pc, s⟩
      ⟨pc + 1, s.put (some (wrap (v + c.amount)))⟩ := by
  cases c <;> simp_all [Leads, tolerantStep, step, Command.isAddition, State.exec, State.add,
    State.advance, Command.amount]

theorem leads_addition_off (hskip : skip pc = true) (hr : ¬ s.InRange) :
    Leads (tolerantStep skip code loops) ⟨pc, s⟩ ⟨pc + 1, s⟩ := by
  simp [Leads, tolerantStep, hskip, hr, State.advance]

/-- Any symbol but a move fails off the tape, unless it is marked. -/
theorem tolerantStep_off (hc : c.isMove = false) (hcode : code[pc]? = some (.command c))
    (hskip : skip pc = false) (hr : ¬ s.InRange) :
    tolerantStep skip code loops ⟨pc, s⟩ = .done (.failed s.offTape) ⟨pc, s⟩ := by
  cases c <;> simp_all [tolerantStep, step, Command.isMove, State.fail]

theorem glide (hw : ∀ c ∈ w, c.isStraight = true) (hs : s.Bytes)
    (hl : Lies skip code pc (marks w)) (hr : (s.shift (net w)).InRange) :
    Reaches (tolerantStep skip code loops) ⟨pc, s⟩ ⟨pc + w.length, s.follow w⟩ := by
  induction w generalizing pc s with
  | nil =>
    rw [hs.follow_nil]
    exact .refl
  | cons c w ih =>
    obtain ⟨hcode, hskip, hl⟩ := hl
    have hw' : ∀ d ∈ w, d.isStraight = true := fun d hd => hw d (List.mem_cons_of_mem _ hd)
    rw [List.length_cons, show pc + (w.length + 1) = pc + 1 + w.length by omega]
    rw [net_cons] at hr
    rcases Bool.or_eq_true_iff.mp (hw c (by simp)) with hc | hc
    · have hmark : skip pc = false := by
        rw [hskip, Command.isAddition_eq_false_of_isMove hc]
        rfl
      rw [← Store.follow_move hc]
      refine (ih hw' (hs.shift _) hl ?_).head (leads_move hc hcode hmark)
      rwa [Store.shift_shift]
    · rw [Command.shift_of_isAddition hc, zero_add] at hr
      rw [← Store.follow_addition hc]
      by_cases hin : s.InRange
      · obtain ⟨v, hv, -⟩ := hs.exists_cell hin
        rw [← hs.put_eq_bump hin hv]
        exact (ih hw' (hs.put (signedByte_wrap _)) hl hr).head (leads_addition hc hcode hin hv)
      · -- The pointer comes back to the tape, so the addition is not where the word ends.
        have hne : net w ≠ 0 := by
          intro h0
          rw [h0, Store.shift_zero] at hr
          exact hin hr
        have hmark : skip pc = true := by
          rw [hskip, hc, ahead_eq_net hw']
          simpa using hne
        rw [hs.bump_off hin]
        exact (ih hw' hs hl hr).head (leads_addition_off hmark hin)

/-- From this state the run fails, with nothing written or read before. -/
def Fails (skip : ℕ → Bool) (code : Array Symbol) (loops : LoopTable) (s : State) (f : Fault) :
    Prop :=
  ∃ t, EndsIn (tolerantStep skip code loops) s (.failed f) t ∧ t.store.channel = s.store.channel

theorem Fails.of_leads {s t : State} {f : Fault} (h : Leads (tolerantStep skip code loops) s t)
    (hch : t.store.channel = s.store.channel) (fails : Fails skip code loops t f) :
    Fails skip code loops s f := by
  obtain ⟨u, ends, hu⟩ := fails
  exact ⟨u, ends.of_next h, hu.trans hch⟩

/-- At this position the pointer must be on the tape. -/
def Guarded (skip : ℕ → Bool) (code : Array Symbol) (loops : LoopTable) (pc : ℕ) : Prop :=
  ∀ s : Store, ¬ s.InRange → Fails skip code loops ⟨pc, s⟩ s.offTape

theorem guarded_of_command (hc : c.isMove = false) (hcode : code[pc]? = some (.command c))
    (hskip : skip pc = false) : Guarded skip code loops pc :=
  fun s hr => ⟨⟨pc, s⟩, .of_done (tolerantStep_off hc hcode hskip hr), rfl⟩

theorem guarded_of_end (hcode : code[pc]? = none) (hskip : skip pc = false) :
    Guarded skip code loops pc := by
  intro s hr
  refine ⟨⟨pc, s⟩, .of_done ?_, rfl⟩
  simp [tolerantStep, step, hskip, hcode, hr, State.fail]

/-- A straight word that ends off the tape makes the run fail there, if the place is looked at in
the word or behind it. -/
theorem fails_off (hw : ∀ c ∈ w, c.isStraight = true) (hs : s.Bytes)
    (hl : Lies skip code pc (marks w)) (hg : Settled w ∨ Guarded skip code loops (pc + w.length))
    (hr : ¬ (s.shift (net w)).InRange) :
    Fails skip code loops ⟨pc, s⟩ (s.shift (net w)).offTape := by
  induction w generalizing pc s with
  | nil =>
    rw [net_nil, Store.shift_zero] at hr ⊢
    exact hg.resolve_left not_settled_nil s hr
  | cons c w ih =>
    obtain ⟨hcode, hskip, hl⟩ := hl
    have hw' : ∀ d ∈ w, d.isStraight = true := fun d hd => hw d (List.mem_cons_of_mem _ hd)
    -- The rest of the word fails, unless it was the first command that looked at the place.
    have hrest {s₁ : Store} (hs₁ : s₁.Bytes) (hr₁ : ¬ (s₁.shift (net w)).InRange)
        (hne : c.isAddition = true → net w ≠ 0) :
        Fails skip code loops ⟨pc + 1, s₁⟩ (s₁.shift (net w)).offTape := by
      refine ih hw' hs₁ hl (hg.imp (fun h => h.of_cons hne) fun h => ?_) hr₁
      rwa [List.length_cons, add_comm w.length, ← add_assoc] at h
    rcases Bool.or_eq_true_iff.mp (hw c (by simp)) with hc | hc
    · have hna : c.isAddition = false := Command.isAddition_eq_false_of_isMove hc
      rw [net_cons, ← Store.shift_shift] at hr ⊢
      exact (hrest (hs.shift _) hr (by simp [hna])).of_leads
        (leads_move hc hcode (by rw [hskip, hna]; rfl)) rfl
    · rw [net_cons, Command.shift_of_isAddition hc, zero_add] at hr ⊢
      by_cases hin : s.InRange
      · obtain ⟨v, hv, -⟩ := hs.exists_cell hin
        refine (hrest (hs.put (signedByte_wrap _)) hr fun _ h0 => ?_).of_leads
          (leads_addition hc hcode hin hv) rfl
        rw [h0, Store.shift_zero] at hr
        exact hr hin
      · by_cases h0 : net w = 0
        · have hmark : skip pc = false := by
            rw [hskip, hc, ahead_eq_net hw', h0]
            rfl
          rw [h0, Store.shift_zero]
          exact guarded_of_command (Command.isMove_eq_false_of_isAddition hc) hcode hmark s hin
        · have hmark : skip pc = true := by
            rw [hskip, hc, ahead_eq_net hw']
            simpa using h0
          exact (hrest hs hr fun _ => h0).of_leads (leads_addition_off hmark hin) rfl

section Acts

theorem glide_moves (h : Acts w n 0) (hs : s.Bytes) (hl : Lies skip code pc (marks w))
    (hr : (s.shift n).InRange) :
    Reaches (tolerantStep skip code loops) ⟨pc, s⟩ ⟨pc + w.length, s.shift n⟩ := by
  rw [← hs.follow_of_moves h]
  exact glide h.straight hs hl (h.net.symm ▸ hr)

theorem glide_idle (h : Acts w 0 0) (hs : s.Bytes) (hl : Lies skip code pc (marks w))
    (hr : s.InRange) : Reaches (tolerantStep skip code loops) ⟨pc, s⟩ ⟨pc + w.length, s⟩ := by
  have hglide : Reaches (tolerantStep skip code loops) ⟨pc, s⟩ ⟨pc + w.length, s.shift 0⟩ :=
    glide_moves h hs hl (by rwa [Store.shift_zero])
  rwa [Store.shift_zero] at hglide

theorem glide_adds (h : Acts w 0 a) (hs : s.Bytes) (hl : Lies skip code pc (marks w))
    (hr : s.InRange) (hv : s.cell? = some (some v)) :
    Reaches (tolerantStep skip code loops) ⟨pc, s⟩
      ⟨pc + w.length, s.put (some (wrap (v + a)))⟩ := by
  rw [← hs.follow_of_adds hr hv h]
  refine glide h.straight hs hl ?_
  rwa [h.net, Store.shift_zero]

end Acts

end Direct
end TapeMachine
