import TapeMachine.Proofs.Machine.Glide

/-!
# Loops with a straight body

What the tolerant machine does at a bracket, and how it runs the two kinds of loops that become a
single operation: one counts its cell down to zero, the other moves on until it finds a zero.
-/
namespace TapeMachine

open Word

/-- Counting down takes a cell one step closer to zero, as an unsigned byte. -/
theorem toNat_wrap_sub_one {v : ℤ} (hv : SignedByte v) (hne : v ≠ 0) :
    (wrap (v + -1) % 256).toNat + 1 = (v % 256).toNat := by
  obtain ⟨hlo, hhi⟩ := hv
  have hdvd := dvd_sub_wrap (v + -1)
  omega

/-- A loop with rounds that count a cell down leaves the cell empty. -/
theorem reaches_counted_down {σ : Type} {step : σ → Step σ} {s : Store} (atEnd behind : Store → σ)
    (leave : ∀ s : Store, s.InRange → s.cell? = some (some 0) →
      Reaches step (atEnd s) (behind s))
    (round : ∀ (s : Store) (v : ℤ), s.Bytes → s.InRange → s.cell? = some (some v) → v ≠ 0 →
      Reaches step (atEnd s) (atEnd (s.put (some (wrap (v + -1))))))
    (hs : s.Bytes) (hr : s.InRange) : Reaches step (atEnd s) (behind (s.put (some 0))) := by
  obtain ⟨v, hv, hbyte⟩ := hs.exists_cell hr
  -- The rounds left are the cell as an unsigned byte.
  induction hk : (v % 256).toNat generalizing s v with
  | zero =>
    obtain rfl : v = 0 := by
      obtain ⟨hlo, hhi⟩ := hbyte
      omega
    rw [Store.put_cell hr hv]
    exact leave s hr hv
  | succ k ih =>
    have hne : v ≠ 0 := by
      rintro rfl
      simp at hk
    have hrounds := ih (hs.put (signedByte_wrap (v + -1))) hr _ (hs.cell?_put hr _)
      (signedByte_wrap _) (by have := toNat_wrap_sub_one hbyte hne; omega)
    rw [Store.put_put] at hrounds
    exact (round s v hs hr hv hne).trans hrounds

namespace Direct

variable {skip : ℕ → Bool} {code : Array Symbol} {loops : LoopTable} {pc i j : ℕ} {s : Store}
  {c : Command} {b u : Word} {n v : ℤ}

/-- On the tape the tolerant machine carries out every command. -/
theorem tolerantStep_exec (hc : c.isMove = false) (hcode : code[pc]? = some (.command c))
    (hr : s.InRange) :
    tolerantStep skip code loops ⟨pc, s⟩ = State.exec ⟨pc, s⟩ loops (.command c) := by
  cases c <;> simp_all [tolerantStep, step, Command.isMove]

theorem leads_opening (hcode : code[pc]? = some (.command .loopStart)) (hr : s.InRange)
    (hv : s.cell? = some (some v)) (hj : loops.partner? pc = some j) :
    Leads (tolerantStep skip code loops) ⟨pc, s⟩ ⟨if v = 0 then j + 1 else pc + 1, s⟩ := by
  rw [Leads, tolerantStep_exec rfl hcode hr]
  by_cases h0 : v = 0 <;> simp [State.exec, hv, h0, State.jump, hj, State.advance]

theorem leads_closing (hcode : code[pc]? = some (.command .loopEnd)) (hr : s.InRange)
    (hv : s.cell? = some (some v)) (hi : loops.partner? pc = some i) :
    Leads (tolerantStep skip code loops) ⟨pc, s⟩ ⟨if v = 0 then pc + 1 else i + 1, s⟩ := by
  rw [Leads, tolerantStep_exec rfl hcode hr]
  by_cases h0 : v = 0 <;> simp [State.exec, hv, h0, State.jump, hi, State.advance]

/-- A loop with the body `b` stands here, and behind it the word `u`. -/
structure LoopAt (skip : ℕ → Bool) (code : Array Symbol) (loops : LoopTable) (pc : ℕ)
    (b u : Word) : Prop where
  lies : Lies skip code pc (marks (.loopStart :: (b ++ .loopEnd :: u)))
  opening : loops.partner? pc = some (pc + 1 + b.length)
  closing : loops.partner? (pc + 1 + b.length) = some pc

namespace LoopAt

theorem lies_parts (h : LoopAt skip code loops pc b u) :
    Lies skip code (pc + 1) (marks b) ∧
      Lies skip code (pc + 1 + b.length) (marks (.loopEnd :: u)) := by
  obtain ⟨-, -, hl⟩ := h.lies
  rw [marks_append (by rfl), lies_append, length_marks] at hl
  exact hl

theorem getElem?_opening (h : LoopAt skip code loops pc b u) :
    code[pc]? = some (.command .loopStart) := h.lies.1

theorem getElem?_closing (h : LoopAt skip code loops pc b u) :
    code[pc + 1 + b.length]? = some (.command .loopEnd) := h.lies_parts.2.1

theorem lies_behind (h : LoopAt skip code loops pc b u) :
    Lies skip code (pc + 1 + b.length + 1) (marks u) := h.lies_parts.2.2.2

theorem guarded (h : LoopAt skip code loops pc b u) :
    Guarded skip code loops (pc + 1 + b.length) :=
  guarded_of_command rfl h.getElem?_closing h.lies_parts.2.2.1

/-- The first step skips the loop or enters it. -/
theorem leads_start (h : LoopAt skip code loops pc b u) (hr : s.InRange)
    (hv : s.cell? = some (some v)) :
    Leads (tolerantStep skip code loops) ⟨pc, s⟩
      ⟨if v = 0 then pc + 1 + b.length + 1 else pc + 1, s⟩ :=
  leads_opening h.getElem?_opening hr hv h.opening

/-- The last step of a round leaves the loop or begins the next round. -/
theorem leads_end (h : LoopAt skip code loops pc b u) (hr : s.InRange)
    (hv : s.cell? = some (some v)) :
    Leads (tolerantStep skip code loops) ⟨pc + 1 + b.length, s⟩
      ⟨if v = 0 then pc + 1 + b.length + 1 else pc + 1, s⟩ :=
  leads_closing h.getElem?_closing hr hv h.closing

/-- A round that adds -1 to its cell comes to its end with the cell counted down. -/
theorem reaches_counted (h : LoopAt skip code loops pc b u) (hb : Acts b 0 (-1)) (hs : s.Bytes)
    (hr : s.InRange) (hv : s.cell? = some (some v)) :
    Reaches (tolerantStep skip code loops) ⟨pc + 1, s⟩
      ⟨pc + 1 + b.length, s.put (some (wrap (v + -1)))⟩ :=
  glide_adds hb hs h.lies_parts.1 hr hv

/-- From the end of a round such a loop goes on until its cell is zero. -/
theorem reaches_emptied (h : LoopAt skip code loops pc b u) (hb : Acts b 0 (-1)) (hs : s.Bytes)
    (hr : s.InRange) :
    Reaches (tolerantStep skip code loops) ⟨pc + 1 + b.length, s⟩
      ⟨pc + 1 + b.length + 1, s.put (some 0)⟩ := by
  refine reaches_counted_down (fun s => State.mk (pc + 1 + b.length) s)
    (fun s => State.mk (pc + 1 + b.length + 1) s) ?_ ?_ hs hr
  · intro s hr hv
    exact .single (h.leads_end hr hv)
  · intro s v hs hr hv hne
    have hlead := h.leads_end hr hv
    rw [if_neg hne] at hlead
    exact (h.reaches_counted hb hs hr hv).head hlead

/-- A loop that counts its cell down empties it, whatever the cell holds. -/
theorem passes_emptied (h : LoopAt skip code loops pc b u) (hb : Acts b 0 (-1)) (hs : s.Bytes)
    (hr : s.InRange) :
    Passes (tolerantStep skip code loops) ⟨pc, s⟩ ⟨pc + 1 + b.length + 1, s.put (some 0)⟩ := by
  obtain ⟨v, hv, -⟩ := hs.exists_cell hr
  have hlead := h.leads_start hr hv
  by_cases h0 : v = 0
  · subst h0
    rw [Store.put_cell hr hv]
    exact .single hlead
  · rw [if_neg h0] at hlead
    have hrounds := h.reaches_emptied hb (hs.put (signedByte_wrap (v + -1))) hr
    rw [Store.put_put] at hrounds
    exact .head' hlead ((h.reaches_counted hb hs hr hv).trans hrounds)

/-- A round of a loop that moves fails if it ends off the tape. -/
theorem fails_moved (h : LoopAt skip code loops pc b u) (hb : Acts b n 0) (hs : s.Bytes)
    (hr : ¬ (s.shift n).InRange) :
    Fails skip code loops ⟨pc + 1, s⟩ (s.shift n).offTape := by
  rw [← hb.net] at hr ⊢
  exact fails_off hb.straight hs h.lies_parts.1 (.inr h.guarded) hr

theorem reaches_moved (h : LoopAt skip code loops pc b u) (hb : Acts b n 0) (hs : s.Bytes)
    (hr : (s.shift n).InRange) :
    Reaches (tolerantStep skip code loops) ⟨pc + 1, s⟩ ⟨pc + 1 + b.length, s.shift n⟩ :=
  glide_moves hb hs h.lies_parts.1 hr

end LoopAt
end Direct
end TapeMachine
