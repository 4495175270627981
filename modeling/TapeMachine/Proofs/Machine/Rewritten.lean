import TapeMachine.Proofs.Brackets.Assembly
import TapeMachine.Proofs.Brackets.Replacement
import TapeMachine.Proofs.Machine.Agreement
import TapeMachine.Proofs.Peephole.Rewriting
import TapeMachine.Proofs.Run.Lockstep

/-!
# Rewritten programs keep up

When a rule is applied in a list of operations, the program of the new list keeps up with that of
the old one. Outside the rewritten stretch the two take the same steps, with the jumps going to
corresponding places; at the stretch each rule has its own reason. Nothing is said of runs that fail
for another reason than a missing input: a merged move does not come by where the single ones fail.
-/
namespace TapeMachine.Compiled

open Brackets

/-- Ends with the same effects. A missing input is told by the index of its operation. -/
inductive Matches : Ending → State → Ending → State → Prop
  | halted {s t : State} (store : t.store = s.store) : Matches .halted s .halted t
  | noInput {s t : State} (i j : ℤ) (store : t.store = s.store) :
    Matches (.failed (.noInput i)) s (.failed (.noInput j)) t

theorem Matches.trans {e e' e'' : Ending} {s s' s'' : State} (h : Matches e s e' s')
    (h' : Matches e' s' e'' s'') : Matches e s e'' s'' := by
  cases h with
  | halted store =>
    cases h' with
    | halted store' => exact .halted (store'.trans store)
  | noInput i j store =>
    cases h' with
    | noInput _ k store' => exact .noInput i k (store'.trans store)

/-- A failure that is not due to the input. -/
def Breaks (e : Ending) : Prop := ∃ f, e = .failed f ∧ f.faultClass ≠ .input

theorem breaks_failed {f : Fault} (h : f.faultClass ≠ .input) : Breaks (.failed f) := ⟨f, rfl, h⟩

theorem not_breaks_halted : ¬ Breaks .halted := by
  rintro ⟨f, h, -⟩
  cases h

theorem not_breaks_noInput (i : ℤ) : ¬ Breaks (.failed (.noInput i)) := by
  rintro ⟨f, h, hf⟩
  cases h
  exact hf rfl

theorem Matches.of_not_breaks {e : Ending} (he : ¬ Breaks e) (t : State) : Matches e t e t := by
  cases e with
  | halted => exact .halted rfl
  | failed f =>
    cases f with
    | noInput i => exact .noInput i i rfl
    | _ => exact absurd (breaks_failed (by simp [Fault.faultClass])) he

theorem Matches.not_breaks {e e' : Ending} {t t' : State} (h : Matches e t e' t') :
    ¬ Breaks e' := by
  cases h with
  | halted => exact not_breaks_halted
  | noInput i j => exact not_breaks_noInput j

variable {code code' : Array Op} {x l r y : List Op} {op : Op} {i j : ℕ} {s : Store} {m n v : ℤ}
  {d : State}

section Operations

/-- What becomes of the same operation at the places `i` and `j`. -/
inductive Alike (i j : ℤ) : Step State → Step State → Prop
  | advance {t : Store} (bytes : t.Bytes) (inRange : t.InRange) :
    Alike i j (.next ⟨i + 1, t⟩) (.next ⟨j + 1, t⟩)
  | again {t : Store} (bytes : t.Bytes) (inRange : t.InRange) :
    Alike i j (.next ⟨i, t⟩) (.next ⟨j, t⟩)
  | ends {e e' : Ending} {t t' : State} (ends : Matches e t e' t') :
    Alike i j (.done e t) (.done e' t')
  | breaks {e : Ending} {t : State} {a : Step State} (breaks : Breaks e) : Alike i j (.done e t) a

theorem alike_move {k k' : ℤ} (hs : s.Bytes)
    (next : ∀ t : Store, t.Bytes → t.InRange → Alike i j (.next ⟨k, t⟩) (.next ⟨k', t⟩)) :
    Alike i j (State.move ⟨i, s⟩ k n) (State.move ⟨j, s⟩ k' n) := by
  unfold State.move
  by_cases hr : (s.shift n).InRange
  · simp only [hr, if_true]
    exact next _ (hs.shift n) hr
  · simp only [hr, if_false]
    exact .breaks (breaks_failed (by simp [Store.offTape, Fault.faultClass]))

/-- What is no bracket does the same wherever it stands. -/
theorem alike_exec (hop : op.HasOperand) (plain : op.bracket? = none) (hs : s.Bytes)
    (hr : s.InRange) : Alike i j (State.exec ⟨i, s⟩ op) (State.exec ⟨j, s⟩ op) := by
  obtain ⟨tag, arg⟩ := op
  obtain ⟨v, hv, -⟩ := hs.exists_cell hr
  cases tag with
  | openLoop | closeLoop => cases plain
  | move =>
    obtain ⟨n, rfl⟩ := hop
    exact alike_move hs fun t => .advance
  | add =>
    obtain ⟨n, rfl⟩ := hop
    simp only [State.exec, hv]
    exact .advance (hs.put (signedByte_wrap _)) hr
  | set =>
    obtain ⟨w, rfl, hw⟩ := hop
    simp only [State.exec, hv]
    exact .advance (hs.put hw) hr
  | seek =>
    obtain ⟨n, rfl⟩ := hop
    by_cases h0 : v = 0
    · subst h0
      simp only [State.exec, hv]
      exact .advance hs hr
    · rw [exec_seek (s := ⟨i, s⟩) hv h0, exec_seek (s := ⟨j, s⟩) hv h0]
      exact alike_move hs fun t => .again
  | print =>
    simp only [State.exec, hv]
    exact .advance (hs.emit _) hr
  | read =>
    cases hread : s.channel.read with
    | none =>
      simp only [State.exec, hread]
      exact .ends (.noInput _ _ rfl)
    | some c =>
      obtain ⟨c, rest⟩ := c
      have hcell : Store.cell? { s with channel := rest } = some (some v) := hv
      simp only [State.exec, hread, hcell]
      exact .advance ((hs.withChannel rest).put (signedByte_wrap _)) hr
  | stop => exact .ends (.halted rfl)
  | other name => exact .advance hs hr

theorem leads_opening (hcode : code[i]? = some ⟨.openLoop, some (j : ℤ)⟩)
    (hv : s.cell? = some (some v)) :
    Leads (step code) ⟨i, s⟩ ⟨if v = 0 then j + 1 else i + 1, s⟩ := by
  rw [Leads, step_of_getElem? hcode]
  by_cases h0 : v = 0 <;> simp [State.exec, hv, h0, State.jump, State.advance]

theorem leads_closing (hcode : code[j]? = some ⟨.closeLoop, some (i : ℤ)⟩)
    (hv : s.cell? = some (some v)) :
    Leads (step code) ⟨j, s⟩ ⟨if v = 0 then j + 1 else i + 1, s⟩ := by
  rw [Leads, step_of_getElem? hcode]
  by_cases h0 : v = 0 <;> simp [State.exec, hv, h0, State.jump, State.advance]

end Operations

/-- Corresponding states before and after the stretch `l` behind `x` has been rewritten to `r`. A
loop that seeks is one operation afterwards, and stands at it at the end of every round too. -/
inductive Meets (x l r : List Op) : State → State → Prop
  | outside {i j : ℕ} {s : Store} (places : Corresponds x.length l.length r.length i j)
    (bytes : s.Bytes) (inRange : s.InRange) : Meets x l r ⟨i, s⟩ ⟨j, s⟩
  | start {s : Store} (bytes : s.Bytes) (inRange : s.InRange) :
    Meets x l r ⟨x.length, s⟩ ⟨x.length, s⟩
  | round {i j : Option ℤ} {n : ℤ} {s : Store}
    (before : l = [⟨.openLoop, i⟩, ⟨.move, some n⟩, ⟨.closeLoop, j⟩])
    (after : r = [⟨.seek, some n⟩]) (bytes : s.Bytes) (inRange : s.InRange) :
    Meets x l r ⟨(x.length + 2 : ℕ), s⟩ ⟨x.length, s⟩

/-- The program of the new list keeps up from here on. -/
abbrev KeepsUp (x l r : List Op) (code code' : Array Op) : State → State → Prop :=
  Follows (step code) (step code') (Meets x l r) Breaks Matches

section Outside

/-- Behind corresponding places the states correspond. -/
theorem Meets.behind (places : Corresponds x.length l.length r.length i j) (hs : s.Bytes)
    (hr : s.InRange) : Meets x l r ⟨i + 1, s⟩ ⟨j + 1, s⟩ := by
  cases places with
  | @before k h =>
    rcases Nat.lt_or_eq_of_le (Nat.succ_le_of_lt h) with hlt | heq
    · exact .outside (.before hlt) hs hr
    · have hstart := Meets.start (x := x) (l := l) (r := r) hs hr
      rwa [← heq, Nat.cast_succ] at hstart
  | behind k => exact .outside (.behind (k + 1)) hs hr

theorem keepsUp_of_alike (places : Corresponds x.length l.length r.length i j)
    (h : Alike i j (step code ⟨i, s⟩) (step code' ⟨j, s⟩)) :
    KeepsUp x l r code code' ⟨i, s⟩ ⟨j, s⟩ := by
  generalize hfirst : step code ⟨i, s⟩ = first at h
  generalize hsecond : step code' ⟨j, s⟩ = second at h
  cases h with
  | advance bytes inRange =>
    exact .go (.single hfirst) (.single hsecond) (.behind places bytes inRange)
  | again bytes inRange =>
    exact .go (.single hfirst) (.single hsecond) (.outside places bytes inRange)
  | ends ends => exact .ends (.of_done hfirst) (.of_done hsecond) ends
  | breaks breaks => exact .excused (.of_done hfirst) breaks

end Outside

/-- A rule has been applied in a list of operations, and both lists are programs. -/
structure Site (x l r y : List Op) (code code' : Array Op) : Prop where
  rule : Rewrite l r
  operands : ∀ op ∈ x ++ (l ++ y), op.HasOperand
  first : assemble (x ++ (l ++ y)) = .ok code
  second : assemble (x ++ (r ++ y)) = .ok code'

namespace Site

section Outside

/-- A bracket outside the stretch keeps its partner. -/
theorem exists_paired_right (h : Site x l r y code code') {i' : ℕ}
    (places : Corresponds x.length l.length r.length i i')
    (paired : Paired ((x ++ (l ++ y)).map Op.bracket?) i j) :
    ∃ j', Corresponds x.length l.length r.length j j' ∧
      Paired ((x ++ (r ++ y)).map Op.bracket?) i' j' := by
  obtain ⟨hl, hr⟩ := h.rule.balanced
  rw [List.map_append, List.map_append] at paired ⊢
  rw [← List.length_map Op.bracket?, ← List.length_map Op.bracket?,
    ← List.length_map Op.bracket?] at places
  obtain ⟨j', places'⟩ := paired.exists_corresponds_right hl places
  refine ⟨j', ?_, paired.replace hl hr places places'⟩
  simpa only [List.length_map] using places'

theorem exists_paired_left (h : Site x l r y code code') {j' : ℕ}
    (places : Corresponds x.length l.length r.length j j')
    (paired : Paired ((x ++ (l ++ y)).map Op.bracket?) i j) :
    ∃ i', Corresponds x.length l.length r.length i i' ∧
      Paired ((x ++ (r ++ y)).map Op.bracket?) i' j' := by
  obtain ⟨hl, hr⟩ := h.rule.balanced
  rw [List.map_append, List.map_append] at paired ⊢
  rw [← List.length_map Op.bracket?, ← List.length_map Op.bracket?,
    ← List.length_map Op.bracket?] at places
  obtain ⟨i', places'⟩ := paired.exists_corresponds_left hl places
  refine ⟨i', ?_, paired.replace hl hr places' places⟩
  simpa only [List.length_map] using places'

/-- The same branch is taken at corresponding brackets. -/
theorem keepsUp_of_branch {p q p' q' : ℕ} {i' : ℕ}
    (hp : Corresponds x.length l.length r.length p p')
    (hq : Corresponds x.length l.length r.length q q')
    (first : Leads (step code) ⟨i, s⟩ ⟨if v = 0 then p + 1 else q + 1, s⟩)
    (second : Leads (step code') ⟨i', s⟩ ⟨if v = 0 then p' + 1 else q' + 1, s⟩)
    (hs : s.Bytes) (hr : s.InRange) : KeepsUp x l r code code' ⟨i, s⟩ ⟨i', s⟩ := by
  refine .go (.single first) (.single second) ?_
  by_cases h0 : v = 0
  · simp only [h0, if_true]
    exact .behind hp hs hr
  · simp only [h0, if_false]
    exact .behind hq hs hr

/-- At corresponding places stands the same operation, and it does the same. -/
theorem keepsUp_of_getElem? (h : Site x l r y code code')
    (places : Corresponds x.length l.length r.length i j) (hop : (x ++ (l ++ y))[i]? = some op)
    (hs : s.Bytes) (hr : s.InRange) : KeepsUp x l r code code' ⟨i, s⟩ ⟨j, s⟩ := by
  have bal := exists_assemble_iff.mp ⟨code, h.first⟩
  have hop' : (x ++ (r ++ y))[j]? = some op := places.getElem?_eq ▸ hop
  have hbracket : ((x ++ (l ++ y)).map Op.bracket?)[i]? = some op.bracket? := by
    rw [List.getElem?_map, hop, Option.map_some]
  obtain ⟨v, hv, -⟩ := hs.exists_cell hr
  match hb : op.bracket? with
  | none =>
    apply keepsUp_of_alike places
    rw [step_of_getElem? (getElem?_assemble_of_none h.first hop hb),
      step_of_getElem? (getElem?_assemble_of_none h.second hop' hb)]
    exact alike_exec (h.operands op (List.mem_of_getElem? hop)) hb hs hr
  | some .opening =>
    obtain ⟨p, paired⟩ := exists_paired_of_opening bal (hb ▸ hbracket)
    obtain ⟨p', places', paired'⟩ := h.exists_paired_right places paired
    exact keepsUp_of_branch places' places
      (leads_opening (getElem?_assemble_of_paired h.first paired).1 hv)
      (leads_opening (getElem?_assemble_of_paired h.second paired').1 hv) hs hr
  | some .closing =>
    obtain ⟨p, paired⟩ := exists_paired_of_closing bal (hb ▸ hbracket)
    obtain ⟨p', places', paired'⟩ := h.exists_paired_left places paired
    exact keepsUp_of_branch places places'
      (leads_closing (getElem?_assemble_of_paired h.first paired).2 hv)
      (leads_closing (getElem?_assemble_of_paired h.second paired').2 hv) hs hr

/-- Behind both lists both programs halt. -/
theorem keepsUp_at_end (h : Site x l r y code code')
    (places : Corresponds x.length l.length r.length i j) (hi : i = (x ++ (l ++ y)).length) :
    KeepsUp x l r code code' ⟨i, s⟩ ⟨j, s⟩ := by
  have hj : j = (x ++ (r ++ y)).length := by
    simp only [List.length_append] at hi ⊢
    cases places with
    | before h => omega
    | behind k => omega
  apply keepsUp_of_alike places
  rw [step_of_getElem? (hi ▸ getElem?_assemble_stop h.first),
    step_of_getElem? (hj ▸ getElem?_assemble_stop h.second)]
  exact .ends (.halted rfl)

theorem keepsUp_outside (h : Site x l r y code code')
    (places : Corresponds x.length l.length r.length i j) (hs : s.Bytes) (hr : s.InRange) :
    KeepsUp x l r code code' ⟨i, s⟩ ⟨j, s⟩ := by
  rcases lt_trichotomy i (x ++ (l ++ y)).length with hlt | heq | hgt
  · exact h.keepsUp_of_getElem? places (List.getElem?_eq_getElem hlt) hs hr
  · exact h.keepsUp_at_end places heq
  · -- No run comes to a place behind the program.
    have hnone : code[i]? = none := by
      have hsize := size_assemble h.first
      exact Array.getElem?_eq_none (by omega)
    have hstep : step code ⟨i, s⟩ = .done (.failed .noSuchOp) ⟨i, s⟩ := by
      simp [step, fetch, hnone, State.fail]
    exact .excused (.of_done hstep) (breaks_failed (by simp [Fault.faultClass]))

end Outside

end Site

section Single

variable {k : ℕ}

theorem leads_add (hcode : code[k]? = some ⟨.add, some n⟩) (hv : s.cell? = some (some v)) :
    Leads (step code) ⟨k, s⟩ ⟨(k + 1 : ℕ), s.put (some (wrap (v + n)))⟩ := by
  rw [Leads, step_of_getElem? hcode]
  simp [State.exec, hv, State.advance]

theorem leads_set (hcode : code[k]? = some ⟨.set, some n⟩) (hv : s.cell? = some (some v)) :
    Leads (step code) ⟨k, s⟩ ⟨(k + 1 : ℕ), s.put (some n)⟩ := by
  rw [Leads, step_of_getElem? hcode]
  simp [State.exec, hv, State.advance]

theorem leads_move (hcode : code[k]? = some ⟨.move, some n⟩) (hr : (s.shift n).InRange) :
    Leads (step code) ⟨k, s⟩ ⟨(k + 1 : ℕ), s.shift n⟩ := by
  rw [Leads, step_of_getElem? hcode]
  simp [State.exec, State.move, hr]

theorem leads_seek (hcode : code[k]? = some ⟨.seek, some n⟩) (hv : s.cell? = some (some v))
    (hne : v ≠ 0) (hr : (s.shift n).InRange) :
    Leads (step code) ⟨k, s⟩ ⟨k, s.shift n⟩ := by
  rw [Leads, step_of_getElem? hcode, exec_seek hv hne]
  simp [State.move, hr]

theorem leads_found (hcode : code[k]? = some ⟨.seek, some n⟩) (hv : s.cell? = some (some 0)) :
    Leads (step code) ⟨k, s⟩ ⟨(k + 1 : ℕ), s⟩ := by
  rw [Leads, step_of_getElem? hcode]
  simp [State.exec, hv, State.advance]

/-- Nothing has to be shown of a move that leads off the tape. -/
theorem keepsUp_of_move {c : State} (hcode : code[k]? = some ⟨.move, some n⟩)
    (next : (s.shift n).InRange → KeepsUp x l r code code' ⟨k, s⟩ c) :
    KeepsUp x l r code code' ⟨k, s⟩ c := by
  by_cases hr : (s.shift n).InRange
  · exact next hr
  · have hstep : step code ⟨k, s⟩ = .done (.failed (s.shift n).offTape) ⟨k, s.shift n⟩ := by
      rw [step_of_getElem? hcode]
      simp [State.exec, State.move, hr]
    exact .excused (.of_done hstep) (breaks_failed (by simp [Store.offTape, Fault.faultClass]))

end Single

section Stretch

variable {i' j' : Option ℤ}

/-- The operations of the stretch stand in the program, those that are no brackets as they are. -/
theorem getElem?_stretch (h : assemble (x ++ (l ++ y)) = .ok code) {k : ℕ} (hk : l[k]? = some op)
    (hop : op.bracket? = none) : code[x.length + k]? = some op := by
  refine getElem?_assemble_of_none h ?_ hop
  have hlt := (List.getElem?_eq_some_iff.mp hk).1
  rw [List.getElem?_append_right (by omega), Nat.add_sub_cancel_left,
    List.getElem?_append_left hlt, hk]

/-- Behind the stretch the states correspond again. -/
theorem Meets.past (x l r : List Op) (hs : s.Bytes) (hr : s.InRange) :
    Meets x l r ⟨(x.length + l.length : ℕ), s⟩ ⟨(x.length + r.length : ℕ), s⟩ :=
  .outside (.behind 0) hs hr

theorem keepsUp_moves (h₁ : assemble (x ++ ([⟨.move, some m⟩, ⟨.move, some n⟩] ++ y)) = .ok code)
    (h₂ : assemble (x ++ ([⟨.move, some (m + n)⟩] ++ y)) = .ok code') (hs : s.Bytes) :
    KeepsUp x [⟨.move, some m⟩, ⟨.move, some n⟩] [⟨.move, some (m + n)⟩] code code'
      ⟨x.length, s⟩ ⟨x.length, s⟩ := by
  have hm : code[x.length]? = _ := getElem?_stretch h₁ (k := 0) rfl rfl
  have hn : code[x.length + 1]? = _ := getElem?_stretch h₁ (k := 1) rfl rfl
  have hsum : code'[x.length]? = _ := getElem?_stretch h₂ (k := 0) rfl rfl
  refine keepsUp_of_move hm fun hrm => ?_
  refine .of_reaches (.single (leads_move hm hrm)) .refl ?_
  refine keepsUp_of_move hn fun hrn => ?_
  have hshift := Store.shift_shift s m n
  have hsecond := leads_move hsum (hshift ▸ hrn)
  rw [← hshift] at hsecond
  exact .go (.single (leads_move hn hrn)) (.single hsecond) (.past _ _ _ ((hs.shift m).shift n) hrn)

theorem keepsUp_additions
    (h₁ : assemble (x ++ ([⟨.add, some m⟩, ⟨.add, some n⟩] ++ y)) = .ok code)
    (h₂ : assemble (x ++ ([⟨.add, some (wrap (m + n))⟩] ++ y)) = .ok code') (hs : s.Bytes)
    (hr : s.InRange) :
    KeepsUp x [⟨.add, some m⟩, ⟨.add, some n⟩] [⟨.add, some (wrap (m + n))⟩] code code'
      ⟨x.length, s⟩ ⟨x.length, s⟩ := by
  have hm : code[x.length]? = _ := getElem?_stretch h₁ (k := 0) rfl rfl
  have hn : code[x.length + 1]? = _ := getElem?_stretch h₁ (k := 1) rfl rfl
  have hsum : code'[x.length]? = _ := getElem?_stretch h₂ (k := 0) rfl rfl
  obtain ⟨v, hv, -⟩ := hs.exists_cell hr
  have hfirst := leads_add hn (hs.cell?_put hr (some (wrap (v + m))))
  have hsecond := leads_add hsum hv
  rw [Store.put_put, wrap_wrap_add] at hfirst
  rw [wrap_add_wrap, ← add_assoc] at hsecond
  exact .go (.head (leads_add hm hv) (.single hfirst)) (.single hsecond)
    (.past _ _ _ (hs.put (signedByte_wrap _)) hr)

theorem keepsUp_setAddition
    (h₁ : assemble (x ++ ([⟨.set, some m⟩, ⟨.add, some n⟩] ++ y)) = .ok code)
    (h₂ : assemble (x ++ ([⟨.set, some (wrap (m + n))⟩] ++ y)) = .ok code') (hs : s.Bytes)
    (hr : s.InRange) :
    KeepsUp x [⟨.set, some m⟩, ⟨.add, some n⟩] [⟨.set, some (wrap (m + n))⟩] code code'
      ⟨x.length, s⟩ ⟨x.length, s⟩ := by
  have hm : code[x.length]? = _ := getElem?_stretch h₁ (k := 0) rfl rfl
  have hn : code[x.length + 1]? = _ := getElem?_stretch h₁ (k := 1) rfl rfl
  have hsum : code'[x.length]? = _ := getElem?_stretch h₂ (k := 0) rfl rfl
  obtain ⟨v, hv, -⟩ := hs.exists_cell hr
  have hfirst := leads_add hn (hs.cell?_put hr (some m))
  rw [Store.put_put] at hfirst
  exact .go (.head (leads_set hm hv) (.single hfirst)) (.single (leads_set hsum hv))
    (.past _ _ _ (hs.put (signedByte_wrap _)) hr)

/-- An operation that does nothing is left out. -/
theorem keepsUp_idle (h₁ : assemble (x ++ ([op] ++ y)) = .ok code) (hop : op.isNoop = true)
    (hs : s.Bytes) (hr : s.InRange) :
    KeepsUp x [op] [] code code' ⟨x.length, s⟩ ⟨x.length, s⟩ := by
  have hcode : code[x.length]? = _ := getElem?_stretch h₁ (k := 0) rfl (bracket?_of_isNoop hop)
  have hfirst : Leads (step code) ⟨x.length, s⟩ ⟨(x.length + 1 : ℕ), s⟩ := by
    obtain ⟨tag, arg⟩ := op
    obtain ⟨hmove | hadd, rfl⟩ : (tag = .move ∨ tag = .add) ∧ arg = some 0 := by
      simpa [Op.isNoop] using hop
    · subst hmove
      have hlead := leads_move hcode (s.shift_zero.symm ▸ hr)
      rwa [Store.shift_zero] at hlead
    · subst hadd
      obtain ⟨v, hv, hbyte⟩ := hs.exists_cell hr
      have hlead := leads_add hcode hv
      rwa [add_zero, hbyte.wrap_eq, Store.put_cell hr hv] at hlead
  exact .go (.single hfirst) .refl (.past _ _ _ hs hr)

/-- A loop around one operation. -/
structure LoopAt (code : Array Op) (k : ℕ) (op : Op) : Prop where
  opening : code[k]? = some ⟨.openLoop, some (k + 2 : ℕ)⟩
  body : code[k + 1]? = some op
  closing : code[k + 2]? = some ⟨.closeLoop, some k⟩

theorem loopAt (h : assemble (x ++ ([⟨.openLoop, i'⟩, op, ⟨.closeLoop, j'⟩] ++ y)) = .ok code)
    (hop : op.bracket? = none) : LoopAt code x.length op := by
  have hpair : Paired [some .opening, op.bracket?, some .closing] 0 2 :=
    ⟨[], [op.bracket?], [], rfl, rfl, rfl, .of_forall_none (by simp [hop])⟩
  have hpaired := hpair.of_middle (x.map Op.bracket?) (y.map Op.bracket?)
  rw [List.length_map] at hpaired
  obtain ⟨hopen, hclose⟩ := getElem?_assemble_of_paired h (by simpa [Op.bracket?] using hpaired)
  exact ⟨hopen, getElem?_stretch h (k := 1) rfl hop, hclose⟩

namespace LoopAt

variable {k : ℕ}

/-- The first step skips the loop or enters it. -/
theorem leads_start (h : LoopAt code k op) (hv : s.cell? = some (some v)) :
    Leads (step code) ⟨k, s⟩ ⟨(if v = 0 then k + 3 else k + 1 : ℕ), s⟩ := by
  have hlead := leads_opening h.opening hv
  split_ifs at hlead ⊢ <;> exact hlead

/-- The last step of a round leaves the loop or begins the next round. -/
theorem leads_end (h : LoopAt code k op) (hv : s.cell? = some (some v)) :
    Leads (step code) ⟨(k + 2 : ℕ), s⟩ ⟨(if v = 0 then k + 3 else k + 1 : ℕ), s⟩ := by
  have hlead := leads_closing h.closing hv
  split_ifs at hlead ⊢ <;> exact hlead

/-- A loop that counts down empties its cell. -/
theorem passes_emptied (h : LoopAt code k ⟨.add, some (-1)⟩) (hs : s.Bytes) (hr : s.InRange) :
    Passes (step code) ⟨k, s⟩ ⟨(k + 3 : ℕ), s.put (some 0)⟩ := by
  obtain ⟨v, hv, -⟩ := hs.exists_cell hr
  have hstart := h.leads_start hv
  by_cases h0 : v = 0
  · subst h0
    rw [Store.put_cell hr hv]
    exact .single hstart
  · rw [if_neg h0] at hstart
    have hrounds : Reaches (step code) ⟨(k + 2 : ℕ), s.put (some (wrap (v + -1)))⟩
        ⟨(k + 3 : ℕ), (s.put (some (wrap (v + -1)))).put (some 0)⟩ := by
      refine reaches_counted_down (fun s => State.mk (k + 2 : ℕ) s)
        (fun s => State.mk (k + 3 : ℕ) s) ?_ ?_ (hs.put (signedByte_wrap _)) hr
      · intro s hr hv
        exact .single (h.leads_end hv)
      · intro s v hs hr hv hne
        have hlead := h.leads_end hv
        rw [if_neg hne] at hlead
        exact .head hlead (.single (leads_add h.body hv))
    rw [Store.put_put] at hrounds
    exact .head' hstart (.head (leads_add h.body hv) hrounds)

end LoopAt

theorem keepsUp_emptying
    (h₁ : assemble (x ++ ([⟨.openLoop, i'⟩, ⟨.add, some (-1)⟩, ⟨.closeLoop, j'⟩] ++ y)) = .ok code)
    (h₂ : assemble (x ++ ([⟨.set, some 0⟩] ++ y)) = .ok code') (hs : s.Bytes) (hr : s.InRange) :
    KeepsUp x [⟨.openLoop, i'⟩, ⟨.add, some (-1)⟩, ⟨.closeLoop, j'⟩] [⟨.set, some 0⟩] code code'
      ⟨x.length, s⟩ ⟨x.length, s⟩ := by
  have hset : code'[x.length]? = _ := getElem?_stretch h₂ (k := 0) rfl rfl
  obtain ⟨v, hv, -⟩ := hs.exists_cell hr
  exact .go ((loopAt h₁ rfl).passes_emptied hs hr) (.single (leads_set hset hv))
    (.past _ _ _ (hs.put (by decide)) hr)

/-- Every round of a loop that seeks is a step of the one operation; `d` is at the bracket before or
behind it. -/
theorem keepsUp_seeking
    (h₁ : assemble (x ++ ([⟨.openLoop, i'⟩, ⟨.move, some n⟩, ⟨.closeLoop, j'⟩] ++ y)) = .ok code)
    (h₂ : assemble (x ++ ([⟨.seek, some n⟩] ++ y)) = .ok code') (hs : s.Bytes) (hr : s.InRange)
    (hv : s.cell? = some (some v))
    (hlead : Leads (step code) d ⟨(if v = 0 then x.length + 3 else x.length + 1 : ℕ), s⟩) :
    KeepsUp x [⟨.openLoop, i'⟩, ⟨.move, some n⟩, ⟨.closeLoop, j'⟩] [⟨.seek, some n⟩] code code'
      d ⟨x.length, s⟩ := by
  have hseek : code'[x.length]? = _ := getElem?_stretch h₂ (k := 0) rfl rfl
  have hbody := (loopAt h₁ rfl).body
  by_cases h0 : v = 0
  · subst h0
    exact .go (.single hlead) (.single (leads_found hseek hv)) (.past _ _ _ hs hr)
  · rw [if_neg h0] at hlead
    refine .of_reaches (.single hlead) .refl ?_
    refine keepsUp_of_move hbody fun hrn => ?_
    exact .go (.single (leads_move hbody hrn)) (.single (leads_seek hseek hv h0 hrn))
      (.round rfl rfl (hs.shift n) hrn)

end Stretch

namespace Site

/-- Each rule has the new program keep up where the stretch begins. -/
theorem keepsUp_start (h : Site x l r y code code') (hs : s.Bytes) (hr : s.InRange) :
    KeepsUp x l r code code' ⟨x.length, s⟩ ⟨x.length, s⟩ := by
  obtain ⟨rule, operands, h₁, h₂⟩ := h
  cases rule with
  | moves m n => exact keepsUp_moves h₁ h₂ hs
  | additions m n => exact keepsUp_additions h₁ h₂ hs hr
  | setAddition v n => exact keepsUp_setAddition h₁ h₂ hs hr
  | emptying => exact keepsUp_emptying h₁ h₂ hs hr
  | seeking i j n =>
    obtain ⟨n, rfl⟩ : ∃ m, n = some m := operands ⟨.move, n⟩ (by simp)
    obtain ⟨v, hv, -⟩ := hs.exists_cell hr
    exact keepsUp_seeking h₁ h₂ hs hr hv ((loopAt h₁ rfl).leads_start hv)
  | idle hop => exact keepsUp_idle h₁ hop hs hr

/-- From all corresponding states the new program keeps up. -/
theorem keepsUp (h : Site x l r y code code') {c : State} (meets : Meets x l r d c) :
    KeepsUp x l r code code' d c := by
  cases meets with
  | outside places hs hr => exact h.keepsUp_outside places hs hr
  | start hs hr => exact h.keepsUp_start hs hr
  | round before after hs hr =>
    subst before after
    obtain ⟨v, hv, -⟩ := hs.exists_cell hr
    exact keepsUp_seeking h.first h.second hs hr hv ((loopAt h.first rfl).leads_end hv)

/-- A run from the first operation on ends with the same effects, unless it breaks. -/
theorem endsIn (h : Site x l r y code code') (hs : s.Bytes) (hr : s.InRange) {e : Ending}
    (run : EndsIn (step code) ⟨0, s⟩ e d) (he : ¬ Breaks e) :
    ∃ e' d', EndsIn (step code') ⟨0, s⟩ e' d' ∧ Matches e d e' d' := by
  refine Follows.endsIn (fun _ _ => h.keepsUp) ?_ run he
  cases x with
  | nil => exact .start hs hr
  | cons op x => exact .outside (.before (by simp)) hs hr

end Site

/-- However often rules are applied, a program is left, and its runs end with the same effects as
those of the first one, unless that one breaks. -/
theorem endsIn_of_rewrites {p q : List Op} (h : Rewrites p q) (operands : ∀ op ∈ p, op.HasOperand)
    (hcode : assemble p = .ok code) :
    ∃ code', assemble q = .ok code' ∧ ∀ (s : Store) (e : Ending) (d : State), s.Bytes → s.InRange →
      EndsIn (step code) ⟨0, s⟩ e d → ¬ Breaks e →
        ∃ e' d', EndsIn (step code') ⟨0, s⟩ e' d' ∧ Matches e d e' d' := by
  induction h with
  | refl =>
    exact ⟨code, hcode, fun s e d _ _ run he => ⟨e, d, run, .of_not_breaks he d⟩⟩
  | tail first last ih =>
    obtain ⟨middle, hmiddle, keeps⟩ := ih
    have bal := last.balanced (exists_assemble_iff.mp ⟨middle, hmiddle⟩)
    obtain ⟨code', hcode'⟩ := exists_assemble_iff.mpr bal
    have operands' := Rewrites.hasOperand first operands
    obtain ⟨x, y, rule⟩ := last
    have site : Site x _ _ y middle code' := ⟨rule, operands', hmiddle, hcode'⟩
    refine ⟨code', hcode', fun s e d hs hr run he => ?_⟩
    obtain ⟨e₁, d₁, run₁, matches₁⟩ := keeps s e d hs hr run he
    obtain ⟨e₂, d₂, run₂, matches₂⟩ := site.endsIn hs hr run₁ matches₁.not_breaks
    exact ⟨e₂, d₂, run₂, matches₁.trans matches₂⟩

end TapeMachine.Compiled
