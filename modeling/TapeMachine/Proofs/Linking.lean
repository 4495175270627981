import TapeMachine.Proofs.Brackets.Reach
import TapeMachine.Proofs.Shape
import TapeMachine.Proofs.Verdict

/-!
# What linking does to a list of operations

Linking can be tried on any list of operations. It writes nothing but the payloads of brackets, and
of these only the ones that it has found a partner for. So a list that cannot be linked is left with
the loops in it linked as far as the scan came, and linking it again changes nothing.
-/
namespace TapeMachine

open Brackets

/-- The brackets of some operations, one entry for each of them. -/
def bracketsIn (ops : List Op) : List (Option Bracket) := ops.map Op.bracket?

variable {ops : List Op} {code code' : Array Op} {i j k : ℕ} {op : Op}

section Entries

/-- The pairs that linking finds. -/
def linkedPairs (ops : List Op) : List (ℕ × ℕ) := (scan (bracketsIn ops) 0 []).pairs

theorem link_eq (ops : List Op) :
    link ops = ⟨tieAll (fun j => ⟨.openLoop, some j⟩) (fun i => ⟨.closeLoop, some i⟩)
      (linkedPairs ops) ops.toArray, (scan (bracketsIn ops) 0 []).fault⟩ :=
  Linked.scan_eq ops 0 [] ops.toArray

theorem fault_link (ops : List Op) : (link ops).fault = (scan (bracketsIn ops) 0 []).fault := by
  rw [link_eq]

theorem paired_of_mem_linkedPairs (h : (i, j) ∈ linkedPairs ops) : Paired (bracketsIn ops) i j :=
  paired_of_mem_pairs h

theorem lt_length_of_paired (h : Paired (bracketsIn ops) i j) :
    i < ops.length ∧ j < ops.length := by
  have hi := (List.getElem?_eq_some_iff.mp h.getElem?_left).1
  have hj := (List.getElem?_eq_some_iff.mp h.getElem?_right).1
  rw [bracketsIn, List.length_map] at hi hj
  exact ⟨hi, hj⟩

theorem joined_of_mem_linkedPairs (h : (i, j) ∈ linkedPairs ops) : Joined (link ops).ops i j := by
  have paired := paired_of_mem_linkedPairs h
  obtain ⟨hi, hj⟩ := lt_length_of_paired paired
  rw [link_eq]
  exact ⟨paired.lt, getElem?_tieAll_left (by simpa using hi) h,
    getElem?_tieAll_right (by simpa using hj) h⟩

theorem getElem?_link_of_not_mem (h : ∀ j, (k, j) ∉ linkedPairs ops ∧ (j, k) ∉ linkedPairs ops) :
    (link ops).ops[k]? = ops[k]? := by
  by_cases hk : k < ops.length
  · rw [link_eq]
    rcases getElem?_tieAll (fun j : ℕ => (⟨.openLoop, some j⟩ : Op)) (fun i => ⟨.closeLoop, some i⟩)
      (linkedPairs ops) ops.toArray (by simpa using hk) with ⟨n, hn, -⟩ | ⟨n, hn, -⟩ | ⟨-, he⟩
    · exact absurd hn (h n).1
    · exact absurd hn (h n).2
    · rw [he]
      simp
  · rw [List.getElem?_eq_none (by omega), Array.getElem?_eq_none (by simp; omega)]

/-- Every place of a program is one end of a pair or is left as it was. -/
theorem link_cases (ops : List Op) (k : ℕ) :
    (∃ j, (k, j) ∈ linkedPairs ops) ∨ (∃ j, (j, k) ∈ linkedPairs ops) ∨
      (link ops).ops[k]? = ops[k]? := by
  by_cases hl : ∃ j, (k, j) ∈ linkedPairs ops
  · exact .inl hl
  by_cases hr : ∃ j, (j, k) ∈ linkedPairs ops
  · exact .inr (.inl hr)
  · exact .inr (.inr (getElem?_link_of_not_mem fun j => ⟨fun h => hl ⟨j, h⟩, fun h => hr ⟨j, h⟩⟩))

theorem getElem?_bracketsIn_eq_opening_iff :
    (bracketsIn ops)[i]? = some (some .opening) ↔ ops[i]?.map Op.tag = some .openLoop := by
  simp [bracketsIn, Op.bracket?_eq_opening_iff]

theorem getElem?_bracketsIn_eq_closing_iff :
    (bracketsIn ops)[i]? = some (some .closing) ↔ ops[i]?.map Op.tag = some .closeLoop := by
  simp [bracketsIn, Op.bracket?_eq_closing_iff]

theorem tag_left_of_mem_linkedPairs (h : (i, j) ∈ linkedPairs ops) :
    ops[i]?.map Op.tag = some .openLoop :=
  getElem?_bracketsIn_eq_opening_iff.mp (paired_of_mem_linkedPairs h).getElem?_left

theorem tag_right_of_mem_linkedPairs (h : (i, j) ∈ linkedPairs ops) :
    ops[j]?.map Op.tag = some .closeLoop :=
  getElem?_bracketsIn_eq_closing_iff.mp (paired_of_mem_linkedPairs h).getElem?_right

end Entries

/-- Nothing but payloads of brackets may differ. -/
structure Relabels (ops : List Op) (code : Array Op) : Prop where
  size : code.size = ops.length
  tag : ∀ k : ℕ, code[k]?.map Op.tag = ops[k]?.map Op.tag
  plain : ∀ (k : ℕ) (op : Op), ops[k]? = some op → op.tag ≠ .openLoop → op.tag ≠ .closeLoop →
    code[k]? = some op

theorem relabels_link (ops : List Op) : Relabels ops (link ops).ops where
  size := size_ops_link ops
  tag k := by
    rcases link_cases ops k with ⟨j, hj⟩ | ⟨j, hj⟩ | h
    · rw [(joined_of_mem_linkedPairs hj).opening, tag_left_of_mem_linkedPairs hj]
      rfl
    · rw [(joined_of_mem_linkedPairs hj).closing, tag_right_of_mem_linkedPairs hj]
      rfl
    · rw [h]
  plain k op hop hopen hclose := by
    rcases link_cases ops k with ⟨j, hj⟩ | ⟨j, hj⟩ | h
    · have htag := tag_left_of_mem_linkedPairs hj
      rw [hop] at htag
      exact absurd (Option.some.inj htag) hopen
    · have htag := tag_right_of_mem_linkedPairs hj
      rw [hop] at htag
      exact absurd (Option.some.inj htag) hclose
    · rw [h, hop]

theorem Op.bracket?_congr {a b : Op} (h : a.tag = b.tag) : a.bracket? = b.bracket? := by
  obtain ⟨tag, _⟩ := a
  obtain ⟨_, _⟩ := b
  obtain rfl : tag = _ := h
  rfl

/-- Relabelled operations have the same brackets. -/
theorem Relabels.bracketsIn_eq (h : Relabels ops code) :
    bracketsIn code.toList = bracketsIn ops := by
  refine List.ext_getElem? fun k => ?_
  have htag := h.tag k
  rw [bracketsIn, bracketsIn, List.getElem?_map, List.getElem?_map, Array.getElem?_toList]
  cases hc : code[k]? <;> cases ho : ops[k]? <;> rw [hc, ho] at htag
  case some.some => exact congrArg some (Op.bracket?_congr (Option.some.inj htag))
  all_goals simp at htag

/-- Linking what has been linked changes nothing and fails in the same way. -/
theorem link_link (ops : List Op) : link (link ops).ops.toList = link ops := by
  have hb := (relabels_link ops).bracketsIn_eq
  have hpairs : linkedPairs (link ops).ops.toList = linkedPairs ops := by
    rw [linkedPairs, hb, linkedPairs]
  have hops : (link (link ops).ops.toList).ops = (link ops).ops := by
    refine Array.ext_getElem? fun k => ?_
    rcases link_cases (link ops).ops.toList k with ⟨j, hj⟩ | ⟨j, hj⟩ | h
    · rw [(joined_of_mem_linkedPairs hj).opening,
        (joined_of_mem_linkedPairs (hpairs ▸ hj)).opening]
    · rw [(joined_of_mem_linkedPairs hj).closing,
        (joined_of_mem_linkedPairs (hpairs ▸ hj)).closing]
    · rw [h, Array.getElem?_toList]
  have hfault : (link (link ops).ops.toList).fault = (link ops).fault := by
    rw [fault_link, hb, fault_link]
  exact congrArg₂ Linked.mk hops hfault

/-- The payloads of the brackets are a well-nested matching: every bracket is one end of a loop, the
ends of a loop hold each other's place, and what lies between them is balanced. -/
structure Matched (ops : List Op) (code : Array Op) : Prop extends Relabels ops code where
  opening : ∀ (i : ℕ) (op : Op), ops[i]? = some op → op.tag = .openLoop →
    ∃ j, Joined code i j ∧ Balanced (between (bracketsIn ops) i j)
  closing : ∀ (j : ℕ) (op : Op), ops[j]? = some op → op.tag = .closeLoop →
    ∃ i, Joined code i j ∧ Balanced (between (bracketsIn ops) i j)

theorem Relabels.paired (h : Relabels ops code) (joined : Joined code i j)
    (hb : Balanced (between (bracketsIn ops) i j)) : Paired (bracketsIn ops) i j := by
  refine paired_iff.mpr ⟨joined.lt, ?_, ?_, hb⟩
  · rw [getElem?_bracketsIn_eq_opening_iff, ← h.tag, joined.opening]
    rfl
  · rw [getElem?_bracketsIn_eq_closing_iff, ← h.tag, joined.closing]
    rfl

/-- There is one such matching at most. -/
theorem Matched.unique (h : Matched ops code) (h' : Matched ops code') : code = code' := by
  refine Array.ext_getElem? fun k => ?_
  cases hop : ops[k]? with
  | none =>
    have hlen := List.getElem?_eq_none_iff.mp hop
    rw [Array.getElem?_eq_none (h.size ▸ hlen), Array.getElem?_eq_none (h'.size ▸ hlen)]
  | some op =>
    by_cases hopen : op.tag = .openLoop
    · obtain ⟨j, hj, hb⟩ := h.opening k op hop hopen
      obtain ⟨j', hj', hb'⟩ := h'.opening k op hop hopen
      rw [hj.opening, hj'.opening,
        (h.paired hj hb).right_unique (h'.paired hj' hb')]
    by_cases hclose : op.tag = .closeLoop
    · obtain ⟨i, hi, hb⟩ := h.closing k op hop hclose
      obtain ⟨i', hi', hb'⟩ := h'.closing k op hop hclose
      rw [hi.closing, hi'.closing, (h.paired hi hb).left_unique (h'.paired hi' hb')]
    · rw [h.plain k op hop hopen hclose, h'.plain k op hop hopen hclose]

theorem matched_link (bal : Balanced (bracketsIn ops)) : Matched ops (link ops).ops where
  toRelabels := relabels_link ops
  opening i op hop htag := by
    have hopen : (bracketsIn ops)[i]? = some (some .opening) := by
      rw [getElem?_bracketsIn_eq_opening_iff, hop, Option.map_some, htag]
    obtain ⟨j, hj⟩ := exists_paired_of_opening bal hopen
    exact ⟨j, joined_of_mem_linkedPairs ((mem_pairs_scan_iff bal).mpr hj), (paired_iff.mp hj).2.2.2⟩
  closing j op hop htag := by
    have hclose : (bracketsIn ops)[j]? = some (some .closing) := by
      rw [getElem?_bracketsIn_eq_closing_iff, hop, Option.map_some, htag]
    obtain ⟨i, hi⟩ := exists_paired_of_closing bal hclose
    exact ⟨i, joined_of_mem_linkedPairs ((mem_pairs_scan_iff bal).mpr hi), (paired_iff.mp hi).2.2.2⟩

/-- Linking has stopped at the first closing bracket without a partner. The loops in front of it are
linked, and all else is as it was. -/
structure StoppedAt (ops : List Op) (code : Array Op) (k : ℕ) : Prop where
  closing : (bracketsIn ops)[k]? = some (some .closing)
  alone : ∀ i, ¬ Paired (bracketsIn ops) i k
  first : ∀ j < k, (bracketsIn ops)[j]? = some (some .closing) → ∃ i, Paired (bracketsIn ops) i j
  joined : ∀ i j, Paired (bracketsIn ops) i j → j < k → Joined code i j
  kept : ∀ n : ℕ, (∀ i j, Paired (bracketsIn ops) i j → j < k → n ≠ i ∧ n ≠ j) →
    code[n]? = ops[n]?
  untouched : ∀ n : ℕ, k ≤ n → code[n]? = ops[n]?

theorem exists_stoppedAt (h : ¬ Covers 0 (bracketsIn ops)) :
    ∃ k, StoppedAt ops (link ops).ops k := by
  obtain ⟨b, c, heq, hb⟩ := exists_overclosed h
  have hmem {i j : ℕ} : (i, j) ∈ linkedPairs ops ↔ Paired (bracketsIn ops) i j ∧ j < b.length := by
    rw [linkedPairs, heq]
    exact mem_pairs_scan_overclosed_iff hb
  have hkept (n : ℕ) (hn : ∀ i j, Paired (bracketsIn ops) i j → j < b.length → n ≠ i ∧ n ≠ j) :
      (link ops).ops[n]? = ops[n]? := by
    refine getElem?_link_of_not_mem fun m => ⟨fun h => ?_, fun h => ?_⟩
    · exact (hn n m (hmem.mp h).1 (hmem.mp h).2).1 rfl
    · exact (hn m n (hmem.mp h).1 (hmem.mp h).2).2 rfl
  refine ⟨b.length, ?_, ?_, ?_, fun i j hp hj => ?_, hkept, fun n hn => hkept n fun i j hp hj => ?_⟩
  · simp [heq]
  · rw [heq]
    exact fun i => not_paired_overclosing hb
  · rw [heq]
    exact fun j hj hclose => exists_paired_before_overclosing hb hclose hj
  · exact joined_of_mem_linkedPairs (hmem.mpr ⟨hp, hj⟩)
  · have := hp.lt
    omega

/-- Linking has come to the end and some loops are still open. The others are linked, and the
opening brackets without a partner, of which there is one at least, are as they were. -/
structure LeftOpen (ops : List Op) (code : Array Op) : Prop where
  joined : ∀ i j, Paired (bracketsIn ops) i j → Joined code i j
  kept : ∀ n : ℕ, (∀ j, ¬ Paired (bracketsIn ops) n j ∧ ¬ Paired (bracketsIn ops) j n) →
    code[n]? = ops[n]?
  closing : ∀ j : ℕ, (bracketsIn ops)[j]? = some (some .closing) →
    ∃ i, Paired (bracketsIn ops) i j
  unmatched : ∃ i : ℕ, (bracketsIn ops)[i]? = some (some .opening) ∧
    ∀ j, ¬ Paired (bracketsIn ops) i j

theorem leftOpen_link (h : Covers 0 (bracketsIn ops)) (hopen : 0 < depth (bracketsIn ops)) :
    LeftOpen ops (link ops).ops := by
  have hmem {i j : ℕ} : (i, j) ∈ linkedPairs ops ↔ Paired (bracketsIn ops) i j :=
    mem_pairs_scan_iff_of_covers h
  refine ⟨fun i j hp => joined_of_mem_linkedPairs (hmem.mpr hp), fun n hn => ?_,
    fun j => exists_paired_of_covers h, exists_unpaired h hopen⟩
  exact getElem?_link_of_not_mem fun j => ⟨mt hmem.mp (hn j).1, mt hmem.mp (hn j).2⟩

/-- Linking a list of operations writes nothing but payloads of brackets. It comes through with the
only matching there is, or stops at the first closing bracket without a partner, or is left with
opening ones. Linking again changes nothing. -/
theorem link_outcome (ops : List Op) :
    Relabels ops (link ops).ops ∧
    ((link ops).program = .ok (link ops).ops ∧ Matched ops (link ops).ops ∧
        (∀ code, Matched ops code → code = (link ops).ops) ∨
      Refuses (link ops).program "missing [ for ]" ∧ (∃ k, StoppedAt ops (link ops).ops k) ∨
      Refuses (link ops).program "missing ] for [" ∧ LeftOpen ops (link ops).ops) ∧
    link (link ops).ops.toList = link ops := by
  refine ⟨relabels_link ops, ?_, link_link ops⟩
  by_cases hcovers : Covers 0 (bracketsIn ops)
  · by_cases hopen : 0 < depth (bracketsIn ops)
    · refine .inr (.inr ⟨?_, leftOpen_link hcovers hopen⟩)
      refine (refuses_message_iff (f := .missingClose) rfl).mpr (program_link_eq_error_iff.mpr ?_)
      exact fault_scan_eq_missingClose_iff.mpr ⟨hcovers, hopen⟩
    · have bal : Balanced (bracketsIn ops) := by
        have := hcovers.depth_nonneg
        exact ⟨hcovers, by omega⟩
      have hm := matched_link bal
      refine .inl ⟨?_, hm, fun code h => h.unique hm⟩
      rw [Linked.program, fault_link, fault_scan_eq_none_iff_balanced.mpr bal]
  · refine .inr (.inl ⟨?_, exists_stoppedAt hcovers⟩)
    refine (refuses_message_iff (f := .missingOpen) rfl).mpr (program_link_eq_error_iff.mpr ?_)
    exact fault_scan_eq_missingOpen_iff.mpr hcovers

end TapeMachine
